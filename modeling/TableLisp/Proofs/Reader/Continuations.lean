import TableLisp.Proofs.Reader.LineCuts
import TableLisp.Proofs.Reader.Positions

/-! Text that goes on. The end of the text is seen only by a run that comes to it: a run that leaves
something unread is the same whatever follows, for any table. In the standard table no datum ends
where a line ends, unless it is a newline behind a backslash. So after whole lines reading goes on as
from a new text, with the lines and the characters before it added to every position. An error in
whole lines that more text mends is incomplete, or it says that a form is missing behind a mark. -/

namespace TableLisp.Reader

variable {d : Dialect} {src inner after : Source} {c : Char} {handler : Handler} {task : Task}
variable {result : Except Error Reading × Source} (more : List Char)

/-- The same outcome, with more text at the end. -/
def extended (result : Except Error Reading × Source) : Except Error Reading × Source :=
  (result.1, result.2.extend more)

theorem readNumeral_extend (hne : (readNumeral d c src).2.rest ≠ []) :
    readNumeral d c (src.extend more) = extended more (readNumeral d c src) := by
  have hsnd : (readNumeral d c src).2 = (Numeral.scan d.numeralRules c src).2 := by
    unfold readNumeral
    split <;> simp_all
  rw [hsnd] at hne
  simp only [readNumeral, Numeral.scan_extend _ c src more hne]
  rcases Numeral.scan d.numeralRules c src with ⟨e | n, after⟩ <;> rfl

theorem readToken_extend (hne : (readToken d c src).2.rest ≠ []) :
    readToken d c (src.extend more) = extended more (readToken d c src) := by
  simp only [readToken, src.span_extend _ fun hnil => absurd hnil hne]
  rfl

theorem readCharacter_extend (hne : (readCharacter d src).2.rest ≠ []) :
    readCharacter d (src.extend more) = extended more (readCharacter d src) := by
  have hsrc := (reaches_readCharacter d src).ne_nil hne
  cases hnext : src.next? with
  | none => exact absurd (Source.next?_eq_none hnext) hsrc
  | some p =>
    obtain ⟨first, behind⟩ := p
    have hspan : (behind.span fun c => !d.endsToken c).2.rest ≠ [] := by
      simp only [readCharacter, hnext] at hne
      split at hne <;> exact hne
    simp only [readCharacter, hnext, Source.next?_extend hnext,
      behind.span_extend _ fun hnil => absurd hnil hspan]
    split <;> rfl

theorem readString_extend (hne : (readString src).2.rest ≠ []) :
    readString (src.extend more) = extended more (readString src) := by
  have hscan : (Quoted.scan src.lastPosition src).2.rest ≠ [] := by
    unfold readString at hne
    split at hne <;> simp_all [Source.countLines]
  have hsame := Quoted.scan_extend src.lastPosition src more hscan
  simp only [readString]
  rw [show (src.extend more).lastPosition = src.lastPosition from rfl, hsame]
  rcases Quoted.scan src.lastPosition src with ⟨e | lit, after⟩ <;> rfl

theorem plan_extend_answer (h : plan d c src handler = .answer result) (hne : result.2.rest ≠ []) :
    plan d c (src.extend more) handler = .answer (extended more result) := by
  cases handler with
  | close => cases h; rfl
  | unquote =>
    simp only [plan] at h
    split at h <;> cases h
  | character => cases h; exact congrArg Plan.answer (readCharacter_extend more hne)
  | string => cases h; exact congrArg Plan.answer (readString_extend more hne)
  | comment =>
    cases h
    simp only [plan, src.span_extend _ fun hnil => absurd hnil hne]
    rfl
  | newline => cases h; rfl
  | constant form => cases h; rfl
  | _ => cases h

theorem plan_extend_operand {context : String} {make : Datum → Except Error Reading}
    (h : plan d c src handler = .operand context make inner) (hne : src.rest ≠ []) :
    plan d c (src.extend more) handler = .operand context make (inner.extend more) := by
  cases handler with
  | wrap head => cases h; rfl
  | unquote =>
    cases hnext : src.next? with
    | none => exact absurd (Source.next?_eq_none hnext) hne
    | some p =>
      obtain ⟨mark, behind⟩ := p
      simp only [plan, hnext, Source.next?_extend hnext more] at h ⊢
      split at h
      · rename_i heq
        cases heq
        cases h
        rfl
      · rename_i hmark
        cases h
        have hmark' : mark ≠ '@' := fun heq => hmark behind (by rw [heq])
        simp [hmark']
  | keyword => cases h; rfl
  | discard => cases h; rfl
  | _ => cases h

theorem plan_extend_collection {kind : Collection} (h : plan d c src handler = .collection kind) :
    plan d c (src.extend more) handler = .collection kind := by
  cases handler with
  | collect kind => exact h
  | unquote =>
    simp only [plan] at h
    split at h <;> cases h
  | _ => cases h

theorem withOperand_extend (context : String) (make : Datum → Except Error Reading)
    (inner : Source) (result : Except Error Reading × Source) :
    withOperand (fun _ => extended more result) context make (inner.extend more) =
      extended more (withOperand (fun _ => result) context make inner) := by
  obtain ⟨r, after⟩ := result
  rcases r with e | x | c | _ | _ | ⟨context, pos⟩ <;> rfl

/-- A run that leaves something unread is the same when more text follows. -/
theorem Runs.extend (h : Runs d task src result) (hne : result.2.rest ≠ []) :
    Runs d task (src.extend more) (extended more result) := by
  induction h with
  | finished hnone => exact absurd (Source.next?_eq_none hnone) hne
  | handled hnext htable _ hskip ih =>
    refine .handled (Source.next?_extend hnext more) htable (ih hne) fun after heq => ?_
    exact hskip _ (Prod.ext (Prod.mk.inj heq).1 rfl)
  | skipped hnext htable _ hrun ih ih' =>
    have hmid := hrun.reaches.ne_nil hne
    exact .skipped (Source.next?_extend hnext more) htable (ih hmid) (ih' hne)
  | blank hnext htable hblank _ ih =>
    exact .blank (Source.next?_extend hnext more) htable hblank (ih hne)
  | number hnext htable hblank hstart =>
    have hinner := (reaches_readNumeral d _ _).ne_nil hne
    rw [← readNumeral_extend more hne]
    exact .number (Source.next?_extend hnext more) htable hblank
      (by rwa [Source.peek?_extend hinner])
  | token hnext htable hblank hstart =>
    have hinner := (reaches_readToken d _ _).ne_nil hne
    rw [← readToken_extend more hne]
    exact .token (Source.next?_extend hnext more) htable hblank
      (by rwa [Source.peek?_extend hinner])
  | answer hplan => exact .answer (plan_extend_answer more hplan hne)
  | @operand src inner c handler context make result hplan hrun ih =>
    rw [withOperand_snd] at hne
    have hsrc := ((reaches_operand hplan).trans hrun.reaches).ne_nil hne
    rw [← withOperand_extend]
    exact .operand (plan_extend_operand more hplan hsrc) (ih hne)
  | collection hplan _ ih => exact .collection (plan_extend_collection more hplan) (ih hne)
  | item _ hitems ih ih' => exact .item (ih (hitems.reaches.ne_nil hne)) (ih' hne)
  | last _ hform ih => exact .last (ih hne) hform

theorem read_extend {r : Except Error (Option Datum)} (h : read d src = (r, after))
    (hne : after.rest ≠ []) : read d (src.extend more) = (r, after.extend more) := by
  have hsnd : after = (readForm d src).2 := by rw [← read_snd, h]
  have hrun := (runs_readForm d src).extend more (by rwa [← hsnd])
  have hform : readForm d (src.extend more) = extended more (readForm d src) := runs_iff.mp hrun
  simp only [read, hform] at h ⊢
  clear hsnd hrun hform
  generalize readForm d src = result at h ⊢
  rcases result with ⟨e | x | c | _ | _ | ⟨context, pos⟩, after'⟩ <;> cases h <;> rfl

section

variable {floats : Bool} {layout text : List Char} {x : Datum} {forms : List Datum}

/-- What stands behind layout is read as if it stood alone; the newlines of the layout count. -/
theorem runs_layout (hl : Layout layout) {offset line : Nat}
    (h : Runs (.standard floats) .form
      ⟨text, offset + layout.length, line + layout.count '\n'⟩ result) :
    Runs (.standard floats) .form ⟨layout ++ text, offset, line⟩ result := by
  induction hl generalizing offset line with
  | nil => exact h
  | @blank c layout hc _ ih =>
    rw [List.length_cons, ← Nat.add_assoc, Nat.add_right_comm] at h
    by_cases hn : c = '\n'
    · subst hn
      rw [List.count_cons_self, ← Nat.add_assoc, Nat.add_right_comm line] at h
      exact .skipped rfl rfl (.answer rfl) (ih h)
    · rw [List.count_cons_of_ne hn] at h
      exact .blank rfl (standard_of_blank hc hn) hc (ih h)
  | @comment body layout hbody _ ih =>
    have hskip : Runs (.standard floats) (.handler ';' .comment)
        ⟨body ++ '\n' :: (layout ++ text), offset + 1, line⟩
        (.ok .skip, ⟨'\n' :: (layout ++ text), offset + 1 + body.length, line⟩) :=
      .answer (by rw [plan, span_comment hbody (.inr ⟨_, rfl⟩)])
    have hcount : (';' :: (body ++ '\n' :: layout)).count '\n' = 1 + layout.count '\n' := by
      have hbody' : body.count '\n' = 0 := List.count_eq_zero.mpr fun hmem => hbody _ hmem rfl
      simp [hbody', Nat.add_comm]
    have hlength : (';' :: (body ++ '\n' :: layout)).length =
        1 + body.length + 1 + layout.length := by
      simp only [List.length_cons, List.length_append]
      omega
    rw [hcount, hlength, ← Nat.add_assoc, ← Nat.add_assoc, ← Nat.add_assoc, ← Nat.add_assoc] at h
    rw [List.cons_append, List.append_assoc]
    exact .skipped rfl rfl hskip (.skipped rfl rfl (.answer rfl) (ih h))

/-- A datum in whole lines has something behind it: at least the end of its line. -/
theorem rest_ne_nil_of_lined (h : read (.standard floats) src = (.ok (some x), after))
    (hlined : Lined src.rest) : after.rest ≠ [] ∧ Lined after.rest := by
  obtain ⟨layout, text, openEnded, _, hd, _, hsrc⟩ :=
    formWithin_sound floats _ (read_eq_some_iff.mp h)
  rw [hsrc] at hlined
  refine ⟨fun hnil => ?_, hlined.of_append.of_append⟩
  rw [hnil, List.append_nil] at hlined
  exact (cuttable_of_denotes hd).whole hlined.of_append

/-- Where whole lines hold no further datum, reading goes on with what follows them. -/
theorem read_extend_of_none (h : read (.standard floats) src = (.ok none, after))
    (hlined : Lined src.rest) :
    read (.standard floats) (src.extend more) = read (.standard floats) (after.extend more) := by
  have hlayout := layout_of_eof (Nat.lt_succ_self _) (read_eq_none_iff.mp h)
  have hread : ∀ text, read (.standard floats) (src.extend text) = read (.standard floats)
      ⟨text, src.offset + src.rest.length, src.line + src.rest.count '\n'⟩ := by
    intro text
    have hform : readForm (.standard floats) (src.extend text) = readForm (.standard floats)
        ⟨text, src.offset + src.rest.length, src.line + src.rest.count '\n'⟩ :=
      runs_iff.mp (runs_layout (hlayout.cut hlined.lineEnded).1 (runs_readForm _ _))
    simp only [read, hform]
  have hnil := hread []
  rw [Source.extend, List.append_nil, h, read_nil rfl] at hnil
  obtain ⟨_, rfl⟩ := Prod.mk.inj hnil
  exact hread more

/-- The forms of whole lines are read before those of what follows. -/
theorem Drains.append {r : Except Error (List Datum)} {last : Source}
    (h : Drains (.standard floats) src (.ok forms, after)) (hlined : Lined src.rest)
    (h' : Drains (.standard floats) (after.extend more) (r, last)) :
    Drains (.standard floats) (src.extend more) (r.map (forms ++ ·), last) := by
  generalize hresult : (Except.ok forms, after) = result at h
  induction h generalizing forms with
  | done hread =>
    cases hresult
    have hsame : r.map ([] ++ ·) = r := by cases r <;> rfl
    rw [hsame]
    exact h'.congr (read_extend_of_none more hread hlined)
  | failed => cases hresult
  | @more src mid after' x r' hread _ ih =>
    rcases r' with e | forms' <;> cases hresult
    obtain ⟨hne, hmid⟩ := rest_ne_nil_of_lined hread hlined
    have hcons : r.map (x :: forms' ++ ·) = (r.map (forms' ++ ·)).map (x :: ·) := by
      cases r <;> rfl
    rw [hcons]
    exact .more (read_extend more hread hne) (ih hmid rfl)

theorem Drains.rest_eq_nil (h : Drains d src (.ok forms, after)) : after.rest = [] := by
  generalize hresult : (Except.ok forms, after) = result at h
  induction h generalizing forms with
  | done hread => cases hresult; exact rest_of_read_none hread
  | failed => cases hresult
  | @more src mid after' x r hread _ ih =>
    rcases r with e | forms' <;> cases hresult
    exact ih rfl

theorem Drains.line_pos (h : Drains d (.ofChars text) (.ok forms, after)) : 1 ≤ after.line := by
  -- the same reading with lines counted from zero, one line further on
  have hzero := (drains_readAll d ⟨text, 0, 0⟩).shift 1 0
  have hsame := h.unique hzero
  have hline : after.line = (readAll d ⟨text, 0, 0⟩).2.line + 1 := by
    rw [(Prod.mk.inj hsame).2]
    rfl
  omega

/-- Reading is compositional at the ends of lines. What follows whole lines is read as a text of its
own: its forms come behind those of the lines, or its error is reported as many lines and characters
further on as were counted in the lines. -/
theorem readAll_append (floats : Bool) (text more : List Char) (forms : List Datum) (after : Source)
    (hlined : Lined text) (h : readAll (.standard floats) (.ofChars text) = (.ok forms, after)) :
    (∀ forms', (readAll (.standard floats) (.ofChars more)).1 = .ok forms' →
      (readAll (.standard floats) (.ofChars (text ++ more))).1 = .ok (forms ++ forms')) ∧
    (∀ e, (readAll (.standard floats) (.ofChars more)).1 = .error e →
      (readAll (.standard floats) (.ofChars (text ++ more))).1 =
        .error (e.shift (after.line - 1) text.length)) := by
  have hdrains := drains_iff.mpr h
  have hafter : after.extend more = (Source.ofChars more).shift (after.line - 1) text.length := by
    obtain ⟨taken, htext, hoffset⟩ := hdrains.reaches
    have hnil := hdrains.rest_eq_nil
    have hline := hdrains.line_pos
    dsimp only [Source.ofChars] at htext hoffset hnil
    rw [hnil, List.append_nil] at htext
    simp only [Source.extend, Source.shift, Source.ofChars, hnil, List.nil_append,
      Source.mk.injEq, true_and, htext]
    omega
  have hmore := drains_readAll (.standard floats) (.ofChars more)
  generalize readAll (.standard floats) (.ofChars more) = result at hmore
  obtain ⟨r, last⟩ := result
  have hshift := hmore.shift (after.line - 1) text.length
  rw [← hafter] at hshift
  have hall : readAll (.standard floats) (.ofChars (text ++ more)) = _ :=
    drains_iff.mp (hdrains.append more hlined hshift)
  rw [hall]
  constructor
  · rintro forms' rfl
    rfl
  · rintro e rfl
    rfl

/-- The newline inside the string counts, and so does the one at the end: the delimiter that closes
nothing stands in the third line, behind eight characters. -/
theorem readAll_append_string :
    readAll (.standard false) (.ofChars "a \"\n\"\n".toList) =
        (.ok [.named "a", .string "\n"], ⟨[], 6, 3⟩) ∧
      (readAll (.standard false) (.ofChars "b )".toList)).1 =
        .error (.delimiter none (some ')') ⟨1, 2⟩) ∧
      (readAll (.standard false) (.ofChars "a \"\n\"\nb )".toList)).1 =
        .error (.delimiter none (some ')') ⟨3, 8⟩) := by
  have hlines : readAll (.standard false) (.ofChars "a \"\n\"\n".toList) =
      (.ok [.named "a", .string "\n"], ⟨[], 6, 3⟩) := by rfl
  have hmore : (readAll (.standard false) (.ofChars "b )".toList)).1 =
      .error (.delimiter none (some ')') ⟨1, 2⟩) := by rfl
  have hlined : Lined "a \"\n\"\n".toList := .inr ⟨"a \"\n\"".toList, by decide, by decide⟩
  exact ⟨hlines, hmore,
    (readAll_append false _ "b )".toList _ _ hlined hlines).2 _ hmore⟩

/-- What was read without an error is in the grammar; a newline behind it ends a comment that may
stand last. -/
theorem Drains.items (h : Drains (.standard floats) src (.ok forms, after)) :
    Items (Denotes floats) (src.rest ++ ['\n']) forms := by
  generalize hresult : (Except.ok forms, after) = result at h
  induction h generalizing forms with
  | done hread =>
    cases hresult
    exact .nil (layout_of_eof (Nat.lt_succ_self _) (read_eq_none_iff.mp hread))
  | failed => cases hresult
  | @more src mid after' x r hread _ ih =>
    rcases r with e | forms' <;> cases hresult
    obtain ⟨layout, text, openEnded, hl, hd, hopen, hsrc⟩ :=
      formWithin_sound floats _ (read_eq_some_iff.mp hread)
    have hopen' : openEnded = true → Delimited (mid.rest ++ ['\n']) := by
      intro ho c hc
      cases hmid : mid.rest with
      | nil =>
        rw [hmid] at hc
        cases hc
        rfl
      | cons first tail =>
        rw [hmid] at hc
        exact hopen ho c (by rw [hmid]; exact hc)
    rw [hsrc, List.append_assoc, List.append_assoc]
    exact .cons hl hd hopen' (ih rfl)

/-- An error in whole lines that goes away when more text follows is incomplete, or a form is missing
behind a mark. -/
theorem incomplete_or_missing_of_mended (floats : Bool) (text more : List Char) (e : Error)
    (forms : List Datum) (hended : LineEnded text)
    (he : (readAll (.standard floats) (.ofChars text)).1 = .error e)
    (hmended : (readAll (.standard floats) (.ofChars (text ++ more))).1 = .ok forms) :
    e.isIncomplete = true ∨ ∃ pos context, e = .malformedText pos (.missingForm context) := by
  have hitems : Items (Denotes floats) ((text ++ more) ++ ['\n']) forms :=
    Drains.items (drains_iff.mpr (Prod.ext hmended rfl))
  rw [List.append_assoc] at hitems
  rcases hitems.cut hended with ⟨left, right, _, hleft, _⟩ | ⟨hanging, hstops⟩
  · rw [readAll_items hleft] at he
    cases he
  · obtain ⟨e', he', hrefuses⟩ := readAll_of_stops hstops
    obtain rfl : e = e' := Except.error.inj (he.symm.trans he')
    cases hanging with
    | true => exact .inr hrefuses
    | false => exact .inl hrefuses

/-- A list that is open behind a newline that was escaped. -/
theorem incomplete_or_missing_of_mended_list :
    (readAll (.standard false) (.ofChars "(\\\n".toList)).1 =
        .error (.delimiter (some ')') none ⟨1, 0⟩) ∧
      (readAll (.standard false) (.ofChars "(\\\n)".toList)).1 = .ok [.list [.char '\n']] ∧
      ((Error.delimiter (some ')') none ⟨1, 0⟩).isIncomplete = true ∨
        ∃ pos context, Error.delimiter (some ')') none ⟨1, 0⟩ =
          .malformedText pos (.missingForm context)) := by
  have hfails : (readAll (.standard false) (.ofChars "(\\\n".toList)).1 =
      .error (.delimiter (some ')') none ⟨1, 0⟩) := by rfl
  have hmended : (readAll (.standard false) (.ofChars "(\\\n)".toList)).1 =
      .ok [.list [.char '\n']] := by rfl
  have hended : LineEnded "(\\\n".toList := .inr ⟨"(\\".toList, by decide⟩
  exact ⟨hfails, hmended,
    incomplete_or_missing_of_mended false "(\\\n".toList ")".toList _ _ hended hfails hmended⟩

/-- A quote with its form in the next line: the first line is refused, and not as incomplete. -/
theorem quote_mended_not_incomplete :
    LineEnded "\x27\n".toList ∧
      (readAll (.standard false) (.ofChars "\x27\n".toList)).1 =
        .error (.malformedText ⟨1, 1⟩ (.missingForm "\x27")) ∧
      (readAll (.standard false) (.ofChars "\x27\na".toList)).1 =
        .ok [.form .quote [.named "a"]] ∧
      (Error.malformedText ⟨1, 1⟩ (.missingForm "\x27")).isIncomplete = false :=
  ⟨.inr ⟨"\x27".toList, by decide⟩, by rfl, by rfl, by rfl⟩

end

end TableLisp.Reader

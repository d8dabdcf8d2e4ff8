import TableLisp.Proofs.Reader.Grammar

/-! Every text of the grammar is read as the datum that it denotes, up to its end. One lemma for
each production says that the reader gets past it when the parts can be read; induction over the
derivation puts them together. With soundness this makes the standard reader exact. -/

namespace TableLisp.Reader

/-- The reader finds `d` in `text`, whatever follows that may follow. A text is read within any
bound that exceeds its length. -/
def Reads (floats openEnded : Bool) (text : List Char) (d : Datum) : Prop :=
  ∀ rest bound offset line, (openEnded = true → Delimited rest) → text.length < bound →
    ∃ line', formWithin (.standard floats) bound ⟨text ++ rest, offset, line⟩ =
      (.ok (.form d), ⟨rest, offset + text.length, line'⟩)

/-- The reader collects `items` from `text`, up to a closing delimiter. -/
def Gathers (floats : Bool) (text : List Char) (items : List Datum) : Prop :=
  ∀ kind start acc rest k bound offset line, text.length < k → text.length < bound →
    ∃ line', collect (formWithin (.standard floats) bound) kind start k acc
        ⟨text ++ kind.closer :: rest, offset, line⟩ =
      (reduce kind start (acc.reverse ++ items), ⟨rest, offset + text.length + 1, line'⟩)

section

variable {floats openEnded : Bool} {layout text rest : List Char} {d e : Datum}
  {items : List Datum}

/-- Layout is passed over, at the cost of no more of the bound than its length. -/
theorem formWithin_layout (h : Layout layout) (floats : Bool) (rest : List Char)
    (bound offset line : Nat) (hb : layout.length ≤ bound) :
    ∃ bound' line', bound ≤ bound' + layout.length ∧
      formWithin (.standard floats) bound ⟨layout ++ rest, offset, line⟩ =
        formWithin (.standard floats) bound' ⟨rest, offset + layout.length, line'⟩ := by
  induction h generalizing bound offset line with
  | nil => exact ⟨bound, line, by simp, by simp⟩
  | @blank c layout hc _ ih =>
    obtain ⟨bound, rfl⟩ := Nat.exists_eq_add_one_of_ne_zero (Nat.ne_zero_of_lt hb)
    obtain ⟨line₁, hstep⟩ := formWithin_blank hc floats bound (layout ++ rest) offset line
    simp only [List.length_cons] at hb
    obtain ⟨bound', line', hle, heq⟩ := ih bound (offset + 1) line₁ (by omega)
    refine ⟨bound', line', by simp only [List.length_cons]; omega, ?_⟩
    rw [List.cons_append, hstep, heq, List.length_cons, Nat.add_assoc, Nat.add_comm 1]
  | @comment body layout hbody _ ih =>
    simp only [List.length_cons, List.length_append] at hb
    obtain ⟨bound, rfl⟩ : ∃ b, bound = b + 1 + 1 := ⟨bound - 2, by omega⟩
    obtain ⟨bound', line', hle, heq⟩ :=
      ih bound (offset + 1 + body.length + 1) (line + 1) (by omega)
    refine ⟨bound', line', by simp only [List.length_cons, List.length_append]; omega, ?_⟩
    have hsplit : ';' :: (body ++ '\n' :: layout) ++ rest =
        ';' :: (body ++ '\n' :: (layout ++ rest)) := by simp
    have hoffset : offset + 1 + body.length + 1 + layout.length =
        offset + (';' :: (body ++ '\n' :: layout)).length := by
      simp only [List.length_cons, List.length_append]
      omega
    rw [hsplit, formWithin_comment hbody (.inr ⟨_, rfl⟩), formWithin_newline, heq, hoffset]

theorem Reads.behind (h : Reads floats openEnded text d) (hl : Layout layout) :
    Reads floats openEnded (layout ++ text) d := by
  intro rest bound offset line hopen hb
  rw [List.length_append] at hb
  obtain ⟨bound', line₁, hle, heq⟩ :=
    formWithin_layout hl floats (text ++ rest) bound offset line (by omega)
  obtain ⟨line', hread⟩ := h rest bound' (offset + layout.length) line₁ hopen (by omega)
  refine ⟨line', ?_⟩
  rw [List.append_assoc, heq, hread, List.length_append, Nat.add_assoc]

theorem formWithin_free {c : Char} (h : isDelimiter c = false) (bound : Nat) (more : List Char)
    (offset line : Nat) :
    formWithin (.standard floats) (bound + 1) ⟨c :: more, offset, line⟩ =
      if Text.startsNumber c more.head? then
        readNumeral (.standard floats) c ⟨more, offset + 1, line⟩
      else readToken (.standard floats) c ⟨more, offset + 1, line⟩ := by
  obtain ⟨hblank, hbound⟩ := Bool.or_eq_false_iff.mp h
  have hnone : (Dialect.standard floats).table c = none := standard_none_iff.mpr hbound
  rw [formWithin]
  simp only [Source.next?, hnone, hblank, Bool.false_eq_true, if_false, Source.peek?]
  rfl

theorem formWithin_handler {c : Char} {handler : Handler} {more : List Char}
    {bound offset line : Nat} {after : Source} (ht : ReadTable.standard c = some handler)
    (h : handle (.standard floats) (formWithin (.standard floats) bound) bound c
      ⟨more, offset + 1, line⟩ handler = (.ok (.form d), after)) :
    formWithin (.standard floats) (bound + 1) ⟨c :: more, offset, line⟩ =
      (.ok (.form d), after) := by
  have hsome : (Dialect.standard floats).table c = some handler := ht
  rw [formWithin]
  simp only [Source.next?, hsome, h]

theorem not_decimal_of_delimiter {c : Char} (h : isDelimiter c = true) :
    Text.isDecimal c = false := by
  simp [Text.isDecimal, Text.isDigitOf, Text.digitValue?, hexValue?_of_isDelimiter h]

theorem span_free {run : List Char} (hrun : ∀ c ∈ run, isDelimiter c = false)
    (hrest : Delimited rest) (floats : Bool) (offset line : Nat) :
    Source.span (fun c => !(Dialect.standard floats).endsToken c) ⟨run ++ rest, offset, line⟩ =
      (run, ⟨rest, offset + run.length, line⟩) := by
  apply Source.span_append
  · intro c hc
    simp [endsToken_standard, hrun c hc]
  · intro c hc
    simp [endsToken_standard, hrest c hc]

theorem reads_token (ht : Token text) : Reads floats true text (ofToken text) := by
  intro rest bound offset line hopen hb
  obtain ⟨first, more, rfl⟩ := List.exists_cons_of_ne_nil ht.ne_nil
  obtain ⟨bound, rfl⟩ := Nat.exists_eq_add_one_of_ne_zero (Nat.ne_zero_of_lt hb)
  have hfree := ht.free first (by simp)
  have hstart : Text.startsNumber first (more ++ rest).head? = false := by
    have hnumber := ht.not_number first more rfl
    cases more with
    | cons c tail => exact hnumber
    | nil =>
      simp only [Text.startsNumber, Bool.or_eq_false_iff] at hnumber ⊢
      refine ⟨hnumber.1, ?_⟩
      cases hhead : rest.head? with
      | none => simp [hhead]
      | some c => simp [hhead, not_decimal_of_delimiter (hopen rfl c hhead)]
  have hmore : ∀ c ∈ more, isDelimiter c = false := fun c hc => ht.free c (by simp [hc])
  have hspan := span_free hmore (hopen rfl) floats (offset + 1) line
  refine ⟨line, ?_⟩
  have hoffset : offset + 1 + more.length = offset + (first :: more).length := by
    rw [List.length_cons]
    omega
  rw [List.cons_append, formWithin_free hfree, hstart]
  simp only [Bool.false_eq_true, if_false, readToken, hspan, hoffset]

theorem ofToken_symbol (hnil : text ≠ "nil".toList) (htrue : text ≠ "true".toList)
    (hfalse : text ≠ "false".toList) : ofToken text = .symbol (.ofName (String.ofList text)) := by
  have hne : ∀ name : String, text ≠ name.toList → String.ofList text ≠ name := by
    rintro name h rfl
    exact h String.toList_ofList.symm
  unfold ofToken
  split
  · rename_i h; exact absurd h (hne _ hnil)
  · rename_i h; exact absurd h (hne _ htrue)
  · rename_i h; exact absurd h (hne _ hfalse)
  · rfl

theorem keywordOf_ofToken (start : Position) (text : List Char) :
    keywordOf start (ofToken text) = .ok (.form (.keyword (String.ofList text))) := by
  unfold ofToken
  split
  · rename_i h; rw [h]; rfl
  · rename_i h; rw [h]; rfl
  · rename_i h; rw [h]; rfl
  · simp [Datum.named, keywordOf, Symbol.name_ofName]

theorem startsNumber_of_spelled {n : Numeral} {first : Char} {run : List Char}
    (h : Numeral.Spelled floats (first :: run) n) :
    Text.startsNumber first (run ++ rest).head? = true := by
  have hsigned : ∀ {negative}, Numeral.Unsigned floats negative run n →
      (first = '+' ∨ first = '-') → Text.startsNumber first (run ++ rest).head? = true := by
    intro negative hrun hsign
    obtain ⟨c, tail, rfl⟩ := List.exists_cons_of_ne_nil hrun.ne_nil
    rcases hsign with rfl | rfl <;> simp [Text.startsNumber, hrun.first]
  generalize htext : first :: run = text at h
  cases h with
  | unsigned hunsigned =>
    subst htext
    simp [Text.startsNumber, hunsigned.first]
  | plus hunsigned => cases htext; exact hsigned hunsigned (.inl rfl)
  | minus hunsigned => cases htext; exact hsigned hunsigned (.inr rfl)

theorem not_delimiter_of_startsNumber {c : Char} {next : Option Char}
    (h : Text.startsNumber c next = true) : isDelimiter c = false := by
  cases hc : isDelimiter c with
  | false => rfl
  | true =>
    simp only [Text.startsNumber, not_decimal_of_delimiter hc, Bool.false_or, Bool.and_eq_true,
      Bool.or_eq_true, beq_iff_eq] at h
    rcases h.1 with rfl | rfl <;> exact absurd hc (by decide)

theorem reads_number (hd : Numeral.Literal floats text d) : Reads floats true text d := by
  intro rest bound offset line hopen hb
  obtain ⟨n, h, rfl⟩ := Numeral.literal_iff.mp hd
  obtain ⟨first, run, rfl⟩ := List.exists_cons_of_ne_nil h.ne_nil
  obtain ⟨bound, rfl⟩ := Nat.exists_eq_add_one_of_ne_zero (Nat.ne_zero_of_lt hb)
  have hstart : Text.startsNumber first (run ++ rest).head? = true := startsNumber_of_spelled h
  have hends : (Dialect.standard floats).numeralRules.Ends rest := fun c hc =>
    (endsToken_standard floats c).trans (hopen rfl c hc)
  have hscan := Numeral.scan_complete (proper_standard floats) hends h (offset + 1) line
  refine ⟨line, ?_⟩
  have hoffset : offset + 1 + run.length = offset + (first :: run).length := by
    rw [List.length_cons]
    omega
  rw [List.cons_append, formWithin_free (not_delimiter_of_startsNumber hstart), hstart]
  simp only [if_true, readNumeral, hscan, hoffset]

theorem reads_character {first : Char} {more : List Char} {c : Char}
    (hfree : ∀ d ∈ more, isDelimiter d = false) (hc : CharLiteral (first :: more) c) :
    Reads floats true ('\\' :: first :: more) (.char c) := by
  intro rest bound offset line hopen hb
  obtain ⟨bound, rfl⟩ := Nat.exists_eq_add_one_of_ne_zero (Nat.ne_zero_of_lt hb)
  have hspan := span_free hfree (hopen rfl) floats (offset + 1 + 1) line
  refine ⟨line, formWithin_handler rfl ?_⟩
  have hoffset : offset + 1 + 1 + more.length = offset + ('\\' :: first :: more).length := by
    simp only [List.length_cons]
    omega
  simp only [handle, readCharacter, Source.next?, List.append_eq, List.cons_append, hspan,
    decodeChar?_eq_some_iff.mpr hc, hoffset]

theorem reads_string {body : List Char} (h : Quoted.Spells body text) :
    Reads floats false ('"' :: (body ++ ['"'])) (.string (String.ofList text)) := by
  intro rest bound offset line _ hb
  obtain ⟨bound, rfl⟩ := Nat.exists_eq_add_one_of_ne_zero (Nat.ne_zero_of_lt hb)
  refine ⟨line + body.count '\n', ?_⟩
  rw [List.cons_append, List.append_assoc]
  apply formWithin_handler rfl
  have hoffset : offset + 1 + body.length + 1 = offset + ('"' :: (body ++ ['"'])).length := by
    simp only [List.length_cons, List.length_append, List.length_nil]
    omega
  simp [handle, readString, Quoted.scan, Quoted.scanFrom_of_spells h, hoffset, Source.countLines]

theorem withOperand_form {next : ReadStep} {context : String}
    {make : Datum → Except Error Reading} {src after : Source}
    (h : next src = (.ok (.form d), after)) :
    withOperand next context make src = (make d, after) := by
  simp only [withOperand, operand, h]

/-- A mark that makes a form of what is read behind it; `tail` is what the mark has behind its first
character. -/
theorem reads_marked {c : Char} (tail : List Char) {handler : Handler} (context : String)
    (make : Position → Datum → Except Error Reading) (ht : ReadTable.standard c = some handler)
    (hhandle : ∀ next k rest offset line,
      handle (.standard floats) next k c ⟨tail ++ (text ++ rest), offset, line⟩ handler =
        withOperand next context (make ⟨line, offset - 1⟩)
          ⟨text ++ rest, offset + tail.length, line⟩)
    (hmake : ∀ start, make start d = .ok (.form e)) (h : Reads floats openEnded text d) :
    Reads floats openEnded (c :: (tail ++ text)) e := by
  intro rest bound offset line hopen hb
  obtain ⟨bound, rfl⟩ := Nat.exists_eq_add_one_of_ne_zero (Nat.ne_zero_of_lt hb)
  simp only [List.length_cons, List.length_append, Nat.add_lt_add_iff_right] at hb
  obtain ⟨line', hread⟩ := h rest bound (offset + 1 + tail.length) line hopen (by omega)
  refine ⟨line', ?_⟩
  rw [List.cons_append, List.append_assoc]
  apply formWithin_handler ht
  rw [hhandle, withOperand_form hread, hmake]
  simp only [List.length_cons, List.length_append, Prod.mk.injEq, true_and, Source.mk.injEq,
    and_true]
  omega

theorem reads_wrapped {c : Char} {head : SpecialForm}
    (ht : ReadTable.standard c = some (.wrap head.name)) (h : Reads floats openEnded text d) :
    Reads floats openEnded (c :: text) (.form head [d]) := by
  exact reads_marked [] c.toString (fun _ => wrapped head.name) ht (fun _ _ _ _ _ => rfl)
    (fun _ => wrapped_name head d) h

theorem reads_unquote (hne : text ≠ []) (hhead : text.head? ≠ some '@')
    (h : Reads floats openEnded text d) :
    Reads floats openEnded ('~' :: text) (.form .unquote [d]) := by
  refine reads_marked [] "~" (fun _ => wrapped SpecialForm.unquote.name) rfl ?_
    (fun _ => wrapped_name .unquote d) h
  intro next k rest offset line
  obtain ⟨c, more, rfl⟩ := List.exists_cons_of_ne_nil hne
  have hc : c ≠ '@' := by simpa using hhead
  simp [handle, Source.next?, hc, SpecialForm.name]

theorem reads_spliceUnquote (h : Reads floats openEnded text d) :
    Reads floats openEnded ('~' :: '@' :: text) (.form .spliceUnquote [d]) :=
  reads_marked ['@'] "~@" (fun _ => wrapped SpecialForm.spliceUnquote.name) rfl
    (fun _ _ _ _ _ => rfl) (fun _ => wrapped_name .spliceUnquote d) h

theorem reads_keyword {name : String} (h : Reads floats openEnded text d)
    (hname : ∀ start, keywordOf start d = .ok (.form (.keyword name))) :
    Reads floats openEnded (':' :: text) (.keyword name) :=
  reads_marked [] ":" keywordOf rfl (fun _ _ _ _ _ => rfl) hname h

theorem reads_collection (kind : Collection) (h : Gathers floats text items)
    (hreduce : ∀ start, reduce kind start items = .ok (.form d)) :
    Reads floats false (kind.opener :: (text ++ [kind.closer])) d := by
  intro rest bound offset line _ hb
  obtain ⟨bound, rfl⟩ := Nat.exists_eq_add_one_of_ne_zero (Nat.ne_zero_of_lt hb)
  simp only [List.length_cons, List.length_append] at hb
  obtain ⟨line', hcollect⟩ := h kind ⟨line, offset⟩ [] rest bound bound (offset + 1) line
    (by omega) (by omega)
  refine ⟨line', ?_⟩
  have htable : ReadTable.standard kind.opener = some (.collect kind) := by cases kind <;> rfl
  rw [List.cons_append, List.append_assoc]
  apply formWithin_handler htable
  rw [List.reverse_nil, List.nil_append, hreduce] at hcollect
  simp only [handle, Source.lastPosition, Nat.add_sub_cancel, List.singleton_append, hcollect]
  simp only [List.length_cons, List.length_append, List.length_nil, Prod.mk.injEq, true_and,
    Source.mk.injEq, and_true]
  omega

theorem formWithin_closer (kind : Collection) (bound : Nat) (rest : List Char)
    (offset line : Nat) :
    formWithin (.standard floats) (bound + 1) ⟨kind.closer :: rest, offset, line⟩ =
      (.ok (.close kind.closer), ⟨rest, offset + 1, line⟩) := by
  cases kind <;> rfl

theorem gathers_nil (hl : Layout layout) : Gathers floats layout [] := by
  intro kind start acc rest k bound offset line hk hb
  obtain ⟨k, rfl⟩ := Nat.exists_eq_add_one_of_ne_zero (Nat.ne_zero_of_lt hk)
  obtain ⟨bound', line', hle, heq⟩ :=
    formWithin_layout hl floats (kind.closer :: rest) bound offset line (by omega)
  obtain ⟨bound', rfl⟩ : ∃ b, bound' = b + 1 := ⟨bound' - 1, by omega⟩
  rw [formWithin_closer] at heq
  refine ⟨line', ?_⟩
  simp [collect, heq]

theorem gathers_cons (hl : Layout layout) (hne : text ≠ []) (hd : Reads floats openEnded text d)
    (hopen : openEnded = true → Delimited rest) (hitems : Gathers floats rest items) :
    Gathers floats (layout ++ (text ++ rest)) (d :: items) := by
  intro kind start acc rest' k bound offset line hk hb
  have hpos : 0 < text.length := List.length_pos_iff.mpr hne
  obtain ⟨k, rfl⟩ := Nat.exists_eq_add_one_of_ne_zero (Nat.ne_zero_of_lt hk)
  simp only [List.length_append] at hk hb
  -- what closes the collection is itself a delimiter, so the last item may have an open end
  have hdelimited : openEnded = true → Delimited (rest ++ kind.closer :: rest') := by
    intro ho
    cases rest with
    | cons c more => exact delimited_cons (hopen ho c rfl)
    | nil => exact delimited_cons (by cases kind <;> decide)
  obtain ⟨line₁, hread⟩ := (hd.behind hl) (rest ++ kind.closer :: rest') bound offset line
    hdelimited (by rw [List.length_append]; omega)
  obtain ⟨line', hcollect⟩ := hitems kind start (d :: acc) rest' k bound
    (offset + (layout ++ text).length) line₁ (by omega) (by omega)
  refine ⟨line', ?_⟩
  have hsplit : layout ++ (text ++ rest) ++ kind.closer :: rest' =
      layout ++ text ++ (rest ++ kind.closer :: rest') := by simp
  have hoffset : offset + (layout ++ text).length + rest.length + 1 =
      offset + (layout ++ (text ++ rest)).length + 1 := by
    simp only [List.length_append]
    omega
  rw [collect, hsplit, hread]
  simp only [hcollect, hoffset, List.reverse_cons, List.append_assoc, List.singleton_append]

theorem Denotes.ne_nil (h : Denotes floats openEnded text d) : text ≠ [] := by
  cases h with
  | bool b => cases b <;> decide
  | symbol ht _ _ _ _ _ => exact ht.ne_nil
  | number hn =>
    obtain ⟨n, hspelled, _⟩ := Numeral.literal_iff.mp hn
    exact hspelled.ne_nil
  | _ => simp

/-- Every text of the grammar is read as what it denotes. -/
theorem reads_of_denotes (h : Denotes floats openEnded text d) :
    Reads floats openEnded text d := by
  refine @Denotes.rec floats (fun openEnded text d _ => Reads floats openEnded text d)
    (fun text items _ => Gathers floats text items)
    ?nil ?bool ?symbol ?number ?character ?string ?keyword ?quotedKeyword ?list ?vector ?map
    ?quote ?quasiquote ?unquote ?spliceUnquote ?none ?more _ _ _ h
  case nil => exact reads_token token_nil
  case bool =>
    intro b
    have hread : Reads floats true _ _ := reads_token (token_bool b)
    cases b <;> exact hread
  case symbol =>
    intro text s ht hnil htrue hfalse hname hspecial
    rw [eq_ofName_of_special_iff hspecial, ← String.ofList_toList (s := s.name), hname,
      ← ofToken_symbol hnil htrue hfalse]
    exact reads_token ht
  case number => exact reads_number
  case character => exact reads_character
  case string => exact reads_string
  case keyword =>
    intro layout text hl ht
    exact reads_keyword ((reads_token ht).behind hl) fun start => keywordOf_ofToken start text
  case quotedKeyword =>
    intro layout body text hl hspells hid
    refine reads_keyword ((reads_string hspells).behind hl) fun start => ?_
    simp [keywordOf, hid]
  case list => exact fun _ ih => reads_collection .list ih fun _ => rfl
  case vector => exact fun _ ih => reads_collection .vector ih fun _ => rfl
  case map =>
    intro text items entries hitems hentries ih
    obtain ⟨heven, rfl⟩ := (Entries.literal_iff hitems.fixed).mp hentries
    exact reads_collection .map ih fun _ => by simp [reduce, heven, Datum.ofPairs]
  case quote => exact fun hl _ ih => reads_wrapped rfl (ih.behind hl)
  case quasiquote => exact fun hl _ ih => reads_wrapped rfl (ih.behind hl)
  case unquote =>
    intro openEnded layout text d hl hd hhead ih
    exact reads_unquote (by simp [hd.ne_nil]) hhead (ih.behind hl)
  case spliceUnquote => exact fun hl _ ih => reads_spliceUnquote (ih.behind hl)
  case none => exact gathers_nil
  case more => exact fun hl hd hopen _ ih ihs => gathers_cons hl hd.ne_nil ih hopen ihs

/-- A text that a newline would make layout holds no datum. -/
theorem eof_of_layout (h : Layout (text ++ ['\n'])) (floats : Bool) (bound offset line : Nat)
    (hb : text.length < bound) :
    ∃ after, formWithin (.standard floats) bound ⟨text, offset, line⟩ = (.ok .eof, after) := by
  induction bound generalizing text offset line with
  | zero => cases hb
  | succ bound ih =>
    generalize htext : text ++ ['\n'] = whole at h
    cases text with
    | nil => exact ⟨_, formWithin_nil _ _ _⟩
    | cons c inner =>
      simp only [List.length_cons, Nat.add_lt_add_iff_right] at hb
      cases h with
      | nil => cases htext
      | blank hc hl =>
        cases htext
        obtain ⟨line', hstep⟩ := formWithin_blank hc floats bound inner offset line
        rw [hstep]
        exact ih hl (offset + 1) line' hb
      | @comment body layout hbody hl =>
        obtain ⟨rfl, hinner⟩ := List.cons.inj htext
        rcases List.eq_nil_or_concat layout with rfl | ⟨layout, last, rfl⟩
        · obtain ⟨rfl, _⟩ := List.append_inj' hinner rfl
          rw [← List.append_nil inner, formWithin_comment hbody (.inl rfl)]
          exact ⟨_, formWithin_nil _ _ _⟩
        · have hsplit : inner ++ ['\n'] = (body ++ '\n' :: layout) ++ [last] :=
            hinner.trans (by simp)
          obtain ⟨rfl, hlast⟩ := List.append_inj' hsplit rfl
          cases hlast
          rw [formWithin_comment hbody (.inr ⟨_, rfl⟩)]
          exact ih (.blank (by decide) (by simpa using hl)) _ _
            (by simp only [List.length_append] at hb ⊢; omega)

theorem read_eq_some_iff {after : Source} {src : Source} :
    read (.standard floats) src = (.ok (some d), after) ↔
      readForm (.standard floats) src = (.ok (.form d), after) := by
  unfold read
  split <;> simp_all

theorem read_eq_none_iff {after : Source} {src : Source} :
    read (.standard floats) src = (.ok none, after) ↔
      readForm (.standard floats) src = (.ok .eof, after) := by
  have hskip : ∀ after', readForm (.standard floats) src ≠ (.ok .skip, after') := by
    intro after' h
    exact formWithin_sound floats _ h
  unfold read
  split <;> simp_all

end

/-- The standard reader accepts exactly its grammar. It gives a datum and leaves `rest` if and only
if the text is layout, a text that denotes the datum, and `rest`, with a delimiter or nothing behind
an open end. It gives no datum if and only if there is layout alone, up to a last comment. -/
theorem read_accepts_grammar (floats : Bool) (text : List Char) :
    (∀ d rest, (∃ after, read (.standard floats) (.ofChars text) = (.ok (some d), after) ∧
        after.rest = rest) ↔
      ∃ layout body openEnded, text = layout ++ body ++ rest ∧ Layout layout ∧
        Denotes floats openEnded body d ∧ (openEnded = true → Delimited rest)) ∧
    ((∃ after, read (.standard floats) (.ofChars text) = (.ok none, after)) ↔
      Layout (text ++ ['\n'])) := by
  refine ⟨fun d rest => ⟨?_, ?_⟩, ?_, ?_⟩
  · rintro ⟨after, hread, rfl⟩
    obtain ⟨layout, body, openEnded, hl, hd, hopen, htext⟩ :=
      formWithin_sound floats _ (read_eq_some_iff.mp hread)
    exact ⟨layout, body, openEnded, by rw [List.append_assoc, ← htext]; rfl, hl, hd, hopen⟩
  · rintro ⟨layout, body, openEnded, rfl, hl, hd, hopen⟩
    obtain ⟨line', hread⟩ := (reads_of_denotes hd).behind hl rest
      ((layout ++ body ++ rest).length + 1) 0 1 hopen (by simp only [List.length_append]; omega)
    exact ⟨_, read_eq_some_iff.mpr hread, rfl⟩
  · rintro ⟨after, hread⟩
    have heof := read_eq_none_iff.mp hread
    exact layout_of_eof (Nat.lt_succ_self _) heof
  · intro hl
    obtain ⟨after, heof⟩ := eof_of_layout hl floats (text.length + 1) 0 1 (Nat.lt_succ_self _)
    exact ⟨after, read_eq_none_iff.mpr heof⟩

/-- A map behind a space and in front of a parenthesis. The key that comes twice keeps its place and
has the second value; the others are an integer in another radix, one without bound and a float. -/
theorem read_accepts_grammar_map :
    let text := " \x7b :a nil 0o17 -2.5 :a 12n\x7d)".toList
    let d : Datum := .map [(.keyword "a", .big 12), (.int 15, .float ⟨0xC004000000000000⟩)]
    ∃ after, read (.standard false) (.ofChars text) = (.ok (some d), after) ∧
      after.rest = [')'] := by
  have hkeyword : Denotes false true [':', 'a'] (.keyword (String.ofList ['a'])) :=
    .keyword .nil (by decide)
  have hoctal : Numeral.Literal false ['0', 'o', '1', '7'] (.int 15) := by
    have hdigits : ['1', '7'] ∈ Numeral.Grammar.digits 8 :=
      Numeral.Grammar.mem_run.mpr ⟨by simp, List.all_eq_true.mp (by decide)⟩
    have hvalue : Text.Positional 8 ['1', '7'] 15 :=
      ⟨[1, 7], by simp [Text.digitValues], by decide⟩
    exact .int (Numeral.Grammar.mem_sign.mpr (.inl rfl)) (.marked (by decide) hdigits) hvalue
      (by simp) (by decide)
  have hlong : Numeral.Literal false ['1', '2', 'n'] (.big 12) := by
    have hdigits : ['1', '2'] ∈ Numeral.Grammar.digits 10 :=
      Numeral.Grammar.mem_run.mpr ⟨by simp, List.all_eq_true.mp (by decide)⟩
    have hvalue : Text.Positional 10 ['1', '2'] 12 :=
      ⟨[1, 2], by simp [Text.digitValues], by decide⟩
    exact .long (Numeral.Grammar.mem_sign.mpr (.inl rfl)) (.decimal hdigits (by simp)) hvalue
  have hfloat : Numeral.Literal false ['-', '2', '.', '5'] (.float ⟨0xC004000000000000⟩) := by
    have hvalue : Text.Positional 10 ['2', '5'] 25 :=
      ⟨[2, 5], by simp [Text.digitValues], by decide⟩
    have hfraction : Numeral.Fraction ['.', '5'] ['5'] :=
      .present (List.all_eq_true.mp (by decide))
    have hbody : ['2', '.', '5'] ∈ Numeral.Grammar.floating :=
      Numeral.Grammar.mem_floating.mpr
        ⟨['2'], ['.', '5'], ['5'], [], 0, by simp, List.all_eq_true.mp (by decide), hfraction,
          .absent, by simp, rfl⟩
    have hdecimal : Numeral.DecimalText ['2', '.', '5'] 25 (-1) :=
      .mk (by decide : ['2'] ≠ []) hfraction .absent hvalue
    have hnearest := (Binary64.ofDecimal_spec 25 (-1)).1
    have hrounded : (Binary64.ofDecimal 25 (-1)).magnitude =
        (⟨0xC004000000000000⟩ : Binary64).magnitude := by decide
    rw [hrounded] at hnearest
    exact .float (Numeral.Grammar.mem_sign.mpr (.inr (.inr rfl))) (.inl hbody) hdecimal (by decide)
      hnearest
  have hitem : ∀ {text rest : List Char} {item : Datum} {items : List Datum},
      Denotes false true text item → Delimited rest → Items (Denotes false) rest items →
      Items (Denotes false) (' ' :: (text ++ rest)) (item :: items) := fun hd hrest hitems =>
    .cons (.blank (by decide) .nil) hd (fun _ => hrest) hitems
  have hspace : ∀ {rest : List Char}, Delimited (' ' :: rest) := delimited_cons (by decide)
  have hitems : Items (Denotes false) " :a nil 0o17 -2.5 :a 12n".toList
      [.keyword "a", .nil, .int 15, .float ⟨0xC004000000000000⟩, .keyword "a", .big 12] :=
    hitem hkeyword hspace <| hitem .nil hspace <| hitem (.number hoctal) hspace <|
      hitem (.number hfloat) hspace <| hitem hkeyword hspace <| hitem (.number hlong)
        (by simp [Delimited]) (.nil .nil)
  have hentries : Entries.Literal
      [.keyword "a", .nil, .int 15, .float ⟨0xC004000000000000⟩, .keyword "a", .big 12]
      [(.keyword "a", .big 12), (.int 15, .float ⟨0xC004000000000000⟩)] := by
    have hdiffer : ¬ Datum.Same (.int 15) (.keyword "a") := fun h => by cases h
    have hfirst : Entries.Literal [.keyword "a", .nil] [(.keyword "a", .nil)] :=
      .fresh .nil (by simp)
    have hboth : Entries.Literal [.keyword "a", .nil, .int 15, .float ⟨0xC004000000000000⟩]
        ([] ++ (.keyword "a", .nil) :: [(.int 15, .float ⟨0xC004000000000000⟩)]) :=
      .fresh hfirst (by simpa using hdiffer)
    exact hboth.again (.atom rfl)
  intro text d
  exact ((read_accepts_grammar false text).1 d [')']).mpr
    ⟨[' '], _, false, rfl, .blank (by decide) .nil, .map hitems hentries, by simp⟩

end TableLisp.Reader

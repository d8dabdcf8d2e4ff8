import TableLisp.Proofs.Reader.Completeness

/-! Texts that are cut at the end of a line. The data of such a text fall to the one side or the
other, or the cut goes through one of them. In that case the reader says of the first part that
it is incomplete, or that a form is missing where a mark waits for one. A newline behind a backslash
may itself be a character literal; lines that end so are left out where a datum has to have something
behind it. -/

namespace TableLisp.Reader

/-- Nothing, or whole lines. -/
def LineEnded (text : List Char) : Prop := text = [] ∨ ∃ body, text = body ++ ['\n']

/-- Nothing, or whole lines of which the last does not end in a backslash. -/
def Lined (text : List Char) : Prop :=
  text = [] ∨ ∃ body, text = body ++ ['\n'] ∧ body.getLast? ≠ some '\\'

section

variable {text before after : List Char} {c : Char}

theorem LineEnded.of_append (h : LineEnded (before ++ after)) : LineEnded after := by
  rcases h with hnil | ⟨body, hbody⟩
  · exact .inl (List.append_eq_nil_iff.mp hnil).2
  · rcases List.eq_nil_or_concat after with rfl | ⟨init, last, rfl⟩
    · exact .inl rfl
    · rw [List.concat_eq_append, ← List.append_assoc] at hbody
      obtain ⟨_, hlast⟩ := List.append_inj' hbody rfl
      exact .inr ⟨init, by rw [List.concat_eq_append, hlast]⟩

theorem LineEnded.of_cons (h : LineEnded (c :: text)) : LineEnded text := by
  have hsplit : LineEnded ([c] ++ text) := h
  exact hsplit.of_append

theorem LineEnded.newline_mem (h : LineEnded text) (hne : text ≠ []) : '\n' ∈ text := by
  rcases h with rfl | ⟨body, rfl⟩
  · exact absurd rfl hne
  · simp

theorem not_lineEnded_concat (hc : c ≠ '\n') : ¬ LineEnded (text ++ [c]) := by
  intro h
  have hmem := h.of_append.newline_mem (by simp)
  exact hc (List.mem_singleton.mp hmem).symm

/-- A first part that ends a line cannot end before the first newline does. -/
theorem LineEnded.reaches {run rest more : List Char} (h : LineEnded before) (hne : before ≠ [])
    (hrun : '\n' ∉ run) (heq : run ++ rest = before ++ more) :
    ∃ tail, before = run ++ tail ∧ rest = tail ++ more ∧ LineEnded tail ∧ tail ≠ [] := by
  rcases List.append_eq_append_iff.mp heq with ⟨tail, rfl, rfl⟩ | ⟨tail, rfl, _⟩
  · refine ⟨tail, rfl, rfl, h.of_append, ?_⟩
    rintro rfl
    rw [List.append_nil] at h hne
    exact hrun (h.newline_mem hne)
  · exact absurd (List.mem_append_left tail (h.newline_mem hne)) hrun

/-- Between an opening and a closing character, which are no newlines. -/
theorem LineEnded.inside {first last : Char} {inner more : List Char} (h : LineEnded before)
    (hne : before ≠ []) (hfirst : first ≠ '\n') (hlast : last ≠ '\n')
    (heq : first :: (inner ++ [last]) = before ++ more) :
    ∃ left right, before = first :: left ∧ inner = left ++ right ∧ LineEnded left := by
  have hrun : '\n' ∉ [first] := by simp [hfirst.symm]
  obtain ⟨left, rfl, hinner, hleft, _⟩ := h.reaches hne hrun heq
  rcases List.append_eq_append_iff.mp hinner with ⟨tail, rfl, htail⟩ | ⟨right, rfl, _⟩
  · rcases tail with _ | ⟨c, tail⟩
    · exact ⟨inner, [], by simp, by simp, by simpa using hleft⟩
    · obtain ⟨rfl, hnil⟩ := List.cons.inj htail
      obtain ⟨rfl, _⟩ := List.append_eq_nil_iff.mp hnil.symm
      exact absurd hleft (not_lineEnded_concat hlast)
  · exact ⟨left, right, rfl, rfl, hleft⟩

theorem Lined.lineEnded (h : Lined text) : LineEnded text :=
  h.imp_right fun ⟨body, hbody, _⟩ => ⟨body, hbody⟩

theorem Lined.of_append (h : Lined (before ++ after)) : Lined after := by
  rcases h with hnil | ⟨body, hbody, hlast⟩
  · exact .inl (List.append_eq_nil_iff.mp hnil).2
  · rcases List.eq_nil_or_concat after with rfl | ⟨init, last, rfl⟩
    · exact .inl rfl
    · rw [List.concat_eq_append, ← List.append_assoc] at hbody
      obtain ⟨rfl, hend⟩ := List.append_inj' hbody rfl
      refine .inr ⟨init, by rw [List.concat_eq_append, hend], fun hinit => hlast ?_⟩
      rw [List.getLast?_append, hinit]
      rfl

theorem Lined.of_cons (h : Lined (c :: text)) : Lined text := by
  have hsplit : Lined ([c] ++ text) := h
  exact hsplit.of_append

theorem Lined.append (h : Lined before) (h' : Lined after) : Lined (before ++ after) := by
  rcases h' with rfl | ⟨body, rfl, hlast⟩
  · rwa [List.append_nil]
  · refine .inr ⟨before ++ body, by rw [List.append_assoc], ?_⟩
    rcases List.eq_nil_or_concat body with rfl | ⟨init, last, rfl⟩
    · rw [List.append_nil]
      rcases h with rfl | ⟨body', rfl, _⟩
      · simp
      · simp
    · rw [List.concat_eq_append] at hlast ⊢
      rwa [← List.append_assoc, List.getLast?_concat, ← List.getLast?_concat]

theorem not_lined_concat (hc : c ≠ '\n') : ¬ Lined (text ++ [c]) :=
  fun h => not_lineEnded_concat hc h.lineEnded

theorem not_lined_of_not_mem (hmem : '\n' ∉ text) (hne : text ≠ []) : ¬ Lined text :=
  fun h => hmem (h.lineEnded.newline_mem hne)

theorem Layout.cut (h : Layout (before ++ after)) (hended : LineEnded before) :
    Layout before ∧ Layout after := by
  generalize htext : before ++ after = text at h
  induction h generalizing before with
  | nil =>
    obtain ⟨rfl, rfl⟩ := List.append_eq_nil_iff.mp htext
    exact ⟨.nil, .nil⟩
  | @blank c layout hc hl ih =>
    cases before with
    | nil =>
      subst htext
      exact ⟨.nil, .blank hc hl⟩
    | cons d more =>
      obtain ⟨rfl, hrest⟩ := List.cons.inj htext
      obtain ⟨hleft, hright⟩ := ih hended.of_cons hrest
      exact ⟨.blank hc hleft, hright⟩
  | @comment body layout hbody hl ih =>
    by_cases hne : before = []
    · subst hne
      subst htext
      exact ⟨.nil, .comment hbody hl⟩
    · have hrun : '\n' ∉ ';' :: body := by
        rintro (_ | ⟨_, hmem⟩)
        exact hbody _ hmem rfl
      obtain ⟨tail, rfl, hrest, htail, htail'⟩ := hended.reaches hne hrun htext.symm
      obtain ⟨d, more, rfl⟩ := List.exists_cons_of_ne_nil htail'
      obtain ⟨rfl, rfl⟩ := List.cons.inj hrest
      obtain ⟨hleft, hright⟩ := ih htail.of_cons rfl
      exact ⟨.comment hbody hleft, hright⟩

theorem spells_cut {spelled : List Char} (h : Quoted.Spells (before ++ after) spelled)
    (hended : LineEnded before) : ∃ spelled', Quoted.Spells before spelled' := by
  generalize htext : before ++ after = text at h
  induction h generalizing before with
  | nil =>
    obtain ⟨rfl, _⟩ := List.append_eq_nil_iff.mp htext
    exact ⟨[], .nil⟩
  | @cons piece body spelled c hpiece _ ih =>
    by_cases hne : before = []
    · exact ⟨[], hne ▸ .nil⟩
    rcases hpiece.newline with rfl | hrun
    · obtain ⟨d, more, rfl⟩ := List.exists_cons_of_ne_nil hne
      obtain ⟨rfl, hrest⟩ := List.cons.inj htext
      obtain ⟨spelled', hs⟩ := ih hended.of_cons hrest
      exact ⟨_, .cons hpiece hs⟩
    · obtain ⟨tail, rfl, hrest, htail, _⟩ := hended.reaches hne hrun htext.symm
      obtain ⟨spelled', hs⟩ := ih htail hrest.symm
      exact ⟨_, .cons hpiece hs⟩

end

/-- The text broke off: behind a mark, which is left `hanging`, or inside what has a closer. -/
def Breaks (hanging : Bool) : Except Error Reading → Prop
  | .ok (.truncated _ _) => hanging = true
  | .error e => hanging = false ∧ e.isIncomplete = true
  | _ => False

/-- The text broke off, or there was none where a form was due. -/
def Lapses (hanging : Bool) (r : Except Error Reading) : Prop :=
  Breaks hanging r ∨ hanging = true ∧ r = .ok .eof

/-- The reader finds that the text breaks off. -/
def BreaksOff (floats hanging : Bool) (text : List Char) : Prop :=
  ∀ bound offset line, text.length < bound →
    Breaks hanging (formWithin (.standard floats) bound ⟨text, offset, line⟩).1

def LapsesOff (floats hanging : Bool) (text : List Char) : Prop :=
  ∀ bound offset line, text.length < bound →
    Lapses hanging (formWithin (.standard floats) bound ⟨text, offset, line⟩).1

section

variable {floats hanging openEnded : Bool} {text layout rest before after : List Char} {d : Datum}
variable {items : List Datum}

theorem BreaksOff.lapses (h : BreaksOff floats hanging text) : LapsesOff floats hanging text :=
  fun bound offset line hb => .inl (h bound offset line hb)

theorem lapsesOff_layout (hl : Layout layout) : LapsesOff floats true layout := by
  intro bound offset line hb
  have hlast : Layout (layout ++ ['\n']) := hl.append (.blank (by decide) .nil)
  obtain ⟨after, heof⟩ := eof_of_layout hlast floats bound offset line hb
  exact .inr ⟨rfl, by rw [heof]⟩

theorem BreaksOff.behind (h : BreaksOff floats hanging text) (hl : Layout layout) :
    BreaksOff floats hanging (layout ++ text) := by
  intro bound offset line hb
  rw [List.length_append] at hb
  obtain ⟨bound', line', hle, heq⟩ :=
    formWithin_layout hl floats text bound offset line (by omega)
  rw [heq]
  exact h bound' _ line' (by omega)

theorem breaks_handler {c : Char} {handler : Handler} {more : List Char}
    {bound offset line : Nat} (ht : ReadTable.standard c = some handler)
    (h : Breaks hanging (handle (.standard floats) (formWithin (.standard floats) bound) bound c
      ⟨more, offset + 1, line⟩ handler).1) :
    Breaks hanging
      (formWithin (.standard floats) (bound + 1) ⟨c :: more, offset, line⟩).1 := by
  have hsome : (Dialect.standard floats).table c = some handler := ht
  rw [formWithin]
  simp only [Source.next?, hsome]
  split
  · rename_i hskip
    rw [hskip] at h
    exact h.elim
  · exact h

theorem breaks_withOperand {next : ReadStep} {src : Source} (h : Lapses hanging (next src).1)
    (context : String) (make : Datum → Except Error Reading) :
    Breaks hanging (withOperand next context make src).1 := by
  unfold withOperand operand
  rcases hnext : next src with ⟨e | d | c | _ | _ | ⟨context', pos⟩, after⟩ <;> rw [hnext] at h
  · exact h.resolve_right fun heof => by cases heof.2
  · rcases h with h | ⟨_, h⟩ <;> cases h
  · rcases h with h | ⟨_, h⟩ <;> cases h
  · rcases h with h | ⟨_, h⟩ <;> cases h
  · exact (h.resolve_left id).1
  · exact h.resolve_right fun heof => by cases heof.2

/-- A mark with nothing behind it, or with a text behind it that breaks off; `tail` is what the mark
has behind its first character. -/
theorem breaksOff_marked {c : Char} (tail : List Char) {handler : Handler} (context : String)
    (make : Position → Datum → Except Error Reading) (ht : ReadTable.standard c = some handler)
    (hhandle : ∀ next k offset line,
      handle (.standard floats) next k c ⟨tail ++ text, offset, line⟩ handler =
        withOperand next context (make ⟨line, offset - 1⟩) ⟨text, offset + tail.length, line⟩)
    (h : LapsesOff floats hanging text) : BreaksOff floats hanging (c :: (tail ++ text)) := by
  intro bound offset line hb
  obtain ⟨bound, rfl⟩ := Nat.exists_eq_add_one_of_ne_zero (Nat.ne_zero_of_lt hb)
  simp only [List.length_cons, List.length_append, Nat.add_lt_add_iff_right] at hb
  apply breaks_handler ht
  rw [hhandle]
  exact breaks_withOperand (h bound _ line (by omega)) context _

theorem scanFrom_open {start : Position} {body spelled : List Char}
    (h : Quoted.Spells body spelled) (offset newlines : Nat) :
    (Quoted.scanFrom start body offset newlines).1 = .error (.openString start) := by
  have hscan : Quoted.scanFrom start (body ++ []) offset newlines = _ :=
    Quoted.scanFrom_append h [] offset newlines
  rw [List.append_nil] at hscan
  rw [hscan]
  rfl

theorem breaksOff_string {body spelled : List Char} (h : Quoted.Spells body spelled) :
    BreaksOff floats false ('"' :: body) := by
  intro bound offset line hb
  obtain ⟨bound, rfl⟩ := Nat.exists_eq_add_one_of_ne_zero (Nat.ne_zero_of_lt hb)
  apply breaks_handler rfl
  have hopen : (Quoted.scanFrom ⟨line, offset⟩ body (offset + 1) 0).1 =
      .error (.openString ⟨line, offset⟩) := scanFrom_open h (offset + 1) 0
  simp only [handle, readString, Quoted.scan, Source.lastPosition, Nat.add_sub_cancel]
  generalize Quoted.scanFrom ⟨line, offset⟩ body (offset + 1) 0 = result at hopen ⊢
  obtain ⟨r, more, after⟩ := result
  obtain rfl : r = .error (.openString ⟨line, offset⟩) := hopen
  exact ⟨rfl, rfl⟩

/-- Data one after the other, and then a text that breaks off. -/
inductive Stops (floats hanging : Bool) : List Char → Prop where
  | here {layout text : List Char} : Layout layout → BreaksOff floats hanging text →
      Stops floats hanging (layout ++ text)
  | past {layout text rest : List Char} {openEnded : Bool} {d : Datum} : Layout layout →
      Denotes floats openEnded text d → (openEnded = true → Delimited rest) →
      Stops floats hanging rest → Stops floats hanging (layout ++ (text ++ rest))

/-- What is collected as items from a text that ends before the closer. -/
def Unclosed (floats : Bool) (text : List Char) : Prop :=
  ∀ kind start acc k bound offset line, text.length < k → text.length < bound →
    ∃ e, (collect (formWithin (.standard floats) bound) kind start k acc
      ⟨text, offset, line⟩).1 = .error e ∧ e.isIncomplete = true

theorem unclosed_layout (hl : Layout layout) : Unclosed floats layout := by
  intro kind start acc k bound offset line hk hb
  obtain ⟨k, rfl⟩ := Nat.exists_eq_add_one_of_ne_zero (Nat.ne_zero_of_lt hk)
  have hlast : Layout (layout ++ ['\n']) := hl.append (.blank (by decide) .nil)
  obtain ⟨after, heof⟩ := eof_of_layout hlast floats bound offset line hb
  simp only [collect, heof]
  exact ⟨_, rfl, rfl⟩

theorem unclosed_breaksOff (h : BreaksOff floats hanging text) : Unclosed floats text := by
  intro kind start acc k bound offset line hk hb
  obtain ⟨k, rfl⟩ := Nat.exists_eq_add_one_of_ne_zero (Nat.ne_zero_of_lt hk)
  have hbreaks := h bound offset line hb
  rw [collect]
  rcases hnext : formWithin (.standard floats) bound ⟨text, offset, line⟩ with
    ⟨e | d | c | _ | _ | ⟨context, pos⟩, after⟩ <;> rw [hnext] at hbreaks
  · exact ⟨e, rfl, hbreaks.2⟩
  · exact hbreaks.elim
  · exact hbreaks.elim
  · exact hbreaks.elim
  · exact hbreaks.elim
  · exact ⟨_, rfl, rfl⟩

theorem unclosed_cons (hl : Layout layout) (hd : Denotes floats openEnded text d)
    (hopen : openEnded = true → Delimited rest) (h : Unclosed floats rest) :
    Unclosed floats (layout ++ (text ++ rest)) := by
  intro kind start acc k bound offset line hk hb
  have hpos : 0 < text.length := List.length_pos_iff.mpr hd.ne_nil
  obtain ⟨k, rfl⟩ := Nat.exists_eq_add_one_of_ne_zero (Nat.ne_zero_of_lt hk)
  simp only [List.length_append] at hk hb
  obtain ⟨line', hread⟩ := (reads_of_denotes hd).behind hl rest bound offset line hopen
    (by rw [List.length_append]; omega)
  rw [collect, ← List.append_assoc, hread]
  exact h kind start (d :: acc) k bound _ line' (by omega) (by omega)

theorem unclosed_items (h : Items (Denotes floats) text items) : Unclosed floats text := by
  induction h with
  | nil hl => exact unclosed_layout hl
  | cons hl hd hopen _ ih => exact unclosed_cons hl hd hopen ih

theorem Stops.unclosed (h : Stops floats hanging text) : Unclosed floats text := by
  induction h with
  | here hl h => exact unclosed_breaksOff (h.behind hl)
  | past hl hd hopen _ ih => exact unclosed_cons hl hd hopen ih

theorem breaksOff_collection (kind : Collection) (h : Unclosed floats text) :
    BreaksOff floats false (kind.opener :: text) := by
  intro bound offset line hb
  obtain ⟨bound, rfl⟩ := Nat.exists_eq_add_one_of_ne_zero (Nat.ne_zero_of_lt hb)
  simp only [List.length_cons, Nat.add_lt_add_iff_right] at hb
  have htable : ReadTable.standard kind.opener = some (.collect kind) := by cases kind <;> rfl
  apply breaks_handler htable
  obtain ⟨e, he, hincomplete⟩ := h kind ⟨line, offset⟩ [] bound bound (offset + 1) line hb hb
  simp only [handle, Source.lastPosition, Nat.add_sub_cancel, he]
  exact ⟨rfl, hincomplete⟩

/-- A text that stands for a datum. It does not end where a line ends, a newline behind a backslash
apart; if it is cut at the end of a line, it breaks off there. -/
structure Cuttable (floats : Bool) (text : List Char) : Prop where
  whole : ¬ Lined text
  cut : ∀ before after, text = before ++ after → before ≠ [] → after ≠ [] → LineEnded before →
    ∃ hanging, BreaksOff floats hanging before

theorem cuttable_of_not_mem (hne : text ≠ []) (hmem : '\n' ∉ text) : Cuttable floats text where
  whole := not_lined_of_not_mem hmem hne
  cut := by
    rintro before after rfl hbefore _ hended
    exact absurd (List.mem_append_left after (hended.newline_mem hbefore)) hmem

theorem cuttable_token (ht : Token text) : Cuttable floats text :=
  cuttable_of_not_mem ht.ne_nil (newline_not_free ht.free)

/-- The newline of a character literal stands behind a backslash, and nothing of the literal behind
the newline. -/
theorem cuttable_character {first c : Char} {more : List Char}
    (hfree : ∀ c ∈ more, isDelimiter c = false) (hlit : CharLiteral (first :: more) c) :
    Cuttable floats ('\\' :: first :: more) := by
  have hmore : more ≠ [] → first ≠ '\n' := by
    rintro hne rfl
    generalize hliteral : '\n' :: more = literal at hlit
    cases hlit with
    | single c => cases hliteral; exact hne rfl
    | named hmem =>
      have hall : ∀ entry ∈ charNames, '\n' ∉ entry.1.toList := by decide
      exact absurd (hliteral ▸ List.mem_cons_self) (hall _ hmem)
    | code => simp at hliteral
  have hnot : '\n' ∉ more := newline_not_free hfree
  constructor
  · intro hlined
    by_cases hne : more = []
    · subst hne
      rcases hlined with hnil | ⟨body, hbody, hlast⟩
      · cases hnil
      · have hsplit : ['\\'] ++ [first] = body ++ ['\n'] := hbody
        obtain ⟨rfl, _⟩ := List.append_inj' hsplit rfl
        exact hlast rfl
    · exact hnot (hlined.lineEnded.of_cons.of_cons.newline_mem hne)
  · intro before after heq hne hafter hended
    rcases before with _ | ⟨d, _ | ⟨first', tail⟩⟩
    · exact absurd rfl hne
    · cases heq
      exact absurd (hended.newline_mem hne) (by simp)
    · cases heq
      by_cases htail : tail = []
      · subst htail
        exact absurd (hended.of_cons.newline_mem (by simp)) (by simpa using (hmore hafter).symm)
      · have hmem := hended.of_cons.of_cons.newline_mem htail
        exact absurd (List.mem_append_left after hmem) hnot

theorem cuttable_string {body spelled : List Char} (h : Quoted.Spells body spelled) :
    Cuttable floats ('"' :: (body ++ ['"'])) := by
  have hwhole : ¬ Lined (('"' :: body) ++ ['"']) := not_lined_concat (by decide)
  refine ⟨hwhole, ?_⟩
  intro before after heq hne _ hended
  obtain ⟨left, right, rfl, rfl, hleft⟩ := hended.inside hne (by decide) (by decide) heq
  obtain ⟨spelled', hs⟩ := spells_cut h hleft
  exact ⟨false, breaksOff_string hs⟩

/-- Items that are cut at the end of a line: they fall to the one side or the other, unless the cut
goes through one of them. -/
def Splits (floats : Bool) (text : List Char) (items : List Datum) : Prop :=
  ∀ before after, text = before ++ after → LineEnded before →
    (∃ left right, items = left ++ right ∧ Items (Denotes floats) before left ∧
      Items (Denotes floats) after right) ∨ ∃ hanging, Stops floats hanging before

theorem cuttable_collection (kind : Collection) (h : Splits floats text items) :
    Cuttable floats (kind.opener :: (text ++ [kind.closer])) := by
  have hopener : kind.opener ≠ '\n' := by cases kind <;> decide
  have hcloser : kind.closer ≠ '\n' := by cases kind <;> decide
  have hwhole : ¬ Lined ((kind.opener :: text) ++ [kind.closer]) := not_lined_concat hcloser
  refine ⟨hwhole, ?_⟩
  intro before after heq hne _ hended
  obtain ⟨left, right, rfl, rfl, hleft⟩ := hended.inside hne hopener hcloser heq
  rcases h left right rfl hleft with ⟨_, _, _, hitems, _⟩ | ⟨hanging, hstops⟩
  · exact ⟨false, breaksOff_collection kind (unclosed_items hitems)⟩
  · exact ⟨false, breaksOff_collection kind hstops.unclosed⟩

/-- Behind a mark the cut is in the layout, which leaves the mark hanging, or in the datum. -/
theorem lapsesOff_cut (hl : Layout layout) (ht : Cuttable floats text)
    (heq : layout ++ text = before ++ after) (hafter : after ≠ []) (hended : LineEnded before) :
    ∃ hanging, LapsesOff floats hanging before := by
  rcases List.append_eq_append_iff.mp heq with ⟨tail, rfl, rfl⟩ | ⟨tail, rfl, _⟩
  · by_cases hne : tail = []
    · subst hne
      rw [List.append_nil]
      exact ⟨true, lapsesOff_layout hl⟩
    · obtain ⟨hanging, hbreaks⟩ := ht.cut tail after rfl hne hafter hended.of_append
      exact ⟨hanging, (hbreaks.behind hl).lapses⟩
  · exact ⟨true, lapsesOff_layout (hl.cut hended).1⟩

theorem cuttable_marked (mark : List Char) (hmark : '\n' ∉ mark) (hl : Layout layout)
    (ht : Cuttable floats text)
    (hbreaks : ∀ hanging before, before <+: layout ++ text → before ≠ [] →
      LapsesOff floats hanging before → BreaksOff floats hanging (mark ++ before)) :
    Cuttable floats (mark ++ (layout ++ text)) := by
  constructor
  · intro hlined
    rw [← List.append_assoc] at hlined
    exact ht.whole hlined.of_append
  · intro before after heq hne hafter hended
    obtain ⟨tail, rfl, hrest, htail, htail'⟩ := hended.reaches hne hmark heq
    obtain ⟨hanging, hlapses⟩ := lapsesOff_cut hl ht hrest hafter htail
    exact ⟨hanging, hbreaks hanging tail ⟨after, hrest.symm⟩ htail' hlapses⟩

theorem cuttable_keyword (hl : Layout layout) (ht : Cuttable floats text) :
    Cuttable floats (':' :: (layout ++ text)) :=
  cuttable_marked [':'] (by decide) hl ht fun _ _ _ _ h =>
    breaksOff_marked [] ":" keywordOf rfl (fun _ _ _ _ => rfl) h

theorem cuttable_wrapped {c : Char} {head : String}
    (htable : ReadTable.standard c = some (.wrap head)) (hc : c ≠ '\n') (hl : Layout layout)
    (ht : Cuttable floats text) : Cuttable floats (c :: (layout ++ text)) := by
  have hmark : '\n' ∉ [c] := by simp [hc.symm]
  exact cuttable_marked [c] hmark hl ht fun _ _ _ _ h =>
    breaksOff_marked [] c.toString (fun _ => wrapped head) htable (fun _ _ _ _ => rfl) h

theorem cuttable_unquote (hl : Layout layout) (ht : Cuttable floats text)
    (hhead : (layout ++ text).head? ≠ some '@') : Cuttable floats ('~' :: (layout ++ text)) := by
  refine cuttable_marked ['~'] (by decide) hl ht fun hanging before hprefix hne h => ?_
  refine breaksOff_marked [] "~" (fun _ => wrapped SpecialForm.unquote.name) rfl ?_ h
  intro next k offset line
  obtain ⟨c, more, rfl⟩ := List.exists_cons_of_ne_nil hne
  obtain ⟨after, hafter⟩ := hprefix
  have hc : c ≠ '@' := by
    rintro rfl
    rw [← hafter] at hhead
    exact hhead rfl
  simp [handle, Source.next?, hc, SpecialForm.name]

theorem cuttable_spliceUnquote (hl : Layout layout) (ht : Cuttable floats text) :
    Cuttable floats ('~' :: '@' :: (layout ++ text)) :=
  cuttable_marked ['~', '@'] (by decide) hl ht fun _ _ _ _ h =>
    breaksOff_marked ['@'] "~@" (fun _ => wrapped SpecialForm.spliceUnquote.name) rfl
      (fun _ _ _ _ => rfl) h

theorem splits_nil (hl : Layout layout) : Splits floats layout [] := by
  rintro before after rfl hended
  obtain ⟨hleft, hright⟩ := hl.cut hended
  exact .inl ⟨[], [], rfl, .nil hleft, .nil hright⟩

theorem splits_behind (more : List Char) (hl : Layout layout)
    (hd : Denotes floats openEnded text d)
    (hopen : openEnded = true → Delimited (more ++ after))
    (hsplits : Splits floats (more ++ after) items) (hended : LineEnded more) :
    (∃ left right, d :: items = left ++ right ∧
      Items (Denotes floats) (layout ++ (text ++ more)) left ∧
      Items (Denotes floats) after right) ∨
    ∃ hanging, Stops floats hanging (layout ++ (text ++ more)) := by
  have hmore : openEnded = true → Delimited more := fun ho => (hopen ho).of_append
  rcases hsplits more after rfl hended with ⟨left, right, rfl, hleft, hright⟩ | ⟨hanging, hstops⟩
  · exact .inl ⟨d :: left, right, rfl, .cons hl hd hmore hleft, hright⟩
  · exact .inr ⟨hanging, .past hl hd hmore hstops⟩

theorem splits_cons (hl : Layout layout) (hd : Denotes floats openEnded text d)
    (ht : Cuttable floats text) (hopen : openEnded = true → Delimited rest)
    (hrest : Items (Denotes floats) rest items) (hsplits : Splits floats rest items) :
    Splits floats (layout ++ (text ++ rest)) (d :: items) := by
  intro before after heq hended
  rcases List.append_eq_append_iff.mp heq with ⟨tail, rfl, hinner⟩ | ⟨tail, rfl, rfl⟩
  · have htail := hended.of_append
    by_cases hne : tail = []
    · subst hne
      refine .inl ⟨[], d :: items, rfl, .nil (by simpa using hl), ?_⟩
      rw [← List.nil_append after, ← hinner]
      exact .cons .nil hd hopen hrest
    rcases List.append_eq_append_iff.mp hinner with ⟨more, rfl, rfl⟩ | ⟨more, rfl, rfl⟩
    · exact splits_behind more hl hd hopen hsplits htail.of_append
    · by_cases hmore : more = []
      · subst hmore
        simpa using splits_behind [] hl hd hopen hsplits (.inl rfl)
      · obtain ⟨hanging, hbreaks⟩ := ht.cut tail more rfl hne hmore htail
        exact .inr ⟨hanging, .here hl hbreaks⟩
  · obtain ⟨hleft, hright⟩ := hl.cut hended
    exact .inl ⟨[], d :: items, rfl, .nil hleft, .cons hright hd hopen hrest⟩

theorem cuttable_of_denotes (h : Denotes floats openEnded text d) : Cuttable floats text := by
  refine @Denotes.rec floats (fun _ text _ _ => Cuttable floats text)
    (fun text items _ => Splits floats text items)
    ?nil ?bool ?symbol ?number ?character ?string ?keyword ?quotedKeyword ?list ?vector ?map
    ?quote ?quasiquote ?unquote ?spliceUnquote ?none ?more _ _ _ h
  case nil => exact cuttable_token token_nil
  case bool => exact fun b => cuttable_token (token_bool b)
  case symbol => exact fun ht _ _ _ _ _ => cuttable_token ht
  case number =>
    intro text d hn
    obtain ⟨n, hspelled, _⟩ := Numeral.literal_iff.mp hn
    exact cuttable_of_not_mem hspelled.ne_nil (newline_not_free (free_of_spelled hspelled))
  case character => exact cuttable_character
  case string => exact cuttable_string
  case keyword =>
    intro layout text hl ht
    exact cuttable_keyword hl (cuttable_token ht)
  case quotedKeyword =>
    intro layout body text hl hspells _
    exact cuttable_keyword hl (cuttable_string hspells)
  case list => exact fun _ ih => cuttable_collection .list ih
  case vector => exact fun _ ih => cuttable_collection .vector ih
  case map => exact fun _ _ ih => cuttable_collection .map ih
  case quote => exact fun hl _ ih => cuttable_wrapped rfl (by decide) hl ih
  case quasiquote => exact fun hl _ ih => cuttable_wrapped rfl (by decide) hl ih
  case unquote => exact fun hl _ hhead ih => cuttable_unquote hl ih hhead
  case spliceUnquote => exact fun hl _ ih => cuttable_spliceUnquote hl ih
  case none => exact splits_nil
  case more => exact fun hl hd hopen hrest ih ihs => splits_cons hl hd ih hopen hrest ihs

theorem Items.cut (h : Items (Denotes floats) (before ++ after) items)
    (hended : LineEnded before) :
    (∃ left right, items = left ++ right ∧ Items (Denotes floats) before left ∧
      Items (Denotes floats) after right) ∨ ∃ hanging, Stops floats hanging before := by
  have hsplits : ∀ {text items}, Items (Denotes floats) text items → Splits floats text items := by
    intro text items h
    induction h with
    | nil hl => exact splits_nil hl
    | cons hl hd hopen hrest ih => exact splits_cons hl hd (cuttable_of_denotes hd) hopen hrest ih
  exact hsplits h before after rfl hended

/-- A datum at the end of whole lines has something behind it, so what follows the lines does not
matter to it. -/
theorem delimited_lined (more : List Char) (hd : Denotes floats openEnded text d)
    (hlined : Lined (layout ++ (text ++ rest))) (hopen : openEnded = true → Delimited rest) :
    openEnded = true → Delimited (rest ++ more) := by
  intro ho c hc
  cases rest with
  | nil =>
    rw [List.append_nil] at hlined
    exact absurd hlined.of_append (cuttable_of_denotes hd).whole
  | cons first tail => exact hopen ho c hc

theorem Stops.behind (h : Stops floats hanging text) (hl : Layout layout) :
    Stops floats hanging (layout ++ text) := by
  cases h with
  | here hl' hbreaks =>
    rw [← List.append_assoc]
    exact .here (hl.append hl') hbreaks
  | past hl' hd hopen hrest =>
    rw [← List.append_assoc]
    exact .past (hl.append hl') hd hopen hrest

/-- What breaks off behind whole lines also breaks off together with them. -/
theorem Stops.append {left : List Datum} (h : Items (Denotes floats) before left)
    (hlined : Lined before) (h' : Stops floats hanging after) :
    Stops floats hanging (before ++ after) := by
  induction h with
  | nil hl => exact h'.behind hl
  | @cons layout text rest openEnded item items hl hd hopen hrest ih =>
    have hmore := delimited_lined after hd hlined hopen
    have hall := Stops.past hl hd hmore (ih hlined.of_append.of_append)
    simpa using hall

theorem read_layout (hl : Layout layout) (floats : Bool) (offset line : Nat) :
    ∃ after, read (.standard floats) ⟨layout, offset, line⟩ = (.ok none, after) := by
  have hlast : Layout (layout ++ ['\n']) := hl.append (.blank (by decide) .nil)
  obtain ⟨after, heof⟩ :=
    eof_of_layout hlast floats (layout.length + 1) offset line (Nat.lt_succ_self _)
  exact ⟨after, read_eq_none_iff.mpr heof⟩

theorem read_item (hl : Layout layout) (hd : Denotes floats openEnded text d)
    (hopen : openEnded = true → Delimited rest) (offset line : Nat) :
    ∃ offset' line', read (.standard floats) ⟨layout ++ (text ++ rest), offset, line⟩ =
      (.ok (some d), ⟨rest, offset', line'⟩) := by
  obtain ⟨line', hform⟩ := (reads_of_denotes hd).behind hl rest
    ((layout ++ (text ++ rest)).length + 1) offset line hopen
    (by simp only [List.length_append]; omega)
  rw [List.append_assoc] at hform
  exact ⟨_, line', read_eq_some_iff.mpr hform⟩

theorem Denotes.rest_lt (hd : Denotes floats openEnded text d) {k : Nat}
    (hk : (layout ++ (text ++ rest)).length < k + 1) : rest.length < k := by
  have hpos : 0 < text.length := List.length_pos_iff.mpr hd.ne_nil
  simp only [List.length_append] at hk
  omega

theorem readAllWithin_items (h : Items (Denotes floats) text items) (k offset line : Nat)
    (hk : text.length < k) :
    ∃ after, readAllWithin (.standard floats) k ⟨text, offset, line⟩ = (.ok items, after) := by
  induction h generalizing k offset line with
  | nil hl =>
    obtain ⟨k, rfl⟩ := Nat.exists_eq_add_one_of_ne_zero (Nat.ne_zero_of_lt hk)
    obtain ⟨after, hread⟩ := read_layout hl floats offset line
    exact ⟨after, by simp only [readAllWithin, hread]⟩
  | cons hl hd hopen _ ih =>
    obtain ⟨k, rfl⟩ := Nat.exists_eq_add_one_of_ne_zero (Nat.ne_zero_of_lt hk)
    obtain ⟨offset', line', hread⟩ := read_item hl hd hopen offset line
    obtain ⟨after, hmore⟩ := ih k offset' line' (hd.rest_lt hk)
    exact ⟨after, by simp only [readAllWithin, hread, hmore]⟩

theorem items_of_readAllWithin {k : Nat} {src after : Source}
    (h : readAllWithin (.standard floats) k src = (.ok items, after)) (hk : src.rest.length < k)
    (hlined : Lined src.rest) : Items (Denotes floats) src.rest items := by
  induction k generalizing src items with
  | zero => omega
  | succ k ih =>
    rw [readAllWithin] at h
    split at h
    · cases h
    · rename_i src' hread
      cases h
      have hlayout := layout_of_eof (Nat.lt_succ_self _) (read_eq_none_iff.mp hread)
      exact .nil (hlayout.cut hlined.lineEnded).1
    · rename_i form src' hread
      obtain ⟨layout, text, openEnded, hl, hd, hopen, hsrc⟩ :=
        formWithin_sound floats _ (read_eq_some_iff.mp hread)
      rw [hsrc] at hk hlined ⊢
      split at h
      · rename_i forms src'' hmore
        cases h
        exact .cons hl hd hopen (ih hmore (hd.rest_lt hk) hlined.of_append.of_append)
      · rename_i hfails
        exact absurd h (hfails _ _)

/-- A mark is left hanging: a form is missing. Anything else that breaks off is incomplete. -/
def Refuses (hanging : Bool) (e : Error) : Prop :=
  if hanging then ∃ pos context, e = .malformedText pos (.missingForm context)
  else e.isIncomplete = true

theorem readAllWithin_stops (h : Stops floats hanging text) (k offset line : Nat)
    (hk : text.length < k) :
    ∃ e, (readAllWithin (.standard floats) k ⟨text, offset, line⟩).1 = .error e ∧
      Refuses hanging e := by
  induction h generalizing k offset line with
  | @here layout text hl hbreaks =>
    obtain ⟨k, rfl⟩ := Nat.exists_eq_add_one_of_ne_zero (Nat.ne_zero_of_lt hk)
    have hform := hbreaks.behind hl ((layout ++ text).length + 1) offset line (Nat.lt_succ_self _)
    rw [readAllWithin, read, readForm]
    dsimp only
    rcases hread : formWithin (.standard floats) ((layout ++ text).length + 1)
      ⟨layout ++ text, offset, line⟩ with ⟨e | d | c | _ | _ | ⟨context, pos⟩, after⟩ <;>
      rw [hread] at hform
    · obtain ⟨rfl, hincomplete⟩ := hform
      exact ⟨e, rfl, hincomplete⟩
    · exact hform.elim
    · exact hform.elim
    · exact hform.elim
    · exact hform.elim
    · obtain rfl : hanging = true := hform
      exact ⟨_, rfl, pos, context, rfl⟩
  | past hl hd hopen _ ih =>
    obtain ⟨k, rfl⟩ := Nat.exists_eq_add_one_of_ne_zero (Nat.ne_zero_of_lt hk)
    obtain ⟨offset', line', hread⟩ := read_item hl hd hopen offset line
    obtain ⟨e, he, hrefuses⟩ := ih k offset' line' (hd.rest_lt hk)
    refine ⟨e, ?_, hrefuses⟩
    rw [readAllWithin, hread]
    dsimp only
    split
    · rename_i hmore
      rw [hmore] at he
      cases he
    · exact he

theorem readAll_items (h : Items (Denotes floats) text items) :
    (readAll (.standard floats) (.ofChars text)).1 = .ok items := by
  obtain ⟨after, hread⟩ := readAllWithin_items h (text.length + 1) 0 1 (Nat.lt_succ_self _)
  exact congrArg Prod.fst hread

/-- Whole lines are read as the items that the grammar finds in them. -/
theorem readAll_eq_ok_iff (hlined : Lined text) :
    (readAll (.standard floats) (.ofChars text)).1 = .ok items ↔
      Items (Denotes floats) text items := by
  constructor
  · intro h
    exact items_of_readAllWithin (Prod.ext h rfl) (Nat.lt_succ_self _) hlined
  · exact readAll_items

theorem readAll_of_stops (h : Stops floats hanging text) :
    ∃ e, (readAll (.standard floats) (.ofChars text)).1 = .error e ∧ Refuses hanging e :=
  readAllWithin_stops h (text.length + 1) 0 1 (Nat.lt_succ_self _)

theorem Items.unique {items' : List Datum} (h : Items (Denotes floats) text items)
    (h' : Items (Denotes floats) text items') : items = items' :=
  Except.ok.inj ((readAll_items h).symm.trans (readAll_items h'))

theorem Stops.not_items (h : Stops floats hanging text) : ¬ Items (Denotes floats) text items := by
  intro hitems
  obtain ⟨e, he, _⟩ := readAll_of_stops h
  rw [readAll_items hitems] at he
  cases he

end

end TableLisp.Reader

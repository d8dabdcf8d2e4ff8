import TableLisp.Primitive.Apply
import TableLisp.Proofs.Reader.WellFormed

/-! Keywords whose names come from strings. Such a name has to be an identifier, and what may stand
in an identifier is not what may stand in a token: an apostrophe may go on in an identifier but ends
a token, and an identifier may begin with a plus sign that a digit follows. The keywords with such
names, and only they, are not read back from their printed text. -/

namespace TableLisp

namespace Text

variable {c : Char} {name : List Char}

theorem identifierChar_of_mem (h : isIdentifier name = true) (hc : c ∈ name) :
    isIdentifierChar c = true := by
  cases name with
  | nil => cases h
  | cons first more =>
    simp only [isIdentifier, Bool.and_eq_true, List.all_eq_true] at h
    rcases List.mem_cons.mp hc with rfl | hmore
    · simp [isIdentifierChar, h.1]
    · exact h.2 c hmore

/-- Of the characters that the standard table binds, the apostrophe alone can stand in an
identifier. -/
theorem eq_apostrophe_of_bound (h : isIdentifierChar c = true)
    (hbound : c ∈ ReadTable.standardChars) : c = '\x27' := by
  have hothers : ReadTable.standardChars.all
      (fun c => c == '\x27' || !isIdentifierChar c) = true := by decide +kernel
  simpa [h] using List.all_eq_true.mp hothers c hbound

theorem toNat_of_isDecimal (h : isDecimal c = true) : 48 ≤ c.toNat ∧ c.toNat < 58 := by
  obtain ⟨v, hv⟩ := Option.isSome_iff_exists.mp h
  obtain ⟨hhex, hlt⟩ := Option.filter_eq_some_iff.mp hv
  have hten : v < 10 := of_decide_eq_true hlt
  unfold hexValue? at hhex
  split at hhex
  · rename_i hrange
    have hlow : ('0').toNat ≤ c.toNat := hrange.1
    have hhigh : c.toNat ≤ ('9').toNat := hrange.2
    exact ⟨hlow, Nat.lt_succ_of_le hhigh⟩
  · split at hhex
    · cases hhex
      omega
    · split at hhex
      · cases hhex
        omega
      · cases hhex

theorem not_identifierStart_of_isDecimal (h : isDecimal c = true) :
    isIdentifierStart c = false := by
  have hcodes : (List.range' 48 10).all
      (fun n => !isIdentifierStart (Char.ofNat n)) = true := by decide +kernel
  obtain ⟨hlow, hhigh⟩ := toNat_of_isDecimal h
  have hmem : c.toNat ∈ List.range' 48 10 := List.mem_range'_1.mpr ⟨hlow, hhigh⟩
  simpa using List.all_eq_true.mp hcodes _ hmem

theorem eq_plus_of_startsNumber {next : Option Char} (h : isIdentifierStart c = true)
    (hstart : startsNumber c next = true) : c = '+' ∧ next.any isDecimal = true := by
  have hdecimal : isDecimal c = false := by
    cases hc : isDecimal c with
    | false => rfl
    | true =>
      rw [not_identifierStart_of_isDecimal hc] at h
      cases h
  simp only [startsNumber, hdecimal, Bool.false_or, Bool.and_eq_true, Bool.or_eq_true,
    beq_iff_eq] at hstart
  obtain ⟨rfl | rfl, hnext⟩ := hstart
  · exact ⟨rfl, hnext⟩
  · exact absurd h (by decide +kernel)

end Text

namespace Reader

variable {name : String}

/-- An identifier that is no token: it has an apostrophe in it, or begins with a plus sign and a
digit. -/
def Misread (name : List Char) : Prop :=
  '\x27' ∈ name ∨ ∃ digit more, name = '+' :: digit :: more ∧ Text.isDecimal digit = true

theorem irregular_iff_misread {name : List Char} (h : Text.isIdentifier name = true) :
    Irregular name ↔ Misread name := by
  constructor
  · rintro (⟨c, hc, hbound⟩ | ⟨first, more, rfl, hstart⟩)
    · have hmem : c ∈ ReadTable.standardChars := by simpa using hbound
      exact .inl (Text.eq_apostrophe_of_bound (Text.identifierChar_of_mem h hc) hmem ▸ hc)
    · simp only [Text.isIdentifier, Bool.and_eq_true] at h
      obtain ⟨rfl, hnext⟩ := Text.eq_plus_of_startsNumber h.1 hstart
      cases more with
      | nil => cases hnext
      | cons digit more => exact .inr ⟨digit, more, rfl, hnext⟩
  · rintro (hc | ⟨digit, more, rfl, hdigit⟩)
    · exact .inl ⟨_, hc, by decide⟩
    · exact .inr ⟨'+', digit :: more, rfl, by simp [Text.startsNumber, hdigit]⟩

/-- The readable text of a datum is read as that datum, and nothing is left of it. -/
def ReadsBack (store : MapStore) (x : Datum) : Prop :=
  ∃ after, read (.standard Settings.initial.preferFloats) (.ofText (store.text .readable x)) =
    (.ok (some x), after) ∧ after.rest = []

theorem text_keyword (store : MapStore) (name : String) :
    (store.text .readable (.keyword name)).toList = ':' :: name.toList := by
  unfold MapStore.text
  rw [String.toList_ofList]
  cases store.size with
  | zero => simp [MapStore.textWithin, Datum.textWith]
  | succ n => simp [MapStore.textWithin, Datum.textWith]

/-- A colon and a name without quotes are read as the keyword of that name, if at all, because the
name is a token. -/
theorem token_of_denotes {floats openEnded : Bool} {text : List Char} (hquote : '"' ∉ text)
    (h : Denotes floats openEnded (':' :: text) (.keyword (String.ofList text))) : Token text := by
  generalize hwhole : ':' :: text = whole at h
  generalize hname : Datum.keyword (String.ofList text) = x at h
  cases h with
  | @keyword layout token hlayout htoken =>
    have hsame : text = token := String.ofList_inj.mp (Datum.keyword.inj hname)
    exact hsame ▸ htoken
  | @quotedKeyword layout body token hlayout hspells hid =>
    obtain ⟨-, htext⟩ := List.cons.inj hwhole
    exact absurd (by rw [htext]; simp) hquote
  | number hliteral => cases hliteral <;> cases hname
  | _ => cases hname

theorem token_of_readsBack {store : MapStore} (hid : Text.isIdentifier name.toList = true)
    (h : ReadsBack store (.keyword name)) : Token name.toList := by
  obtain ⟨after, hread, hrest⟩ := h
  obtain ⟨layout, text, openEnded, hlayout, hdenotes, -, hsource⟩ :=
    formWithin_sound _ _ (read_eq_some_iff.mp hread)
  have htext : ':' :: name.toList = layout ++ text := by
    rw [← text_keyword store name]
    rw [hrest, List.append_nil] at hsource
    exact hsource
  have hquote : '"' ∉ name.toList := by
    intro hmem
    exact absurd (Text.identifierChar_of_mem hid hmem) (by decide +kernel)
  cases hlayout with
  | nil =>
    rw [List.nil_append] at htext
    rw [← htext] at hdenotes
    exact token_of_denotes hquote (by rwa [String.ofList_toList])
  | blank hblank _ =>
    obtain ⟨rfl, -⟩ := List.cons.inj htext
    exact absurd hblank (by decide)
  | comment _ _ =>
    obtain ⟨hc, -⟩ := List.cons.inj htext
    exact absurd hc (by decide)

theorem readsBack_of_token (store : MapStore) (h : Token name.toList) :
    ReadsBack store (.keyword name) := by
  have hdenotes : Denotes Settings.initial.preferFloats true (':' :: ([] ++ name.toList))
      (.keyword (String.ofList name.toList)) := .keyword .nil h
  rw [List.nil_append, String.ofList_toList] at hdenotes
  obtain ⟨after, hread, hrest⟩ := read_of_denotes hdenotes
  refine ⟨after, ?_, hrest⟩
  rw [Source.ofText, text_keyword]
  exact hread

/-- A name that is an identifier makes a keyword, in a string behind a colon and as the argument of
the function `keyword`. The keyword is read back from its printed text, with nothing left, if and
only if there is no apostrophe in its name and the name does not begin with a plus sign and a
digit. -/
theorem keyword_readsBack_iff (name : String) (h : Text.isIdentifier name.toList = true)
    (floats : Bool) (host : Host) (m : Machine) :
    (∃ after, read (.standard floats) (.ofChars (':' :: Quoted.write name.toList)) =
        (.ok (some (.keyword name)), after) ∧ after.rest = []) ∧
    Primitive.apply host (.naming .keyword) [.string name] m = .done (.keyword name) m ∧
    (ReadsBack m.maps (.keyword name) ↔ ¬ Misread name.toList) := by
  refine ⟨?_, ?_, ?_⟩
  · have hdenotes : Denotes floats false _ _ :=
      .quotedKeyword .nil (Quoted.spells_flatMap_writeChar name.toList) h
    rw [List.nil_append, String.ofList_toList] at hdenotes
    exact read_of_denotes hdenotes
  · simp [Primitive.apply, NamingOp.apply, NamingOp.keywordOf, h, Outcome.ofExcept]
  · rw [← irregular_iff_misread h]
    constructor
    · exact fun hback => (token_of_readsBack h hback).regular
    · intro hregular
      refine readsBack_of_token m.maps (token_of_regular ?_ ?_ hregular)
      · rintro hnil
        rw [hnil] at h
        cases h
      · exact fun c hc => Text.not_blank_of_identifier h hc

theorem keyword_readsBack_iff_regular :
    Text.isIdentifier "λ+1".toList = true ∧
    (∃ after, read (.standard false) (.ofChars (':' :: Quoted.write "λ+1".toList)) =
      (.ok (some (.keyword "λ+1")), after) ∧ after.rest = []) ∧
    ReadsBack MapStore.empty (.keyword "λ+1") := by
  have hid : Text.isIdentifier "λ+1".toList = true := by decide +kernel
  have hregular : ¬ Misread "λ+1".toList := by
    rintro (hmem | ⟨digit, more, heq, -⟩)
    · exact absurd hmem (by decide)
    · obtain ⟨hfirst, -⟩ := List.cons.inj heq
      exact absurd hfirst (by decide)
  obtain ⟨hread, -, hback⟩ :=
    keyword_readsBack_iff "λ+1" hid false ⟨.initial, fun _ => .unknown⟩ .blank
  exact ⟨hid, hread, hback.mpr hregular⟩

/-- An apostrophe ends the keyword early, and a name that begins like a number is read as one. -/
theorem primed_keyword_cut :
    Text.isIdentifier "x\x27".toList = true ∧
    read (.standard Settings.initial.preferFloats) (.ofText ":\"x\x27\"") =
      (.ok (some (.keyword "x\x27")), ⟨[], 5, 1⟩) ∧
    MapStore.empty.text .readable (.keyword "x\x27") = ":x\x27" ∧
    read (.standard Settings.initial.preferFloats) (.ofText ":x\x27") =
      (.ok (some (.keyword "x")), ⟨['\x27'], 2, 1⟩) ∧
    ¬ ReadsBack MapStore.empty (.keyword "x\x27") ∧
    Text.isIdentifier "+1".toList = true ∧
    read (.standard Settings.initial.preferFloats) (.ofText ":+1") =
      (.error (.malformedText ⟨1, 0⟩ (.keywordName "1")), ⟨[], 3, 1⟩) := by
  have hid : Text.isIdentifier "x\x27".toList = true := by decide +kernel
  refine ⟨hid, by rfl, by rfl, by rfl, fun hback => ?_, by decide +kernel, by rfl⟩
  exact (token_of_readsBack hid hback).regular (.inl ⟨'\x27', by decide, by decide⟩)

end Reader

end TableLisp

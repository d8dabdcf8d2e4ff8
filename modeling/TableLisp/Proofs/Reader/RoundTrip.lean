import Mathlib.Data.List.Forall2
import TableLisp.Proofs.Reader.Completeness
import TableLisp.Settings.Basic

/-! What is printed can be read back. The readable text of a datum without floats, functions and
tables is one of the texts that denote it, so reading it gives the datum and leaves what follows. -/

namespace TableLisp

namespace Text

theorem hexValue?_digitChar {k : Nat} (h : k < 10) : hexValue? k.digitChar = some k := by
  revert k
  decide

theorem isDecimal_digitChar {k : Nat} (h : k < 10) : isDecimal k.digitChar = true := by
  simp [isDecimal, isDigitOf, digitValue?, hexValue?_digitChar h, h]

theorem ofDigits_append_digitChar (digits : List Char) {k : Nat} (h : k < 10) :
    ofDigits 10 (digits ++ [k.digitChar]) = ofDigits 10 digits * 10 + k := by
  simp [ofDigits, hexValue?_digitChar h]

theorem ofDigits_decimalDigits (n : Nat) : ofDigits 10 (decimalDigits n) = n := by
  unfold decimalDigits
  induction n using Nat.base_induction 10 (by decide) with
  | single m hm =>
    rw [Nat.toDigits_of_lt_base hm]
    simpa [ofDigits] using ofDigits_append_digitChar [] hm
  | digit m k hk hm ih =>
    rw [← Nat.toDigits_append_toDigits (by decide) hm hk, Nat.toDigits_of_lt_base hk,
      ofDigits_append_digitChar _ hk, ih]
    omega

theorem isDecimal_of_mem_decimalDigits {n : Nat} {c : Char} (h : c ∈ decimalDigits n) :
    isDecimal c = true := by
  unfold decimalDigits at h
  induction n using Nat.base_induction 10 (by decide) with
  | single m hm =>
    rw [Nat.toDigits_of_lt_base hm, List.mem_singleton] at h
    rw [h]
    exact isDecimal_digitChar hm
  | digit m k hk hm ih =>
    rw [← Nat.toDigits_append_toDigits (by decide) hm hk, Nat.toDigits_of_lt_base hk,
      List.mem_append, List.mem_singleton] at h
    rcases h with h | h
    · exact ih h
    · rw [h]
      exact isDecimal_digitChar hk

theorem eq_zero_of_head_decimalDigits {n : Nat} (h : (decimalDigits n).head? = some '0') :
    n = 0 := by
  unfold decimalDigits at h
  induction n using Nat.base_induction 10 (by decide) with
  | single m hm =>
    rw [Nat.toDigits_of_lt_base hm] at h
    revert m
    decide
  | digit m k hk hm ih =>
    rw [← Nat.toDigits_append_toDigits (by decide) hm hk,
      List.head?_append_of_ne_nil _ Nat.toDigits_ne_nil] at h
    have := ih h
    omega

end Text

namespace Numeral

theorem unsigned_decimalDigits (negative wide : Bool) (n : Nat) :
    Unsigned false negative (Text.decimalDigits n ++ suffixText wide)
      (ofValue wide (signed negative n)) := by
  obtain ⟨first, more, hdigits⟩ := List.exists_cons_of_ne_nil
    (show Text.decimalDigits n ≠ [] from Nat.toDigits_ne_nil)
  have hdecimal : ∀ c ∈ first :: more, Text.isDecimal c = true := by
    intro c hc
    exact Text.isDecimal_of_mem_decimalDigits (hdigits ▸ hc)
  have hzero : first = '0' → more = [] := by
    rintro rfl
    have hn : n = 0 := Text.eq_zero_of_head_decimalDigits (by rw [hdigits]; rfl)
    subst hn
    exact (List.cons.inj hdigits).2.symm
  have hspelled : Unsigned false negative _ _ := .decimal wide (hdecimal first (by simp))
    (fun c hc => hdecimal c (by simp [hc])) hzero
  rw [← hdigits, Text.ofDigits_decimalDigits] at hspelled
  rw [hdigits]
  simpa using hspelled

theorem spelled_integerText (wide : Bool) (n : Int) :
    Spelled false (Text.integerText n ++ suffixText wide) (ofValue wide n) := by
  cases n with
  | ofNat m => exact .unsigned (unsigned_decimalDigits false wide m)
  | negSucc m => exact .minus (unsigned_decimalDigits true wide (m + 1))

theorem ofInt_toInt (n : Int64) : ofInt n.toInt = .int n := by
  have hrange : Int64.minValue.toInt ≤ n.toInt ∧ n.toInt ≤ Int64.maxValue.toInt :=
    ⟨Int64.minValue_le_toInt n, Int64.toInt_le n⟩
  rw [ofInt, if_pos hrange, Int64.ofInt_toInt]

end Numeral

namespace Reader

theorem ofHexCode?_hexCode {c : Char} (h : Text.isControl c = true) :
    Text.ofHexCode? (Text.hexCode c.toNat) = some c := by
  have hcodes : ∀ n < 0xA0, Text.ofHexCode? (Text.hexCode n) = some (Char.ofNat n) := by
    decide +kernel
  have hlt : c.toNat < 0xA0 := by
    simp only [Text.isControl, Bool.or_eq_true, Bool.and_eq_true, decide_eq_true_eq] at h
    omega
  rw [hcodes c.toNat hlt, Char.ofNat_toNat]

theorem not_delimiter_of_hexDigit {c : Char} (h : Text.isDigitOf 16 c = true) :
    isDelimiter c = false := by
  cases hc : isDelimiter c with
  | false => rfl
  | true => simp [Text.isDigitOf, Text.digitValue?, hexValue?_of_isDelimiter hc] at h

theorem denotes_charLiteral {floats : Bool} (c : Char) :
    Denotes floats true (charLiteral c) (.char c) := by
  unfold charLiteral
  split
  · rename_i name d hfind
    have hd : d = c := by simpa using List.find?_some hfind
    subst hd
    have hmem := mem_namedChars_iff.mp (List.mem_of_find?_eq_some hfind)
    have htokens : ∀ entry ∈ charNames, Token entry.1.toList := by decide
    have htoken : Token name.toList := htokens _ hmem
    obtain ⟨first, more, hname⟩ := List.exists_cons_of_ne_nil htoken.ne_nil
    have hlit : CharLiteral name.toList d := .named hmem
    rw [hname] at hlit ⊢
    exact .character (fun e he => htoken.free e (by simp [hname, he])) hlit
  · split
    · rename_i hcontrol
      obtain ⟨hlen, hcode⟩ := Text.ofHexCode?_eq_some_iff.mp (ofHexCode?_hexCode hcontrol)
      refine .character (fun d hd => ?_) (.code hlen hcode)
      exact not_delimiter_of_hexDigit (hcode.isDigitOf d hd)
    · exact .character (by simp) (.single c)

end Reader

namespace Reader

/-- Data that can be read back: there are no floats, functions or tables in them, a name is one that
the reader makes of its text, and no two keys of a map are equal. -/
inductive Printable : Datum → Prop where
  | nil : Printable .nil
  | bool (b : Bool) : Printable (.bool b)
  | int (n : Int64) : Printable (.int n)
  | big (n : Int) : Printable (.big n)
  | char (c : Char) : Printable (.char c)
  | string (text : String) : Printable (.string text)
  | symbol {s : Symbol} : Token s.name.toList → s.name ≠ "nil" → s.name ≠ "true" →
      s.name ≠ "false" → s = .ofName s.name → Printable (.symbol s)
  | keyword {name : String} : Token name.toList → Printable (.keyword name)
  | list {items : List Datum} : (∀ item ∈ items, Printable item) → Printable (.list items)
  | vector {items : List Datum} : (∀ item ∈ items, Printable item) → Printable (.vector items)
  | map {entries : Entries} : (∀ entry ∈ entries, Printable entry.1) →
      (∀ entry ∈ entries, Printable entry.2) →
      (entries.Pairwise fun e later => Datum.equalFixed later.1 e.1 = false) →
      Printable (.map entries)

section

variable {floats : Bool} {texts : List (List Char)} {items : List Datum} {layout text : List Char}

theorem Items.behind (h : Items (Denotes floats) text items) (hl : Layout layout) :
    Items (Denotes floats) (layout ++ text) items := by
  cases h with
  | nil hl' => exact .nil (hl.append hl')
  | cons hl' hd hopen hrest =>
    rw [← List.append_assoc]
    exact .cons (hl.append hl') hd hopen hrest

theorem items_spaced (h : List.Forall₂ (fun text d => ∃ openEnded, Denotes floats openEnded text d)
    texts items) : Items (Denotes floats) (spaced texts) items := by
  induction h with
  | nil => exact .nil .nil
  | @cons text d texts items hd hrest ih =>
    obtain ⟨openEnded, hd⟩ := hd
    cases texts with
    | nil =>
      cases hrest
      have hlast : Items (Denotes floats) ([] ++ (text ++ [])) [d] :=
        .cons .nil hd (fun _ c hc => by cases hc) (.nil .nil)
      simpa [spaced] using hlast
    | cons next more =>
      have hspace : Layout [' '] := .blank (by decide) .nil
      have hitems : Items (Denotes floats) ([] ++ (text ++ ([' '] ++ spaced (next :: more))))
          (d :: items) :=
        .cons .nil hd (fun _ => delimited_cons (by decide)) (ih.behind hspace)
      simpa [spaced] using hitems

/-- The readable text of a datum denotes it. -/
def Denoted (tableText : TableId → List Char) (d : Datum) : Prop :=
  ∃ openEnded, Denotes false openEnded (d.textWith .readable tableText) d

theorem items_itemTexts {tableText : TableId → List Char}
    (h : ∀ item ∈ items, Denoted tableText item) :
    Items (Denotes false) (spaced (Datum.itemTexts .readable tableText items)) items := by
  apply items_spaced
  induction items with
  | nil => exact .nil
  | cons item more ih =>
    rw [Datum.itemTexts]
    exact .cons (h item (by simp)) (ih fun x hx => h x (by simp [hx]))

theorem items_entryTexts {tableText : TableId → List Char} {entries : Entries}
    (hkeys : ∀ entry ∈ entries, Denoted tableText entry.1)
    (hvalues : ∀ entry ∈ entries, Denoted tableText entry.2) :
    Items (Denotes false) (spaced (Datum.entryTexts .readable tableText entries))
      (Entries.inTurn entries) := by
  apply items_spaced
  induction entries with
  | nil => exact .nil
  | cons entry more ih =>
    rw [Datum.entryTexts]
    exact .cons (hkeys entry (by simp)) (.cons (hvalues entry (by simp))
      (ih (fun x hx => hkeys x (by simp [hx])) (fun x hx => hvalues x (by simp [hx]))))

theorem denoted_of_printable {e : Datum} (h : Printable e) (tableText : TableId → List Char) :
    Denoted tableText e := by
  unfold Denoted
  induction h with
  | nil =>
    rw [Datum.textWith]
    exact ⟨true, .nil⟩
  | bool b =>
    rw [Datum.textWith]
    exact ⟨true, .bool b⟩
  | int n =>
    have hnumber := Denotes.number
      (Numeral.literal_of_spelled (Numeral.spelled_integerText false n.toInt))
    simp only [Numeral.suffixText, Numeral.ofValue, Numeral.ofInt_toInt, Bool.false_eq_true,
      if_false, List.append_nil] at hnumber
    rw [Datum.textWith]
    exact ⟨true, hnumber⟩
  | big n =>
    rw [Datum.textWith]
    exact ⟨true, .number (Numeral.literal_of_spelled (Numeral.spelled_integerText true n))⟩
  | char c =>
    rw [Datum.textWith]
    exact ⟨true, denotes_charLiteral c⟩
  | string text =>
    have hstring : Denotes false false _ _ :=
      .string (Quoted.spells_flatMap_writeChar text.toList)
    rw [String.ofList_toList] at hstring
    rw [Datum.textWith]
    exact ⟨false, hstring⟩
  | @symbol s ht hnil htrue hfalse hs =>
    have hne : ∀ name : String, s.name ≠ name → s.name.toList ≠ name.toList := by
      intro name hname heq
      exact hname (String.toList_inj.mp heq)
    have hspecial : (∃ form, s = .special form) ↔ ∃ form : SpecialForm, form.name = s.name := by
      rw [hs, Symbol.name_ofName]
      exact special_iff_ofName _
    rw [Datum.textWith]
    exact ⟨true, .symbol ht (hne _ hnil) (hne _ htrue) (hne _ hfalse) rfl hspecial⟩
  | @keyword name ht =>
    have hkeyword : Denotes false true _ _ := .keyword .nil ht
    rw [String.ofList_toList] at hkeyword
    rw [Datum.textWith]
    exact ⟨true, hkeyword⟩
  | list _ ih =>
    rw [Datum.textWith]
    exact ⟨false, .list (items_itemTexts ih)⟩
  | vector _ ih =>
    rw [Datum.textWith]
    exact ⟨false, .vector (items_itemTexts ih)⟩
  | @map entries _ _ hdistinct ihkeys ihvalues =>
    have hitems := items_entryTexts ihkeys ihvalues
    have hkeys : ∀ e ∈ entries, e.1.Fixed := fun e he =>
      hitems.fixed e.1 (List.mem_flatMap.mpr ⟨e, he, by simp⟩)
    have hentries : Entries.Literal (Entries.inTurn entries) entries := by
      refine Entries.literal_of_distinct (hdistinct.imp_of_mem fun he hlater hne hsame => ?_)
      rw [← Datum.equalFixed_iff_same (hkeys _ hlater) (hkeys _ he), hne] at hsame
      cases hsame
    rw [Datum.textWith]
    exact ⟨false, .map hitems hentries⟩

end

/-- Print, then read: the datum comes back, its printed characters are consumed, and what follows is
left, if that is nothing or begins with a delimiter. -/
theorem read_printed {e : Datum} (he : Printable e) (tableText : TableId → List Char)
    {rest : List Char} (hrest : Delimited rest) :
    ∃ after, read (.standard Settings.initial.preferFloats)
        (.ofChars (e.textWith .readable tableText ++ rest)) = (.ok (some e), after) ∧
      after.rest = rest ∧ after.offset = (e.textWith .readable tableText).length := by
  obtain ⟨openEnded, hd⟩ := denoted_of_printable he tableText
  obtain ⟨line, hread⟩ := reads_of_denotes hd rest
    ((e.textWith .readable tableText ++ rest).length + 1) 0 1 (fun _ => hrest)
    (by rw [List.length_append]; omega)
  exact ⟨_, read_eq_some_iff.mpr hread, rfl, Nat.zero_add _⟩

theorem read_printed_map :
    ∃ after, read (.standard Settings.initial.preferFloats)
        (.ofChars "\x7b:k (def -7)\x7d)".toList) =
      (.ok (some (.map [(.keyword "k", .list [.symbol (.special .define), .int (-7)])])), after) ∧
      after.rest = [')'] ∧ after.offset = 13 := by
  have hkeyword : Printable (.keyword "k") := .keyword (by decide)
  have hsymbol : Printable (.symbol (.special .define)) :=
    .symbol (by decide) (by decide) (by decide) (by decide) (by decide)
  have hlist : Printable (.list [.symbol (.special .define), .int (-7)]) :=
    .list (by simp [hsymbol, Printable.int])
  have hmap : Printable (.map [(.keyword "k", .list [.symbol (.special .define), .int (-7)])]) :=
    .map (by simp [hkeyword]) (by simp [hlist]) (List.pairwise_singleton _ _)
  exact read_printed hmap (fun _ => []) (delimited_cons (by decide))

end Reader

end TableLisp

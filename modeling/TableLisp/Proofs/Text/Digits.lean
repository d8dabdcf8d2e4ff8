import Mathlib.Data.List.Forall2
import Mathlib.Data.List.Induction
import Mathlib.Data.Nat.Digits.Defs
import TableLisp.Text.Digit

/-! Digits, by a table, and the numbers that runs of them stand for, by the powers of the radix. What
the text functions answer about digits and codes is stated in these terms. -/

namespace TableLisp.Text

/-- The digits of the radixes up to sixteen and their values. -/
def digitValues : List (Char × Nat) :=
  "0123456789abcdef".toList.zipIdx ++ "ABCDEF".toList.zipIdx 10

/-- Each digit stands for its multiple of a power of the radix, the last for that of one. -/
def Positional (radix : Nat) (digits : List Char) (n : Nat) : Prop :=
  ∃ values, List.Forall₂ (fun c v => (c, v) ∈ digitValues ∧ v < radix) digits values ∧
    n = Nat.ofDigits radix values.reverse

variable {digits : List Char} {c : Char} {radix n v : Nat}

theorem hexValue?_eq_some_iff : hexValue? c = some v ↔ (c, v) ∈ digitValues := by
  constructor
  · intro h
    have hascii : ∀ n < 128, ∀ v ∈ hexValue? (Char.ofNat n), (Char.ofNat n, v) ∈ digitValues := by
      decide
    have hlt : c.toNat < 128 := by
      have hle : ∀ last : Char, c ≤ last → c.toNat ≤ last.toNat := fun _ h => h
      unfold hexValue? at h
      split at h
      · exact Nat.lt_of_le_of_lt (hle '9' (by simp_all)) (by decide)
      · split at h
        · exact Nat.lt_of_le_of_lt (hle 'f' (by simp_all)) (by decide)
        · split at h
          · exact Nat.lt_of_le_of_lt (hle 'F' (by simp_all)) (by decide)
          · cases h
    simpa using hascii c.toNat hlt v (by simpa using h)
  · intro h
    have hall : ∀ e ∈ digitValues, hexValue? e.1 = some e.2 := by decide
    exact hall (c, v) h

theorem isDigitOf_iff : isDigitOf radix c = true ↔ ∃ v, (c, v) ∈ digitValues ∧ v < radix := by
  simp only [isDigitOf, digitValue?, Option.isSome_iff_exists, Option.filter_eq_some_iff,
    hexValue?_eq_some_iff, decide_eq_true_eq]

/-- Digits read one after the other come to what their values come to in the radix. -/
theorem ofDigits_eq_ofDigits (radix : Nat) (digits : List Char) : ofDigits radix digits =
    Nat.ofDigits radix (digits.reverse.map fun c => (hexValue? c).getD 0) := by
  induction digits using List.reverseRecOn with
  | nil => rfl
  | append_singleton digits c ih =>
    simp only [ofDigits, List.foldl_append, List.foldl_cons, List.foldl_nil, List.reverse_append,
      List.reverse_singleton, List.singleton_append, List.map_cons, Nat.ofDigits_cons] at ih ⊢
    rw [ih, Nat.mul_comm, Nat.add_comm]

theorem positional_iff : Positional radix digits n ↔
    (∀ c ∈ digits, isDigitOf radix c = true) ∧ ofDigits radix digits = n := by
  constructor
  · rintro ⟨values, hvalues, rfl⟩
    have hmap : (∀ c ∈ digits, isDigitOf radix c = true) ∧
        values = digits.map fun c => (hexValue? c).getD 0 := by
      induction hvalues with
      | nil => exact ⟨by simp, rfl⟩
      | cons hv _ ih =>
        refine ⟨List.forall_mem_cons.mpr ⟨isDigitOf_iff.mpr ⟨_, hv⟩, ih.1⟩, ?_⟩
        rw [List.map_cons, ← ih.2, hexValue?_eq_some_iff.mpr hv.1]
        rfl
    refine ⟨hmap.1, ?_⟩
    rw [ofDigits_eq_ofDigits, hmap.2, List.map_reverse]
  · rintro ⟨hdigits, rfl⟩
    refine ⟨digits.map fun c => (hexValue? c).getD 0, ?_, ?_⟩
    · rw [List.forall₂_map_right_iff, List.forall₂_same]
      intro c hc
      obtain ⟨v, hv, hlt⟩ := isDigitOf_iff.mp (hdigits c hc)
      rw [hexValue?_eq_some_iff.mpr hv]
      exact ⟨hv, hlt⟩
    · rw [ofDigits_eq_ofDigits, List.map_reverse]

theorem Positional.isDigitOf (h : Positional radix digits n) :
    ∀ c ∈ digits, isDigitOf radix c = true := (positional_iff.mp h).1

theorem Positional.ofDigits_eq (h : Positional radix digits n) : ofDigits radix digits = n :=
  (positional_iff.mp h).2

theorem positional_ofDigits (h : ∀ c ∈ digits, isDigitOf radix c = true) :
    Positional radix digits (ofDigits radix digits) := positional_iff.mpr ⟨h, rfl⟩

theorem Positional.lt (h : Positional radix digits n) (hradix : 1 < radix) :
    n < radix ^ digits.length := by
  obtain ⟨hdigits, rfl⟩ := positional_iff.mp h
  have hvalue : ∀ v ∈ digits.reverse.map fun c => (hexValue? c).getD 0, v < radix := by
    intro v hv
    obtain ⟨c, hc, rfl⟩ := List.mem_map.mp hv
    obtain ⟨v, hv, hlt⟩ := isDigitOf_iff.mp (hdigits c (List.mem_reverse.mp hc))
    rwa [hexValue?_eq_some_iff.mpr hv]
  have hlt := Nat.ofDigits_lt_base_pow_length hradix hvalue
  rwa [← ofDigits_eq_ofDigits, List.length_map, List.length_reverse] at hlt

theorem ofHexCode?_eq_some_iff :
    ofHexCode? digits = some c ↔ digits.length = 4 ∧ Positional 16 digits c.toNat := by
  rw [positional_iff]
  unfold ofHexCode?
  constructor
  · intro h
    split at h
    · rename_i hd
      dsimp only at h
      split at h
      · rename_i hvalid
        cases h
        refine ⟨hd.1, List.all_eq_true.mp hd.2, ?_⟩
        rw [Char.ofNat, dif_pos hvalid]
        rfl
      · cases h
    · cases h
  · rintro ⟨hlen, hd, hcode⟩
    have hvalid : c.toNat.isValidChar := c.valid
    rw [if_pos ⟨hlen, List.all_eq_true.mpr hd⟩, hcode]
    simp only [hvalid, if_true, Char.ofNat_toNat]

theorem ofHexCode?_eq_none_iff (hlen : digits.length = 4) (h : Positional 16 digits n) :
    ofHexCode? digits = none ↔ 0xD800 ≤ n ∧ n ≤ 0xDFFF := by
  obtain ⟨hd, rfl⟩ := positional_iff.mp h
  have hlt := h.lt (by decide)
  rw [hlen] at hlt
  simp only [ofHexCode?, hlen, List.all_eq_true.mpr hd, and_self, if_true]
  unfold Nat.isValidChar
  split <;> simp <;> omega

end TableLisp.Text

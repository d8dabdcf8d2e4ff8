import Mathlib.Algebra.Order.Field.Power
import Mathlib.Algebra.Order.Ring.Rat
import Mathlib.Tactic.FieldSimp
import Mathlib.Tactic.Linarith
import Mathlib.Tactic.LinearCombination
import Mathlib.Tactic.NormNum
import Mathlib.Tactic.Positivity
import Mathlib.Tactic.Ring
import TableLisp.Number.Binary64

/-! What fractions and decimals are rounded to: the nearest number of the format, and of two that are
as near the even one. Infinity takes part as the power of two behind the largest number. A rounded
significand lies between the middles to its two neighbours, which decides the matter, since values
grow with the bits below the sign. -/

namespace TableLisp.Binary64

/-- What the bits below the sign stand for; those of infinity count as `2 ^ 1024`. -/
def value (m : Nat) : ℚ :=
  if m < 2 ^ 52 then m * 2 ^ (-1074 : ℤ)
  else (2 ^ 52 + (m % 2 ^ 52 : Nat)) * 2 ^ ((m / 2 ^ 52 : Nat) - 1075 : ℤ)

/-- No number without a sign is nearer to `q`, and if another is as near, this is the even one. -/
structure Nearest (q : ℚ) (m : Nat) : Prop where
  le : m ≤ infinite
  nearest : ∀ k ≤ infinite, |value m - q| ≤ |value k - q|
  even : ∀ k ≤ infinite, k ≠ m → |value m - q| = |value k - q| → m % 2 = 0

theorem value_magnitude (x : Binary64) : value x.magnitude = x.significand * 2 ^ x.exponent := by
  unfold value significand exponent
  simp only [Nat.pow_eq]
  split
  · rfl
  · push_cast
    rfl

variable {q : ℚ} {k m s num den : Nat}

/-- The powers of two that significands count, from the smallest on. -/
def unit (k : Nat) : ℚ := 2 ^ (k - 1074 : ℤ)

theorem unit_pos (k : Nat) : 0 < unit k := by
  unfold unit
  positivity

theorem unit_succ (k : Nat) : unit (k + 1) = 2 * unit k := by
  unfold unit
  rw [← zpow_one_add₀ two_ne_zero]
  congr 1
  push_cast
  ring

/-- A significand may also be the power of two behind the largest one of 53 bits. -/
theorem value_fields (hs : s ≤ 2 ^ 53) (hk : k = 0 ∨ 2 ^ 52 ≤ s) :
    value (k * 2 ^ 52 + s) = s * unit k := by
  unfold value
  split
  · obtain rfl : k = 0 := by omega
    simp [unit]
  · have hunit : ∀ n : Nat, (2 : ℚ) ^ ((n + 1 : Nat) - 1075 : ℤ) = unit n := by
      intro n
      rw [unit, show ((n + 1 : Nat) - 1075 : ℤ) = n - 1074 by push_cast; ring]
    rcases Nat.eq_or_lt_of_le hs with rfl | hlt
    · rw [show (k * 2 ^ 52 + 2 ^ 53) % 2 ^ 52 = 0 by omega,
        show (k * 2 ^ 52 + 2 ^ 53) / 2 ^ 52 = k + 1 + 1 by omega, hunit, unit_succ]
      push_cast
      ring
    · have hmod : (k * 2 ^ 52 + s) % 2 ^ 52 + 2 ^ 52 = s := by omega
      rw [show (k * 2 ^ 52 + s) / 2 ^ 52 = k + 1 by omega, hunit, add_comm]
      congr 1
      exact_mod_cast hmod

theorem exists_fields (m : Nat) :
    ∃ k s, m = k * 2 ^ 52 + s ∧ s < 2 ^ 53 ∧ (k = 0 ∨ 2 ^ 52 ≤ s) := by
  refine ⟨m / 2 ^ 52 - 1, m - (m / 2 ^ 52 - 1) * 2 ^ 52, ?_, ?_, ?_⟩ <;> omega

theorem strictMono_value : StrictMono value := by
  refine strictMono_nat_of_lt_succ fun m => ?_
  obtain ⟨k, s, rfl, hs, hk⟩ := exists_fields m
  have hunit := unit_pos k
  rw [Nat.add_assoc, value_fields hs.le hk, value_fields hs (by omega)]
  push_cast
  linarith

theorem value_infinite : value infinite = 2 ^ 1024 := by
  have hfields : infinite = 2046 * 2 ^ 52 + 2 ^ 52 := by decide
  rw [hfields, value_fields (by norm_num) (by omega), unit,
    show ((2046 : Nat) - 1074 : ℤ) = (972 : Nat) by norm_num, zpow_natCast, Nat.cast_pow,
    Nat.cast_ofNat, ← pow_add]

section

variable {a b : ℚ}

theorem abs_sub_le_iff_of_lt (h : a < b) :
    (|a - q| ≤ |b - q| ↔ 2 * q ≤ a + b) ∧ (|b - q| ≤ |a - q| ↔ a + b ≤ 2 * q) := by
  have hpos : 0 < b - a := sub_pos.mpr h
  rw [← sq_le_sq, ← sq_le_sq]
  refine ⟨⟨fun hle => ?_, fun hle => ?_⟩, fun hle => ?_, fun hle => ?_⟩ <;> nlinarith

end

/-- Between the middles to the two neighbours, if there are such; a middle belongs to the even one. -/
structure Between (q : ℚ) (m : Nat) : Prop where
  le : m ≤ infinite
  low : ∀ k, m = k + 1 → value k + value m ≤ 2 * q ∧ (value k + value m = 2 * q → m % 2 = 0)
  high : m < infinite →
    2 * q ≤ value m + value (m + 1) ∧ (2 * q = value m + value (m + 1) → m % 2 = 0)

theorem Between.nearest (h : Between q m) : Nearest q m := by
  -- the middle to a number further off lies further off
  have hbelow : ∀ k < m, value k + value m ≤ 2 * q ∧ (value k + value m = 2 * q → m % 2 = 0) := by
    intro k hk
    obtain ⟨n, rfl⟩ := Nat.exists_eq_add_one_of_ne_zero (Nat.ne_zero_of_lt hk)
    obtain ⟨hlow, heven⟩ := h.low n rfl
    have hle : value k ≤ value n := strictMono_value.monotone (Nat.le_of_lt_succ hk)
    exact ⟨by linarith, fun htie => heven (by linarith)⟩
  have habove : ∀ k ≤ infinite, m < k →
      2 * q ≤ value m + value k ∧ (2 * q = value m + value k → m % 2 = 0) := by
    intro k hk hlt
    obtain ⟨hhigh, heven⟩ := h.high (Nat.lt_of_lt_of_le hlt hk)
    have hle : value (m + 1) ≤ value k := strictMono_value.monotone hlt
    exact ⟨by linarith, fun htie => heven (by linarith)⟩
  refine ⟨h.le, fun k hk => ?_, fun k hk hne htie => ?_⟩
  · rcases Nat.lt_trichotomy k m with hlt | rfl | hlt
    · exact (abs_sub_le_iff_of_lt (strictMono_value hlt)).2.mpr (hbelow k hlt).1
    · exact le_rfl
    · exact (abs_sub_le_iff_of_lt (strictMono_value hlt)).1.mpr (habove k hk hlt).1
  · rcases Nat.lt_or_gt_of_ne hne with hlt | hlt
    · have hge := (abs_sub_le_iff_of_lt (strictMono_value hlt)).1.mp htie.ge
      exact (hbelow k hlt).2 (le_antisymm (hbelow k hlt).1 hge)
    · have hge := (abs_sub_le_iff_of_lt (strictMono_value hlt)).2.mp htie.ge
      exact (habove k hk hlt).2 (le_antisymm (habove k hk hlt).1 hge)

theorem nearest_zero (h : 2 * q < 2 ^ (-1074 : ℤ)) : Nearest q 0 := by
  have hvalue : value 0 = 0 ∧ value 1 = 2 ^ (-1074 : ℤ) := by simp [value]
  refine Between.nearest ⟨Nat.zero_le _, fun k hk => absurd hk.symm k.succ_ne_zero, fun _ => ?_⟩
  rw [Nat.zero_add, hvalue.1, hvalue.2]
  exact ⟨by linarith, fun _ => rfl⟩

theorem nearest_infinite (h : value infinite ≤ q) : Nearest q infinite := by
  refine Between.nearest ⟨Nat.le_refl _, fun k hk => ?_, fun hlt => absurd hlt (Nat.lt_irrefl _)⟩
  have hless : value k < value infinite := strictMono_value (by omega)
  exact ⟨by linarith, fun htie => absurd htie (by linarith)⟩

/-- There is one nearest number: of two that are as near both would be even, and the one between
them would be nearer. -/
theorem Nearest.unique {m' : Nat} (h : Nearest q m) (h' : Nearest q m') : m = m' := by
  have hnot : ∀ {m m'}, Nearest q m → Nearest q m' → ¬ m < m' := by
    intro m m' h h' hlt
    have htie : |value m - q| = |value m' - q| :=
      le_antisymm (h.nearest m' h'.le) (h'.nearest m h.le)
    have heven := h.even m' h'.le hlt.ne' htie
    have heven' := h'.even m h.le hlt.ne htie.symm
    have hmiddle := (abs_sub_le_iff_of_lt (strictMono_value hlt)).2.mp htie.ge
    have hnext := (abs_sub_le_iff_of_lt (strictMono_value m.lt_succ_self)).1.mp
      (h.nearest (m + 1) (hlt.trans_le h'.le))
    have hless : value (m + 1) < value m' := strictMono_value (by omega)
    linarith
  exact Nat.le_antisymm (Nat.not_lt.mp (hnot h' h)) (Nat.not_lt.mp (hnot h h'))

/-- A quotient is rounded by a half at most, and by a half to an even number only. -/
theorem mul_roundDiv_bounds (num : Nat) (hden : 0 < den) :
    2 * den * roundDiv num den ≤ 2 * num + den ∧ 2 * num ≤ 2 * den * roundDiv num den + den ∧
      (2 * den * roundDiv num den = 2 * num + den ∨ 2 * num = 2 * den * roundDiv num den + den →
        roundDiv num den % 2 = 0) := by
  have hsplit := Nat.div_add_mod num den
  have hlt := Nat.mod_lt num hden
  unfold roundDiv
  generalize num / den = d, num % den = r at *
  have hnext : 2 * den * (d + 1) = 2 * (den * d) + 2 * den := by ring
  have hsame : 2 * den * d = 2 * (den * d) := by ring
  dsimp only
  split
  · rw [hsame]
    omega
  · split
    · rw [hnext]
      omega
    · rcases Nat.mod_two_eq_zero_or_one d with heven | hodd
      · rw [heven, Nat.add_zero, hsame]
        omega
      · rw [hodd, hnext]
        omega

theorem roundDiv_spec (num : Nat) (hden : 0 < den) :
    2 * (roundDiv num den : ℚ) ≤ 2 * (num / den) + 1 ∧
      2 * (num / den : ℚ) ≤ 2 * roundDiv num den + 1 ∧
      (2 * (roundDiv num den : ℚ) = 2 * (num / den) + 1 ∨
        2 * (num / den : ℚ) = 2 * roundDiv num den + 1 → roundDiv num den % 2 = 0) := by
  have hpos : (0 : ℚ) < den := by exact_mod_cast hden
  have hcast : (num / den : ℚ) * den = num := div_mul_cancel₀ _ hpos.ne'
  obtain ⟨hlow, hhigh, heven⟩ := mul_roundDiv_bounds num hden
  have hlow' : 2 * (den : ℚ) * roundDiv num den ≤ 2 * num + den := by exact_mod_cast hlow
  have hhigh' : 2 * (num : ℚ) ≤ 2 * den * roundDiv num den + den := by exact_mod_cast hhigh
  refine ⟨le_of_mul_le_mul_right ?_ hpos, le_of_mul_le_mul_right ?_ hpos, fun htie => heven ?_⟩
  · linarith
  · linarith
  · rcases htie with htie | htie
    · left
      have hscaled : 2 * (den : ℚ) * roundDiv num den = 2 * num + den := by
        linear_combination den * htie + 2 * hcast
      exact_mod_cast hscaled
    · right
      have hscaled : 2 * (num : ℚ) = 2 * den * roundDiv num den + den := by
        linear_combination den * htie - 2 * hcast
      exact_mod_cast hscaled

theorem zpow_eq_div {b : ℚ} (hb : b ≠ 0) (k : ℤ) : b ^ k = b ^ k.toNat / b ^ (-k).toNat := by
  rw [← zpow_natCast, ← zpow_natCast, ← zpow_sub₀ hb]
  congr 1
  omega

theorem log2_spec (h : num ≠ 0) :
    (2 : ℚ) ^ (num.log2 : ℤ) ≤ num ∧ (num : ℚ) < 2 ^ (num.log2 + 1 : ℤ) := by
  have hlow := Nat.log2_self_le h
  have hhigh := Nat.lt_log2_self (n := num)
  exact_mod_cast And.intro hlow hhigh

theorem ratioLog_spec (hnum : num ≠ 0) (hden : den ≠ 0) :
    2 ^ ratioLog num den ≤ (num / den : ℚ) ∧ (num / den : ℚ) < 2 ^ (ratioLog num den + 1) := by
  obtain ⟨hnumLow, hnumHigh⟩ := log2_spec hnum
  obtain ⟨hdenLow, hdenHigh⟩ := log2_spec hden
  have hpos : (0 : ℚ) < den := by positivity
  let k : ℤ := num.log2 - den.log2
  have hunit : (0 : ℚ) < 2 ^ k := by positivity
  have hup : (num / den : ℚ) < 2 ^ (k + 1) := by
    rw [div_lt_iff₀ hpos]
    calc (num : ℚ) < 2 ^ (num.log2 + 1 : ℤ) := hnumHigh
      _ = 2 ^ (k + 1) * 2 ^ (den.log2 : ℤ) := by
        rw [← zpow_add₀ two_ne_zero]
        congr 1
        omega
      _ ≤ 2 ^ (k + 1) * den := by gcongr
  have hdown : 2 ^ (k - 1) ≤ (num / den : ℚ) := by
    rw [le_div_iff₀ hpos]
    calc (2 : ℚ) ^ (k - 1) * den ≤ 2 ^ (k - 1) * 2 ^ (den.log2 + 1 : ℤ) := by gcongr
      _ = 2 ^ (num.log2 : ℤ) := by
        rw [← zpow_add₀ two_ne_zero]
        congr 1
        omega
      _ ≤ num := hnumLow
  have htest : den * Nat.pow 2 k.toNat ≤ num * Nat.pow 2 (-k).toNat ↔ 2 ^ k ≤ (num / den : ℚ) := by
    have hscale : (0 : ℚ) < 2 ^ (-k).toNat := by positivity
    rw [zpow_eq_div two_ne_zero, div_le_div_iff₀ hscale hpos, mul_comm den]
    simp only [Nat.pow_eq]
    exact_mod_cast Iff.rfl
  unfold ratioLog
  dsimp only
  split
  · exact ⟨htest.mp ‹_›, hup⟩
  · rw [sub_add_cancel]
    exact ⟨hdown, not_le.mp (mt htest.mpr ‹_›)⟩

/-- The middle to the number below. Below the least significand of 53 bits the unit is half as large,
but what is rounded to that significand is no less. -/
theorem below_fields {r : ℚ} (hs : s ≤ 2 ^ 53) (hk : k = 0 ∨ 2 ^ 52 ≤ s)
    (hlow : 2 * (s : ℚ) ≤ 2 * r + 1) (heven : 2 * (s : ℚ) = 2 * r + 1 → s % 2 = 0)
    (hbig : k = 0 ∨ 2 ^ 52 ≤ r) {n : Nat} (hn : k * 2 ^ 52 + s = n + 1) :
    value n + value (k * 2 ^ 52 + s) ≤ 2 * (r * unit k) ∧
      (value n + value (k * 2 ^ 52 + s) = 2 * (r * unit k) → (k * 2 ^ 52 + s) % 2 = 0) := by
  have hunit := unit_pos k
  rw [value_fields hs hk]
  by_cases hleast : k ≠ 0 ∧ s = 2 ^ 52
  · obtain ⟨hne, rfl⟩ := hleast
    obtain ⟨j, rfl⟩ := Nat.exists_eq_add_one_of_ne_zero hne
    obtain rfl : n = j * 2 ^ 52 + (2 ^ 53 - 1) := by omega
    have hr : 2 ^ 52 ≤ r := hbig.resolve_left hne
    have hpos := unit_pos j
    have hcast : ((2 ^ 53 - 1 : Nat) : ℚ) = 2 ^ 53 - 1 := by
      rw [Nat.cast_sub (by norm_num)]
      norm_num
    have hless : ((2 ^ 53 - 1 : Nat) : ℚ) * unit j + (2 ^ 52 : Nat) * unit (j + 1) <
        2 * (r * unit (j + 1)) := by
      have hmore : 2 ^ 52 * unit j ≤ r * unit j := mul_le_mul_of_nonneg_right hr hpos.le
      rw [hcast, unit_succ]
      push_cast
      linarith
    rw [value_fields (by norm_num) (by norm_num)]
    exact ⟨hless.le, fun htie => absurd htie hless.ne⟩
  · obtain ⟨t, rfl⟩ : ∃ t, s = t + 1 := ⟨s - 1, by omega⟩
    obtain rfl : n = k * 2 ^ 52 + t := by omega
    rw [value_fields (by omega) (by omega)]
    push_cast at hlow heven ⊢
    refine ⟨by nlinarith, fun htie => ?_⟩
    have hcount : (2 * t + 1 : ℚ) = 2 * r := by
      refine mul_right_cancel₀ hunit.ne' ?_
      linarith
    have := heven (by linarith)
    omega

/-- The middle to the number above. Behind the largest significand of 53 bits the unit is twice as
large. -/
theorem above_fields {r : ℚ} (hs : s ≤ 2 ^ 53) (hk : k = 0 ∨ 2 ^ 52 ≤ s)
    (hhigh : 2 * r ≤ 2 * s + 1) (heven : 2 * r = 2 * s + 1 → s % 2 = 0) :
    2 * (r * unit k) ≤ value (k * 2 ^ 52 + s) + value (k * 2 ^ 52 + s + 1) ∧
      (2 * (r * unit k) = value (k * 2 ^ 52 + s) + value (k * 2 ^ 52 + s + 1) →
        (k * 2 ^ 52 + s) % 2 = 0) := by
  have hunit := unit_pos k
  rw [value_fields hs hk]
  rcases Nat.eq_or_lt_of_le hs with rfl | hlt
  · have hnext : k * 2 ^ 52 + 2 ^ 53 + 1 = (k + 1) * 2 ^ 52 + (2 ^ 52 + 1) := by omega
    have hmost : 2 * r * unit k ≤ (2 * (2 ^ 53 : Nat) + 1) * unit k :=
      mul_le_mul_of_nonneg_right hhigh hunit.le
    have hless : 2 * (r * unit k) <
        (2 ^ 53 : Nat) * unit k + (2 ^ 52 + 1 : Nat) * unit (k + 1) := by
      rw [unit_succ]
      push_cast at hmost ⊢
      linarith
    rw [hnext, value_fields (by norm_num) (by norm_num)]
    exact ⟨hless.le, fun htie => absurd htie hless.ne⟩
  · rw [Nat.add_assoc, value_fields hlt (by omega)]
    push_cast
    refine ⟨by nlinarith, fun htie => ?_⟩
    have hcount : 2 * r = 2 * s + 1 := by
      refine mul_right_cancel₀ hunit.ne' ?_
      linarith
    have := heven hcount
    omega

theorem rounded_bounds {r : ℚ} (hup : r < 2 ^ 53) (hbig : k = 0 ∨ 2 ^ 52 ≤ r)
    (hlow : 2 * (s : ℚ) ≤ 2 * r + 1) (hhigh : 2 * r ≤ 2 * s + 1) :
    s ≤ 2 ^ 53 ∧ (k = 0 ∨ 2 ^ 52 ≤ s) := by
  constructor
  · have hless : 2 * (s : ℚ) < (2 * 2 ^ 53 + 1 : Nat) := by
      push_cast
      linarith
    have : 2 * s < 2 * 2 ^ 53 + 1 := by exact_mod_cast hless
    omega
  · refine hbig.imp_right fun hbig => ?_
    have hmore : ((2 * 2 ^ 52 : Nat) : ℚ) ≤ (2 * s + 1 : Nat) := by
      push_cast
      linarith
    have : 2 * 2 ^ 52 ≤ 2 * s + 1 := by exact_mod_cast hmore
    omega

/-- Where `r` units are rounded to `s`, so many are nearest, but infinity if there are no numbers as
large. -/
theorem nearest_units {r : ℚ} (hup : r < 2 ^ 53) (hbig : k = 0 ∨ 2 ^ 52 ≤ r)
    (hlow : 2 * (s : ℚ) ≤ 2 * r + 1) (hhigh : 2 * r ≤ 2 * s + 1)
    (heven : 2 * (s : ℚ) = 2 * r + 1 ∨ 2 * r = 2 * s + 1 → s % 2 = 0) :
    Nearest (r * unit k) (min (k * 2 ^ 52 + s) infinite) := by
  obtain ⟨hs, hk⟩ := rounded_bounds hup hbig hlow hhigh
  rcases Nat.lt_or_ge infinite (k * 2 ^ 52 + s) with hinfinite | hfinite
  · rw [Nat.min_eq_right hinfinite.le]
    refine nearest_infinite ?_
    have hsize : infinite = 2047 * 2 ^ 52 := by decide
    have hbound : value infinite ≤ value (k * 2 ^ 52 + 2 ^ 52) :=
      strictMono_value.monotone (by omega)
    rw [value_fields (by norm_num) (.inr le_rfl)] at hbound
    have hr : 2 ^ 52 ≤ r := hbig.resolve_left (by omega)
    calc value infinite ≤ (2 ^ 52 : Nat) * unit k := hbound
      _ ≤ r * unit k := mul_le_mul_of_nonneg_right (by exact_mod_cast hr) (unit_pos k).le
  · rw [Nat.min_eq_left hfinite]
    exact Between.nearest ⟨hfinite,
      fun n hn => below_fields hs hk hlow (fun htie => heven (.inl htie)) hbig hn,
      fun _ => above_fields hs hk hhigh fun htie => heven (.inr htie)⟩

/-- The unit in which a fraction is rounded makes its significand one of 53 bits, if there is such a
unit. -/
theorem exists_unit (hnum : num ≠ 0) (hden : den ≠ 0) :
    ∃ k : Nat, max (ratioLog num den - 52) (-1074) = k - 1074 ∧
      (num / den / unit k : ℚ) < 2 ^ 53 ∧ (k = 0 ∨ 2 ^ 52 ≤ (num / den / unit k : ℚ)) := by
  obtain ⟨hlow, hhigh⟩ := ratioLog_spec hnum hden
  obtain ⟨k, hk⟩ : ∃ k : Nat, max (ratioLog num den - 52) (-1074) = k - 1074 :=
    ⟨(max (ratioLog num den - 52) (-1074) + 1074).toNat, by omega⟩
  have hshift : ∀ n : Nat, (2 : ℚ) ^ n * unit k = 2 ^ (n + (k - 1074) : ℤ) := by
    intro n
    rw [unit, ← zpow_natCast, ← zpow_add₀ two_ne_zero]
  refine ⟨k, hk, ?_, ?_⟩
  · rw [div_lt_iff₀ (unit_pos k), hshift]
    refine hhigh.trans_le (zpow_le_zpow_right₀ one_le_two ?_)
    omega
  · by_cases hzero : k = 0
    · exact .inl hzero
    · refine .inr ?_
      rw [le_div_iff₀ (unit_pos k), hshift]
      refine le_trans (zpow_le_zpow_right₀ one_le_two ?_) hlow
      omega

theorem nearest_roundRatio (num : Nat) (hden : 0 < den) :
    Nearest (num / den) (roundRatio num den) := by
  rcases Nat.eq_zero_or_pos num with rfl | hnum
  · have hless : (2 * 0 : ℚ) < 2 ^ (-1074 : ℤ) := by
      rw [mul_zero]
      positivity
    simpa [roundRatio] using nearest_zero hless
  obtain ⟨k, hk, hup, hbig⟩ := exists_unit hnum.ne' hden.ne'
  have hround : roundRatio num den = min (k * 2 ^ 52 + roundDiv
      (num * 2 ^ (-(k - 1074 : ℤ)).toNat) (den * 2 ^ (k - 1074 : ℤ).toNat)) infinite := by
    rw [roundRatio, if_neg hnum.ne']
    dsimp only
    rw [hk, sub_add_cancel, Int.toNat_natCast]
    rfl
  have hscaled : ((num * 2 ^ (-(k - 1074 : ℤ)).toNat : Nat) /
      (den * 2 ^ (k - 1074 : ℤ).toNat : Nat) : ℚ) = num / den / unit k := by
    rw [unit, zpow_eq_div two_ne_zero (k - 1074 : ℤ)]
    push_cast
    field_simp
  have hq : (num / den : ℚ) = num / den / unit k * unit k :=
    (div_mul_cancel₀ _ (unit_pos k).ne').symm
  obtain ⟨hlow, hhigh, heven⟩ := roundDiv_spec (num * 2 ^ (-(k - 1074 : ℤ)).toNat)
    (Nat.mul_pos hden (Nat.two_pow_pos (k - 1074 : ℤ).toNat))
  rw [hscaled] at hlow hhigh heven
  rw [hround, hq]
  exact nearest_units hup hbig hlow hhigh heven

theorem Nearest.lt (h : Nearest q m) : m < 2 ^ 63 := Nat.lt_of_le_of_lt h.le (by decide)

theorem ofMagnitude_spec (negative : Bool) (h : m < 2 ^ 63) :
    (ofMagnitude negative m).magnitude = m ∧ (ofMagnitude negative m).isNegative = negative := by
  cases negative with
  | true =>
    simp only [ofMagnitude, magnitude, isNegative, Nat.pow_eq, UInt64.toNat_ofNat', if_true,
      decide_eq_true_eq]
    constructor <;> omega
  | false =>
    simp only [ofMagnitude, magnitude, isNegative, Nat.pow_eq, UInt64.toNat_ofNat', if_false,
      decide_eq_false_iff_not, Bool.false_eq_true]
    constructor <;> omega

theorem eq_of_magnitude {x y : Binary64} (hmagnitude : x.magnitude = y.magnitude)
    (hsign : x.isNegative = y.isNegative) : x = y := by
  obtain ⟨⟨x⟩⟩ := x
  obtain ⟨⟨y⟩⟩ := y
  have hx := x.isLt
  have hy := y.isLt
  simp only [magnitude, isNegative, Nat.pow_eq, UInt64.toNat, decide_eq_decide] at hmagnitude hsign
  have hbits : x.toNat = y.toNat := by omega
  rw [BitVec.eq_of_toNat_eq hbits]

theorem neg_spec (x : Binary64) :
    x.neg.magnitude = x.magnitude ∧ x.neg.isNegative = !x.isNegative :=
  ofMagnitude_spec _ (Nat.mod_lt _ (by decide))

theorem ofRatio_spec (negative : Bool) (num : Nat) (hden : 0 < den) :
    Nearest (num / den) (ofRatio negative num den).magnitude ∧
      (ofRatio negative num den).isNegative = negative := by
  have hnearest : Nearest _ _ := nearest_roundRatio num hden
  obtain ⟨hmagnitude, hsign⟩ := ofMagnitude_spec negative hnearest.lt
  exact ⟨hmagnitude.symm ▸ hnearest, hsign⟩

theorem two_pow_le_ten_pow {a b : Nat} (h : a ≤ 3 * b) : (2 : ℚ) ^ a ≤ 10 ^ b :=
  calc (2 : ℚ) ^ a ≤ 2 ^ (3 * b) := pow_le_pow_right₀ one_le_two h
    _ = 8 ^ b := by rw [pow_mul]; norm_num
    _ ≤ 10 ^ b := by gcongr; norm_num

/-- Decimals beyond 400 places, by an order that is no greater than theirs. -/
theorem two_pow_le_decimal {digits : Nat} {scale : ℤ} (hlow : 2 ^ digits.log2 ≤ digits)
    (horder : 400 < scale + (digits.log2 / 4 : Nat)) : (2 : ℚ) ^ 1024 ≤ digits * 10 ^ scale :=
  calc (2 : ℚ) ^ 1024 ≤ 10 ^ 401 := two_pow_le_ten_pow (by norm_num)
    _ = 10 ^ ((401 : Nat) : ℤ) := (zpow_natCast _ _).symm
    _ ≤ 10 ^ ((digits.log2 / 4 : Nat) + scale : ℤ) :=
      zpow_le_zpow_right₀ (by norm_num) (by omega)
    _ = 10 ^ (digits.log2 / 4) * 10 ^ scale := by rw [zpow_add₀ (by norm_num), zpow_natCast]
    _ ≤ 16 ^ (digits.log2 / 4) * 10 ^ scale := by gcongr; norm_num
    _ = 2 ^ (4 * (digits.log2 / 4)) * 10 ^ scale := by rw [pow_mul]; norm_num
    _ ≤ 2 ^ digits.log2 * 10 ^ scale := by
      gcongr
      · norm_num
      · omega
    _ ≤ digits * 10 ^ scale := by
      gcongr
      exact_mod_cast hlow

theorem four_mul_ten_pow_le : (4 : ℚ) * 10 ^ (-401 : ℤ) ≤ 2 ^ (-1074 : ℤ) := by
  have hpow : (2 : ℚ) ^ 1076 ≤ 10 ^ 401 := two_pow_le_ten_pow (by norm_num)
  rw [zpow_neg, zpow_neg, ← div_eq_mul_inv, ← one_div,
    div_le_div_iff₀ (by positivity) (by positivity)]
  calc (4 : ℚ) * 2 ^ (1074 : ℤ) = 2 ^ 1076 := by
        rw [show (1074 : ℤ) = (1074 : Nat) by rfl, zpow_natCast, pow_add 2 2 1074]
        norm_num
    _ ≤ 10 ^ 401 := hpow
    _ = 1 * 10 ^ ((401 : Nat) : ℤ) := by rw [one_mul, zpow_natCast]

/-- Decimals below as many places, by an order that is no less than theirs. -/
theorem decimal_lt {digits : Nat} {scale : ℤ} (hhigh : (digits : ℚ) < 2 ^ (digits.log2 + 1 : ℤ))
    (hbound : scale + digits.log2 < -400) :
    2 * (digits * 10 ^ scale : ℚ) < 2 ^ (-1074 : ℤ) := by
  have hten : (0 : ℚ) < 10 ^ scale := by positivity
  calc 2 * (digits * 10 ^ scale : ℚ) < 2 * (2 ^ (digits.log2 + 1 : ℤ) * 10 ^ scale) := by gcongr
    _ = 4 * (2 ^ digits.log2 * 10 ^ scale) := by
      rw [zpow_add_one₀ two_ne_zero, zpow_natCast]
      ring
    _ ≤ 4 * (10 ^ digits.log2 * 10 ^ scale) := by gcongr; norm_num
    _ = 4 * 10 ^ (digits.log2 + scale : ℤ) := by rw [zpow_add₀ (by norm_num), zpow_natCast]
    _ ≤ 4 * 10 ^ (-401 : ℤ) := by
      gcongr
      · norm_num
      · omega
    _ ≤ 2 ^ (-1074 : ℤ) := four_mul_ten_pow_le

/-- A decimal is rounded to the nearest number; beyond 400 places that is infinity or zero. -/
theorem ofDecimal_spec (digits : Nat) (scale : ℤ) :
    Nearest (digits * 10 ^ scale) (ofDecimal digits scale).magnitude ∧
      (ofDecimal digits scale).isNegative = false := by
  have hof : ∀ {m}, Nearest (digits * 10 ^ scale) m →
      Nearest (digits * 10 ^ scale) (ofMagnitude false m).magnitude ∧
        (ofMagnitude false m).isNegative = false := by
    intro m h
    obtain ⟨hmagnitude, hsign⟩ := ofMagnitude_spec false h.lt
    exact ⟨hmagnitude.symm ▸ h, hsign⟩
  unfold ofDecimal
  dsimp only
  split
  · rename_i hzero
    refine hof (nearest_zero ?_)
    rw [hzero]
    norm_num
  rename_i hne
  obtain ⟨hlow, hhigh⟩ := log2_spec hne
  split
  · rename_i horder
    refine hof (nearest_infinite ?_)
    rw [value_infinite]
    exact two_pow_le_decimal (by exact_mod_cast hlow) horder
  split
  · rename_i hbound
    exact hof (nearest_zero (decimal_lt hhigh hbound))
  · have hfraction : (digits * 10 ^ scale : ℚ) =
        (digits * Nat.pow 10 scale.toNat : Nat) / (Nat.pow 10 (-scale).toNat : Nat) := by
      rw [zpow_eq_div (by norm_num)]
      simp only [Nat.pow_eq]
      push_cast
      ring
    rw [hfraction]
    exact ofRatio_spec false _ (Nat.pow_pos (by decide))

end TableLisp.Binary64

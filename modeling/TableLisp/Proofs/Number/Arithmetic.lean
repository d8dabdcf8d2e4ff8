import Mathlib.Algebra.BigOperators.Group.List.Basic
import Mathlib.Algebra.Ring.Int.Defs
import TableLisp.Primitive.Arithmetic

/-! Arithmetic of integers. A call with integers alone is a fold from the left, in which two words
give a word, their exact result modulo `2 ^ 64`, and all else is exact. So where words are added,
subtracted or multiplied it is enough to reduce the exact result of the whole call; and a quotient
of words is exact but for the one that does not fit. -/

namespace TableLisp

/-- An integer as an argument: one of 64 bits, or one without bounds. -/
inductive Integer where
  | word (n : Int64)
  | wide (n : Int)
  deriving DecidableEq

namespace Integer

def value : Integer → Int
  | word n => n.toInt
  | wide n => n

def isWide : Integer → Bool
  | word _ => false
  | wide _ => true

def toNumeral : Integer → Numeral
  | word n => .int n
  | wide n => .big n

def toDatum (x : Integer) : Datum := .ofNumeral x.toNumeral

/-- The same integer without bounds. -/
def widen (x : Integer) : Integer := wide x.value

@[simp] theorem value_widen (x : Integer) : x.widen.value = x.value := rfl

end Integer

namespace Arithmetic

open Integer (word wide)

/-- The exact result; a quotient is cut off toward zero. -/
def exactly : Arithmetic → Int → Int → Int
  | add => (· + ·)
  | sub => (· - ·)
  | mul => (· * ·)
  | div => Int.tdiv

/-- On two integers that the operation is defined for. -/
def onPair (op : Arithmetic) : Integer → Integer → Integer
  | word a, word b => word (Int64.ofInt (op.exactly a.toInt b.toInt))
  | x, y => wide (op.exactly x.value y.value)

/-- The exact result of a call: the sum, the product, what is left of the first less the others or
the negation of a sole one, and the quotient of the first by the others or of one by a sole one. -/
def total : Arithmetic → List Int → Int
  | add, xs => xs.sum
  | mul, xs => xs.prod
  | sub, [x] => -x
  | sub, x :: xs => x - xs.sum
  | div, [x] => Int.tdiv 1 x
  | div, x :: xs => xs.foldl Int.tdiv x
  | sub, [] | div, [] => 0

/-- The exact results one after the other, from the left; a sole integer counts as itself. -/
def leftFold (op : Arithmetic) : List Int → Int
  | [] => 0
  | x :: xs => xs.foldl op.exactly x

/-- The integers that a call divides by. -/
def divisors (first : Integer) : List Integer → List Integer
  | [] => [first]
  | more => more

/-- The result of a call that does not divide by zero. -/
def result (op : Arithmetic) (first : Integer) : List Integer → Integer
  | [] => op.onPair (word op.unit) first
  | more => more.foldl op.onPair first

/-- A step of the fold divides the least word by minus one. -/
def Overflows (first : Int64) (more : List Int64) : Prop :=
  ∃ before after, more = before ++ -1 :: after ∧
    before.foldl (· / ·) first = Int64.minValue

variable {op : Arithmetic} {x y first : Integer} {more : List Integer} {a b : Int64}

theorem ofInt_tdiv (a b : Int64) : Int64.ofInt (a.toInt.tdiv b.toInt) = a / b := by
  rw [Int64.ofInt_tdiv a.minValue_le_toInt a.toInt_le b.minValue_le_toInt b.toInt_le,
    Int64.ofInt_toInt, Int64.ofInt_toInt]

theorem onWords_eq (op : Arithmetic) (a b : Int64) :
    op.onWords a b =
      if op = .div ∧ b.toInt = 0 then .error .divisionByZero
      else .ok (Int64.ofInt (op.exactly a.toInt b.toInt)) := by
  have hzero : b = 0 ↔ b.toInt = 0 := by rw [← Int64.toInt_inj, Int64.toInt_zero]
  cases op with
  | add => simp [onWords, exactly, Int64.ofInt_add]
  | sub => simp [onWords, exactly, Int64.ofInt_sub]
  | mul => simp [onWords, exactly, Int64.ofInt_mul]
  | div => simp only [onWords, exactly, ofInt_tdiv, hzero, true_and]

theorem onIntegers_eq (op : Arithmetic) (a b : Int) :
    op.onIntegers a b =
      if op = .div ∧ b = 0 then .error .divisionByZero else .ok (op.exactly a b) := by
  cases op <;> simp [onIntegers, exactly]

theorem combine_eq (op : Arithmetic) (x y : Integer) :
    op.combine x.toNumeral y.toNumeral =
      if op = .div ∧ y.value = 0 then .error .divisionByZero
      else .ok (op.onPair x y).toNumeral := by
  cases x <;> cases y <;>
    simp only [Integer.toNumeral, combine, onWords_eq, onIntegers_eq, Integer.value, onPair,
      apply_ite (Except.map _)] <;>
    rfl

@[simp] theorem operand_toDatum (op : Arithmetic) (x : Integer) :
    op.operand x.toDatum = .ok x.toNumeral := by
  cases x <;> rfl

@[simp] theorem isWide_onPair (op : Arithmetic) (x y : Integer) :
    (op.onPair x y).isWide = (x.isWide || y.isWide) := by
  cases x <;> cases y <;> rfl

/-- The one quotient of words that does not fit is the least word again. -/
theorem value_onPair_div (x y : Integer) :
    (onPair div x y).value =
      if x = word Int64.minValue ∧ y = word (-1) then -2 ^ 63 else x.value.tdiv y.value := by
  rcases x with a | a <;> rcases y with b | b
  case word.word =>
    simp only [onPair, exactly, Integer.value, Integer.word.injEq, ofInt_tdiv]
    by_cases ha : a = Int64.minValue
    · by_cases hb : b = -1
      · subst ha hb
        simp
      · rw [if_neg (by simp [hb]), Int64.toInt_div_of_ne_right a b hb]
    · rw [if_neg (by simp [ha]), Int64.toInt_div_of_ne_left a b ha]
  all_goals simp [onPair, exactly, Integer.value]

theorem fold_eq (op : Arithmetic) (x : Integer) (more : List Integer) :
    op.fold x.toNumeral (more.map Integer.toDatum) =
      if op = .div ∧ ∃ d ∈ more, d.value = 0 then .error .divisionByZero
      else .ok (more.foldl op.onPair x).toNumeral := by
  induction more generalizing x with
  | nil => simp [fold]
  | cons y more ih =>
    simp only [List.map_cons, fold, operand_toDatum, combine_eq]
    by_cases hzero : op = .div ∧ y.value = 0
    · rw [if_pos hzero, if_pos ⟨hzero.1, y, List.mem_cons_self, hzero.2⟩]
    · rw [if_neg hzero]
      simp only [ih, List.foldl_cons, List.mem_cons, exists_eq_or_imp]
      congr 1
      simp only [eq_iff_iff]
      tauto

theorem apply_eq (op : Arithmetic) (first : Integer) (more : List Integer) :
    op.apply ((first :: more).map Integer.toDatum) =
      if op = .div ∧ ∃ d ∈ divisors first more, d.value = 0 then .error .divisionByZero
      else .ok (op.result first more).toDatum := by
  cases more with
  | nil =>
    have hunit : op.combine (.int op.unit) first.toNumeral = _ := combine_eq op (word op.unit) first
    simp only [List.map_cons, List.map_nil, apply, operand_toDatum, divisors, List.mem_singleton,
      exists_eq_left, result, hunit, apply_ite (Except.map _)]
    rfl
  | cons y more =>
    have hfold := fold_eq op first (y :: more)
    rw [List.map_cons] at hfold
    simp only [List.map_cons, apply, operand_toDatum, hfold, divisors, result,
      apply_ite (Except.map _)]
    rfl

theorem isWide_foldl (op : Arithmetic) (x : Integer) (more : List Integer) :
    (more.foldl op.onPair x).isWide = (x :: more).any Integer.isWide := by
  induction more generalizing x with
  | nil => simp
  | cons y more ih => simp [ih, Bool.or_assoc]

theorem isWide_result (op : Arithmetic) (first : Integer) (more : List Integer) :
    (op.result first more).isWide = (first :: more).any Integer.isWide := by
  cases more with
  | nil => simp only [result, isWide_onPair, List.any_cons, List.any_nil, Bool.or_false]; rfl
  | cons y more => exact isWide_foldl op first (y :: more)

theorem ofInt_foldl (hop : op ≠ .div) {m n : Int} (h : Int64.ofInt m = Int64.ofInt n)
    (xs : List Int) :
    Int64.ofInt (xs.foldl op.exactly m) = Int64.ofInt (xs.foldl op.exactly n) := by
  induction xs generalizing m n with
  | nil => exact h
  | cons x xs ih =>
    apply ih
    cases op with
    | add => simp only [exactly, Int64.ofInt_add, h]
    | sub => simp only [exactly, Int64.ofInt_sub, h]
    | mul => simp only [exactly, Int64.ofInt_mul, h]
    | div => exact absurd rfl hop

/-- It makes no difference whether each step is reduced or the exact result is. -/
theorem foldl_words (hop : op ≠ .div) (a : Int64) (ns : List Int64) :
    (ns.map word).foldl op.onPair (word a) =
      word (Int64.ofInt ((ns.map Int64.toInt).foldl op.exactly a.toInt)) := by
  induction ns generalizing a with
  | nil => simp
  | cons n ns ih =>
    simp only [List.map_cons, List.foldl_cons, onPair, ih]
    exact congrArg word (ofInt_foldl hop (Int64.ofInt_toInt _) _)

theorem foldl_wide (op : Arithmetic) (n : Int) (more : List Integer) :
    more.foldl op.onPair (wide n) = wide ((more.map Integer.value).foldl op.exactly n) := by
  induction more generalizing n with
  | nil => rfl
  | cons y more ih => cases y <;> exact ih _

theorem total_eq_leftFold (op : Arithmetic) (x y : Int) (ys : List Int) :
    op.total (x :: y :: ys) = op.leftFold (x :: y :: ys) := by
  have hadd : ∀ (zs : List Int) (z : Int), zs.foldl (· + ·) z = z + zs.sum := by
    intro zs
    induction zs with
    | nil => simp
    | cons w zs ih => intro z; simp [ih, add_assoc]
  have hsub : ∀ (zs : List Int) (z : Int), zs.foldl (· - ·) z = z - zs.sum := by
    intro zs
    induction zs with
    | nil => simp
    | cons w zs ih => intro z; simp [ih, sub_sub]
  have hmul : ∀ (zs : List Int) (z : Int), zs.foldl (· * ·) z = z * zs.prod := by
    intro zs
    induction zs with
    | nil => simp
    | cons w zs ih => intro z; simp [ih, mul_assoc]
  cases op with
  | add => exact (hadd (y :: ys) x).symm
  | sub => exact (hsub (y :: ys) x).symm
  | mul => exact (hmul (y :: ys) x).symm
  | div => rfl

theorem result_words (hop : op ≠ .div) (a : Int64) (ns : List Int64) :
    op.result (word a) (ns.map word) =
      word (Int64.ofInt (op.total ((a :: ns).map Int64.toInt))) := by
  cases ns with
  | nil => cases op <;> simp_all [result, onPair, exactly, total, unit]
  | cons n ns =>
    simp only [List.map_cons, total_eq_leftFold]
    exact foldl_words hop a (n :: ns)

theorem result_wide (op : Arithmetic) (n : Int) (more : List Integer) :
    op.result (wide n) more = wide (op.total (n :: more.map Integer.value)) := by
  cases more with
  | nil => cases op <;> simp [result, onPair, exactly, total, unit, Integer.value]
  | cons y more =>
    simp only [List.map_cons, total_eq_leftFold]
    exact foldl_wide op n (y :: more)

/-- What the words in front of the first integer without bounds come to, if there are any. -/
def carried (op : Arithmetic) : List Int64 → List Int
  | [] => []
  | ns => [(Int64.ofInt (op.leftFold (ns.map Int64.toInt))).toInt]

theorem result_append_wide (hop : op ≠ .div) (a : Int64) (ns : List Int64) (b : Int)
    (more : List Integer) :
    op.result (word a) (ns.map word ++ wide b :: more) =
      wide (op.leftFold (op.carried (a :: ns) ++ b :: more.map Integer.value)) := by
  have hne : ns.map word ++ wide b :: more ≠ [] := by simp
  have hfold : op.result (word a) (ns.map word ++ wide b :: more) =
      (ns.map word ++ wide b :: more).foldl op.onPair (word a) := by
    unfold result
    split
    · exact absurd ‹_› hne
    · rfl
  rw [hfold, List.foldl_append, foldl_words hop, List.foldl_cons]
  exact foldl_wide op _ more

/-- Quotients of words are those of the same integers without bounds, as long as they fit. -/
theorem foldl_div {a : Int64} {ns : List Int64} (h : ¬ Overflows a ns) :
    ∃ q : Int64, (ns.map word).foldl (onPair div) (word a) = word q ∧
      (ns.map fun n => (word n).widen).foldl (onPair div) (word a).widen = wide q.toInt := by
  induction ns generalizing a with
  | nil => exact ⟨a, rfl, rfl⟩
  | cons n ns ih =>
    have hstep : ¬ Overflows (a / n) ns := by
      rintro ⟨before, after, rfl, hmin⟩
      exact h ⟨n :: before, after, rfl, hmin⟩
    have hfits : ¬ (word a = word Int64.minValue ∧ word n = word (-1)) := by
      rintro ⟨ha, hn⟩
      cases ha
      cases hn
      exact h ⟨[], ns, rfl, rfl⟩
    have hvalue := value_onPair_div (word a) (word n)
    rw [if_neg hfits] at hvalue
    have hquotient : onPair div (word a) (word n) = word (a / n) := congrArg word (ofInt_tdiv a n)
    obtain ⟨q, hq, hq'⟩ := ih hstep
    refine ⟨q, ?_, ?_⟩
    · rw [List.map_cons, List.foldl_cons, hquotient]
      exact hq
    · rw [List.map_cons, List.foldl_cons]
      rw [hquotient] at hvalue
      have hwide : onPair div (word a).widen (word n).widen = (word (a / n)).widen :=
        congrArg wide hvalue.symm
      rw [hwide]
      exact hq'

theorem result_div {a : Int64} {ns : List Int64} (h : ¬ Overflows a ns) :
    ∃ q : Int64, result div (word a) (ns.map word) = word q ∧
      result div (word a).widen (ns.map fun n => (word n).widen) = wide q.toInt := by
  cases ns with
  | nil =>
    have hvalue := value_onPair_div (word 1) (word a)
    have hone : word 1 ≠ word Int64.minValue := by decide
    rw [if_neg fun h => hone h.1] at hvalue
    exact ⟨_, rfl, congrArg wide hvalue.symm⟩
  | cons n ns => exact foldl_div h

theorem apply_of_ne_div (hop : op ≠ .div) (first : Integer) (more : List Integer) :
    op.apply ((first :: more).map Integer.toDatum) = .ok (op.result first more).toDatum :=
  (apply_eq op first more).trans (if_neg fun h => hop h.1)

theorem apply_words (hop : op ≠ .div) (n : Int64) (ns : List Int64) :
    op.apply (((n :: ns).map word).map Integer.toDatum) =
      .ok (.int (Int64.ofInt (op.total ((n :: ns).map Int64.toInt)))) := by
  rw [List.map_cons, apply_of_ne_div hop, result_words hop]
  rfl

theorem total_perm (hop : op = .add ∨ op = .mul) {xs ys : List Int} (h : xs.Perm ys) :
    op.total xs = op.total ys := by
  rcases hop with rfl | rfl
  · exact h.sum_eq
  · exact h.prod_eq

theorem apply_words_perm (hop : op = .add ∨ op = .mul) {ns ns' : List Int64} (hne : ns ≠ [])
    (h : ns.Perm ns') :
    op.apply ((ns.map word).map Integer.toDatum) =
      op.apply ((ns'.map word).map Integer.toDatum) := by
  have hdiv : op ≠ .div := by rcases hop with rfl | rfl <;> simp
  have hne' : ns' ≠ [] := fun hnil => hne (hnil ▸ h).eq_nil
  obtain ⟨n, ms, rfl⟩ := List.exists_cons_of_ne_nil hne
  obtain ⟨n', ms', rfl⟩ := List.exists_cons_of_ne_nil hne'
  rw [apply_words hdiv, apply_words hdiv, total_perm hop (h.map Int64.toInt)]

theorem apply_widened (hop : op ≠ .div) (n : Int64) (ns : List Int64) :
    op.apply (((n :: ns).map fun n => (word n).widen).map Integer.toDatum) =
      .ok (.big (op.total ((n :: ns).map Int64.toInt))) := by
  rw [List.map_cons, apply_of_ne_div hop]
  simp only [Integer.widen, result_wide, List.map_map]
  rfl

theorem apply_append_wide (hop : op ≠ .div) (ns : List Int64) (b : Int) (more : List Integer)
    (hlen : ns ≠ [] ∨ more ≠ []) :
    op.apply ((ns.map word ++ wide b :: more).map Integer.toDatum) =
      .ok (.big (op.leftFold (op.carried ns ++ b :: more.map Integer.value))) := by
  cases ns with
  | nil =>
    obtain ⟨y, more, rfl⟩ := List.exists_cons_of_ne_nil (hlen.resolve_left fun h => h rfl)
    rw [List.map_nil, List.nil_append, apply_of_ne_div hop, result_wide, List.map_cons,
      total_eq_leftFold]
    rfl
  | cons n ns =>
    rw [List.map_cons, List.cons_append, apply_of_ne_div hop, result_append_wide hop]
    rfl

theorem apply_div_of_ne_zero (h : ∀ d ∈ divisors first more, d.value ≠ 0) :
    div.apply ((first :: more).map Integer.toDatum) = .ok (div.result first more).toDatum :=
  (apply_eq .div first more).trans (if_neg fun ⟨_, d, hmem, hzero⟩ => h d hmem hzero)

theorem apply_div_eq_error_iff (first : Integer) (more : List Integer) :
    div.apply ((first :: more).map Integer.toDatum) = .error .divisionByZero ↔
      ∃ d ∈ divisors first more, d.value = 0 := by
  rw [apply_eq]
  by_cases hzero : ∃ d ∈ divisors first more, d.value = 0
  · simp [hzero]
  · simp [hzero]

/-- Where no quotient of words overflows, it does not matter whether they have bounds. -/
theorem apply_div_words {n : Int64} {ns : List Int64}
    (hd : ∀ d ∈ divisors (word n) (ns.map word), d.value ≠ 0) (hfits : ¬ Overflows n ns) :
    ∃ q : Int64, div.apply (((n :: ns).map word).map Integer.toDatum) = .ok (.int q) ∧
      div.apply (((n :: ns).map fun n => (word n).widen).map Integer.toDatum) =
        .ok (.big q.toInt) := by
  have hd' : ∀ d ∈ divisors (word n).widen (ns.map fun n => (word n).widen), d.value ≠ 0 := by
    cases ns with
    | nil => simpa [divisors] using hd
    | cons n' ns => simpa [divisors] using hd
  obtain ⟨q, hq, hq'⟩ := result_div hfits
  refine ⟨q, (apply_div_of_ne_zero hd).trans ?_, (apply_div_of_ne_zero hd').trans ?_⟩
  · rw [hq]
    rfl
  · rw [hq']
    rfl

/-- Calls with integers alone, of which there is one at least.

Sums, differences and products are unbounded exactly if an argument is. Of words they are the exact
result of the call reduced to a word, whatever the order in which words are added or multiplied, and
so the reduced result of the call with the same integers without bounds. From the first integer
without bounds on they are exact, beginning with what the words in front of it come to.

A quotient fails exactly if one of the divisors is zero. Else it is a fold from the left in which
each step cuts off toward zero, but for the one pair of words of which the quotient does not fit;
where that does not occur words and integers without bounds give the same. -/
theorem integer_arithmetic :
    let call (op : Arithmetic) (xs : List Integer) := op.apply (xs.map Integer.toDatum)
    (∀ op first more, op ≠ .div → ∃ r : Integer, call op (first :: more) = .ok r.toDatum ∧
      (r.isWide ↔ ∃ x ∈ first :: more, x.isWide)) ∧
    (∀ op n ns, op ≠ .div → call op ((n :: ns).map word) =
      .ok (.int (Int64.ofInt (op.total ((n :: ns).map Int64.toInt))))) ∧
    (∀ op (ns ns' : List Int64), op = .add ∨ op = .mul → ns ≠ [] → ns.Perm ns' →
      call op (ns.map word) = call op (ns'.map word)) ∧
    (∀ op n ns, op ≠ .div → ∃ r : Int,
      call op ((n :: ns).map fun n => (word n).widen) = .ok (.big r) ∧
      call op ((n :: ns).map word) = .ok (.int (Int64.ofInt r))) ∧
    (∀ op (ns : List Int64) b more, op ≠ .div → ns ≠ [] ∨ more ≠ [] →
      call op (ns.map word ++ wide b :: more) =
        .ok (.big (op.leftFold (op.carried ns ++ b :: more.map Integer.value)))) ∧
    (∀ first more, (call .div (first :: more) = .error .divisionByZero ↔
        ∃ d ∈ divisors first more, d.value = 0) ∧
      ((∀ d ∈ divisors first more, d.value ≠ 0) →
        call .div (first :: more) = .ok (result .div first more).toDatum) ∧
      ((result .div first more).isWide ↔ ∃ x ∈ first :: more, x.isWide)) ∧
    (∀ x y, (onPair .div x y).isWide = (x.isWide || y.isWide) ∧
      (onPair .div x y).value =
        if x = word Int64.minValue ∧ y = word (-1) then -2 ^ 63 else x.value.tdiv y.value) ∧
    ∀ n ns, (∀ d ∈ divisors (word n) (ns.map word), d.value ≠ 0) → ¬ Overflows n ns →
      ∃ q : Int64, call .div ((n :: ns).map word) = .ok (.int q) ∧
        call .div ((n :: ns).map fun n => (word n).widen) = .ok (.big q.toInt) := by
  intro call
  have hkind : ∀ (op : Arithmetic) (first : Integer) (more : List Integer),
      (op.result first more).isWide = true ↔ ∃ x ∈ first :: more, x.isWide = true := by
    intro op first more
    rw [isWide_result, List.any_eq_true]
  refine ⟨?_, ?_, ?_, ?_, ?_, ?_, ?_, ?_⟩
  · intro op first more hop
    exact ⟨_, apply_of_ne_div hop first more, hkind op first more⟩
  · intro op n ns hop
    exact apply_words hop n ns
  · intro op ns ns' hop hne hperm
    exact apply_words_perm hop hne hperm
  · intro op n ns hop
    exact ⟨_, apply_widened hop n ns, apply_words hop n ns⟩
  · intro op ns b more hop hlen
    exact apply_append_wide hop ns b more hlen
  · intro first more
    exact ⟨apply_div_eq_error_iff first more, apply_div_of_ne_zero, hkind .div first more⟩
  · intro x y
    exact ⟨isWide_onPair .div x y, value_onPair_div x y⟩
  · intro n ns hd hfits
    exact apply_div_words hd hfits

end Arithmetic

end TableLisp

import Mathlib.Computability.Language
import TableLisp.Datum.Basic
import TableLisp.Proofs.Number.Literals
import TableLisp.Proofs.Number.Rounding

/-! The language of number literals, written as a grammar writes it, and what its words denote. An
integer denotes the sum of its digits' multiples of the powers of the radix, kept in 64 bits if it
fits in them; a float denotes the number nearest to the decimal. -/

namespace TableLisp.Numeral

open Computability
open Text (isDecimal isDigitOf Positional positional_ofDigits)

namespace Grammar

/-- One character of a class. -/
def one (p : Char → Bool) : Language Char := {text | ∃ c, p c = true ∧ text = [c]}

def optional (l : Language Char) : Language Char := 1 + l

/-- One character of a class or more. -/
def run (p : Char → Bool) : Language Char := one p * (one p)∗

def sign : Language Char := optional (one fun c => c == '+' || c == '-')

def digits (radix : Nat) : Language Char := run (isDigitOf radix)

/-- A zero, the letter that marks a radix, in either case, and digits in that radix. -/
def marked (lower upper : Char) (radix : Nat) : Language Char :=
  one (· == '0') * one (fun c => c == lower || c == upper) * digits radix

/-- Integers without the suffix. -/
def integer : Language Char :=
  marked 'x' 'X' 16 + marked 'b' 'B' 2 + marked 'o' 'O' 8 + digits 10

def suffix : Language Char := optional (one (· == 'n'))

def point : Language Char := one (· == '.') * (one isDecimal)∗

def exponent : Language Char := one (fun c => c == 'e' || c == 'E') * sign * digits 10

/-- Digits with a point, an exponent or both. -/
def floating : Language Char := digits 10 * (point * optional exponent + exponent)

def number : Language Char := sign * (integer * suffix + floating)

variable {p : Char → Bool} {text : List Char} {l : Language Char}

theorem mem_one : text ∈ one p ↔ ∃ c, p c = true ∧ text = [c] := Iff.rfl

theorem mem_optional : text ∈ optional l ↔ text = [] ∨ text ∈ l := Iff.rfl

theorem mem_star : text ∈ (one p)∗ ↔ ∀ c ∈ text, p c = true := by
  rw [Language.mem_kstar]
  constructor
  · rintro ⟨parts, rfl, hparts⟩ c hc
    obtain ⟨part, hpart, hc⟩ := List.mem_flatten.mp hc
    obtain ⟨d, hd, rfl⟩ := hparts part hpart
    rwa [List.mem_singleton.mp hc]
  · intro h
    refine ⟨text.map fun c => [c], (List.flatMap_singleton' text).symm, fun part hpart => ?_⟩
    obtain ⟨c, hc, rfl⟩ := List.mem_map.mp hpart
    exact ⟨c, h c hc, rfl⟩

theorem mem_run : text ∈ run p ↔ text ≠ [] ∧ ∀ c ∈ text, p c = true := by
  constructor
  · rintro ⟨_, ⟨c, hc, rfl⟩, more, hmore, rfl⟩
    exact ⟨by simp, List.forall_mem_cons.mpr ⟨hc, mem_star.mp hmore⟩⟩
  · rintro ⟨hne, h⟩
    obtain ⟨c, more, rfl⟩ := List.exists_cons_of_ne_nil hne
    obtain ⟨hc, hmore⟩ := List.forall_mem_cons.mp h
    exact Language.mem_mul.mpr ⟨[c], ⟨c, hc, rfl⟩, more, mem_star.mpr hmore, rfl⟩

theorem mem_sign : text ∈ sign ↔ text = [] ∨ text = ['+'] ∨ text = ['-'] := by
  simp only [sign, mem_optional, mem_one, Bool.or_eq_true, beq_iff_eq, or_and_right, exists_or,
    exists_eq_left]

theorem mem_suffix : text ∈ suffix ↔ ∃ wide, text = suffixText wide := by
  simp [suffix, mem_optional, mem_one, suffixText]

theorem mem_marked {lower upper : Char} {radix : Nat} : text ∈ marked lower upper radix ↔
    ∃ marker run, (marker = lower ∨ marker = upper) ∧ run ∈ digits radix ∧
      text = '0' :: marker :: run := by
  constructor
  · rintro ⟨_, ⟨_, ⟨zero, hzero, rfl⟩, _, ⟨marker, hmarker, rfl⟩, rfl⟩, run, hrun, rfl⟩
    rw [beq_iff_eq] at hzero
    subst hzero
    exact ⟨marker, run, by simpa using hmarker, hrun, rfl⟩
  · rintro ⟨marker, run, hmarker, hrun, rfl⟩
    have hhead : ['0'] ++ [marker] ∈ one (· == '0') * one (fun c => c == lower || c == upper) :=
      Language.append_mem_mul ⟨'0', by simp, rfl⟩ ⟨marker, by simpa using hmarker, rfl⟩
    exact Language.append_mem_mul hhead hrun

theorem mem_point : text ∈ point ↔ ∃ run, (∀ c ∈ run, isDecimal c = true) ∧ text = '.' :: run := by
  constructor
  · rintro ⟨_, ⟨c, hc, rfl⟩, run, hrun, rfl⟩
    rw [beq_iff_eq] at hc
    subst hc
    exact ⟨run, mem_star.mp hrun, rfl⟩
  · rintro ⟨run, hrun, rfl⟩
    exact Language.mem_mul.mpr ⟨['.'], ⟨'.', by simp, rfl⟩, run, mem_star.mpr hrun, rfl⟩

theorem mem_exponent : text ∈ exponent ↔ text ≠ [] ∧ ∃ power, Exponent text power := by
  constructor
  · rintro ⟨_, ⟨_, ⟨e, he, rfl⟩, sign, hsign, rfl⟩, run, hrun, rfl⟩
    obtain ⟨hne, hd⟩ := mem_run.mp hrun
    have he' : e = 'e' ∨ e = 'E' := by simpa using he
    refine ⟨by simp, ?_⟩
    rcases mem_sign.mp hsign with rfl | rfl | rfl
    · exact ⟨_, .unsigned he' hne (positional_ofDigits hd)⟩
    · exact ⟨_, .plus he' hne (positional_ofDigits hd)⟩
    · exact ⟨_, .minus he' hne (positional_ofDigits hd)⟩
  · rintro ⟨hne, power, hexponent⟩
    have hword : ∀ {e sign run n}, (e = 'e' ∨ e = 'E') → sign ∈ Grammar.sign → run ≠ [] →
        Positional 10 run n → [e] ++ sign ++ run ∈ exponent := by
      intro e sign run n he hsign hne hd
      have hletter : [e] ∈ one fun c => c == 'e' || c == 'E' := ⟨e, by simpa using he, rfl⟩
      exact Language.append_mem_mul (Language.append_mem_mul hletter hsign)
        (mem_run.mpr ⟨hne, hd.isDigitOf⟩)
    cases hexponent with
    | absent => exact absurd rfl hne
    | unsigned he hrun hd => exact hword he (mem_sign.mpr (.inl rfl)) hrun hd
    | plus he hrun hd => exact hword he (mem_sign.mpr (.inr (.inl rfl))) hrun hd
    | minus he hrun hd => exact hword he (mem_sign.mpr (.inr (.inr rfl))) hrun hd

theorem mem_floating : text ∈ floating ↔ ∃ whole fraction digits exponent power,
    whole ≠ [] ∧ (∀ c ∈ whole, isDecimal c = true) ∧ Fraction fraction digits ∧
      Exponent exponent power ∧ fraction ++ exponent ≠ [] ∧
      text = whole ++ (fraction ++ exponent) := by
  constructor
  · rintro ⟨whole, hwhole, behind, hbehind | hexponent, rfl⟩
    · obtain ⟨_, hpoint, exponent, hexponent, rfl⟩ := hbehind
      obtain ⟨hne, hd⟩ := mem_run.mp hwhole
      obtain ⟨run, hrun, rfl⟩ := mem_point.mp hpoint
      obtain ⟨power, hpower⟩ : ∃ power, Exponent exponent power := by
        rcases mem_optional.mp hexponent with rfl | hexponent
        · exact ⟨0, .absent⟩
        · exact (mem_exponent.mp hexponent).2
      exact ⟨whole, _, run, exponent, power, hne, hd, .present hrun, hpower, by simp, rfl⟩
    · obtain ⟨hne, hd⟩ := mem_run.mp hwhole
      obtain ⟨hsome, power, hpower⟩ := mem_exponent.mp hexponent
      exact ⟨whole, [], [], behind, power, hne, hd, .absent, hpower, hsome, rfl⟩
  · rintro ⟨whole, fraction, digits, exponent, power, hne, hd, hfraction, hpower, hsome, rfl⟩
    refine Language.append_mem_mul (mem_run.mpr ⟨hne, hd⟩) ?_
    cases hfraction with
    | absent => exact .inr (mem_exponent.mpr ⟨hsome, power, hpower⟩)
    | present hrun =>
      have hexponent : exponent ∈ optional Grammar.exponent := by
        by_cases hnil : exponent = []
        · exact .inl hnil
        · exact .inr (mem_exponent.mpr ⟨hnil, power, hpower⟩)
      exact .inl (Language.append_mem_mul (mem_point.mpr ⟨_, hrun, rfl⟩) hexponent)

end Grammar

/-- The letters behind a zero that mark a radix. -/
def radixMarks : List (Char × Nat) :=
  [('x', 16), ('X', 16), ('b', 2), ('B', 2), ('o', 8), ('O', 8)]

/-- Integers without sign and suffix, the radix they are in and their digits in it. Digits behind a
zero are octal if they can be. -/
inductive InRadix : List Char → Nat → List Char → Prop where
  | marked {marker : Char} {radix : Nat} {digits : List Char} : (marker, radix) ∈ radixMarks →
      digits ∈ Grammar.digits radix → InRadix ('0' :: marker :: digits) radix digits
  | octal {digits : List Char} : digits ∈ Grammar.digits 8 → InRadix ('0' :: digits) 8 digits
  | decimal {digits : List Char} : digits ∈ Grammar.digits 10 →
      (∀ more, digits = '0' :: more → more ∉ Grammar.digits 8) → InRadix digits 10 digits

/-- Decimal digits that do not begin with a zero, or a zero alone. -/
def Plain (body : List Char) : Prop :=
  body ∈ Grammar.digits 10 ∧ ∀ c more, body ≠ '0' :: c :: more

/-- The digits stand for their multiples of the powers of the radix, the last for that of one. -/
def denoted (sign : List Char) (radix : Nat) (digits : List Char) : Int :=
  (if sign = ['-'] then -1 else 1) *
    (Nat.ofDigits radix (digits.reverse.map fun c => (Text.hexValue? c).getD 0) : Nat)

/-- The digits of a decimal, those behind the point among them, as one number, and the power of ten
that this is to be multiplied by. -/
inductive DecimalText : List Char → Nat → Int → Prop where
  | mk {whole fraction digits exponent : List Char} {m : Nat} {power : Int} : whole ≠ [] →
      Fraction fraction digits → Exponent exponent power → Positional 10 (whole ++ digits) m →
      DecimalText (whole ++ (fraction ++ exponent)) m (power - digits.length)

/-- Number literals and what they denote: an integer that fits in 64 bits, one that does not, one
that the suffix makes unbounded, and the number nearest to a decimal. `floats` says that plain
integers are decimals. -/
inductive Literal (floats : Bool) : List Char → Datum → Prop where
  | int {sign body digits : List Char} {radix n : Nat} {k : Int64} : sign ∈ Grammar.sign →
      InRadix body radix digits → Positional radix digits n → ¬ (floats = true ∧ Plain body) →
      k.toInt = signed (sign = ['-']) n → Literal floats (sign ++ body) (.int k)
  | big {sign body digits : List Char} {radix n : Nat} : sign ∈ Grammar.sign →
      InRadix body radix digits → Positional radix digits n → ¬ (floats = true ∧ Plain body) →
      ¬ (-2 ^ 63 ≤ signed (sign = ['-']) n ∧ signed (sign = ['-']) n ≤ 2 ^ 63 - 1) →
      Literal floats (sign ++ body) (.big (signed (sign = ['-']) n))
  | long {sign body digits : List Char} {radix n : Nat} : sign ∈ Grammar.sign →
      InRadix body radix digits → Positional radix digits n →
      Literal floats (sign ++ (body ++ ['n'])) (.big (signed (sign = ['-']) n))
  | float {sign body : List Char} {m : Nat} {scale : Int} {x : Binary64} : sign ∈ Grammar.sign →
      (body ∈ Grammar.floating ∨ floats = true ∧ Plain body) → DecimalText body m scale →
      x.isNegative = decide (sign = ['-']) → Binary64.Nearest (m * 10 ^ scale) x.magnitude →
      Literal floats (sign ++ body) (.float x)

/-- The number is kept in 64 bits exactly if it fits in them. -/
def Kept (n : Numeral) (value : Int) : Prop :=
  (-2 ^ 63 ≤ value ∧ value ≤ 2 ^ 63 - 1 → ∃ k, n = .int k ∧ k.toInt = value) ∧
    (¬ (-2 ^ 63 ≤ value ∧ value ≤ 2 ^ 63 - 1) → n = .big value)

variable {text sign body digits : List Char} {radix : Nat} {wide floats : Bool} {n : Numeral}

theorem radixOf?_eq_some_iff {marker : Char} :
    radixOf? marker = some radix ↔ (marker, radix) ∈ radixMarks := by
  constructor
  · intro h
    unfold radixOf? at h
    split at h <;> cases h <;> decide
  · intro h
    have hall : ∀ e ∈ radixMarks, radixOf? e.1 = some e.2 := by decide
    exact hall (marker, radix) h

theorem denoted_eq : denoted sign radix digits =
    signed (sign = ['-']) (Text.ofDigits radix digits) := by
  rw [denoted, ← Text.ofDigits_eq_ofDigits, signed]
  by_cases h : sign = ['-']
  · simp [h]
  · simp [h]

theorem kept_ofInt (value : Int) : Kept (ofInt value) value := by
  have hmin : Int64.minValue.toInt = -2 ^ 63 := by decide
  have hmax : Int64.maxValue.toInt = 2 ^ 63 - 1 := by decide
  unfold ofInt
  rw [hmin, hmax]
  constructor
  · intro h
    rw [if_pos h]
    exact ⟨_, rfl, Int64.toInt_ofInt_of_le h.1 (by omega)⟩
  · intro h
    rw [if_neg h]

theorem mem_integer : text ∈ Grammar.integer ↔ ∃ radix digits, InRadix text radix digits := by
  constructor
  · have hmarked : ∀ {lower upper radix}, (lower, radix) ∈ radixMarks →
        (upper, radix) ∈ radixMarks → text ∈ Grammar.marked lower upper radix →
        ∃ radix digits, InRadix text radix digits := by
      intro lower upper radix hlower hupper h
      obtain ⟨marker, run, rfl | rfl, hrun, rfl⟩ := Grammar.mem_marked.mp h
      · exact ⟨_, _, .marked hlower hrun⟩
      · exact ⟨_, _, .marked hupper hrun⟩
    rintro (((h | h) | h) | h)
    · exact hmarked (by decide) (by decide) h
    · exact hmarked (by decide) (by decide) h
    · exact hmarked (by decide) (by decide) h
    · by_cases hoctal : ∃ more, text = '0' :: more ∧ more ∈ Grammar.digits 8
      · obtain ⟨more, rfl, hmore⟩ := hoctal
        exact ⟨8, more, .octal hmore⟩
      · exact ⟨10, text, .decimal h fun more heq hmore => hoctal ⟨more, heq, hmore⟩⟩
  · rintro ⟨radix, digits, h⟩
    cases h with
    | @marked marker radix digits hradix hdigits =>
      have hword : ∀ {lower upper}, marker = lower ∨ marker = upper →
          '0' :: marker :: digits ∈ Grammar.marked lower upper radix :=
        fun h => Grammar.mem_marked.mpr ⟨marker, digits, h, hdigits, rfl⟩
      simp only [radixMarks, List.mem_cons, Prod.mk.injEq, List.not_mem_nil, or_false] at hradix
      rcases hradix with ⟨rfl, rfl⟩ | ⟨rfl, rfl⟩ | ⟨rfl, rfl⟩ | ⟨rfl, rfl⟩ | ⟨rfl, rfl⟩ | ⟨rfl, rfl⟩
      · exact .inl (.inl (.inl (hword (.inl rfl))))
      · exact .inl (.inl (.inl (hword (.inr rfl))))
      · exact .inl (.inl (.inr (hword (.inl rfl))))
      · exact .inl (.inl (.inr (hword (.inr rfl))))
      · exact .inl (.inr (hword (.inl rfl)))
      · exact .inl (.inr (hword (.inr rfl)))
    | octal hdigits =>
      have hdecimal := fun c hc => isDecimal_of_octal ((Grammar.mem_run.mp hdigits).2 c hc)
      exact .inr (Grammar.mem_run.mpr ⟨by simp, List.forall_mem_cons.mpr ⟨by decide, hdecimal⟩⟩)
    | decimal hdigits _ => exact .inr hdigits

/-- The float that a decimal text denotes, with the sign in front of it. -/
def AsFloat (sign body : List Char) (n : Numeral) : Prop :=
  ∃ x, Decimal.read? body = some x ∧ n = .float (if sign = ['-'] then x.neg else x)

/-- What an integer is read as. The suffix asks for an unbounded one; where floats are preferred, a
plain one is a float. -/
def AsInteger (floats : Bool) (sign body : List Char) : Bool → Int → Numeral → Prop
  | true, value, n => n = .big value
  | false, value, n => (floats = true ∧ Plain body → AsFloat sign body n) ∧
      (¬ (floats = true ∧ Plain body) → Kept n value)

theorem asInteger_ofValue {value : Int} (h : wide = false → ¬ (floats = true ∧ Plain body)) :
    AsInteger floats sign body wide value (ofValue wide value) := by
  cases wide with
  | true => rfl
  | false => exact ⟨fun hplain => absurd hplain (h rfl), fun _ => kept_ofInt value⟩

theorem not_plain_zero {c : Char} {more : List Char} : ¬ Plain ('0' :: c :: more) :=
  fun h => h.2 c more rfl

theorem asFloat_ofFloat (hne : body ≠ []) (hd : ∀ c ∈ body, isDecimal c = true) :
    AsFloat sign body (ofFloat (sign = ['-']) body 0) := by
  have hread := read?_eq_some hne hd .absent .absent
  simp only [List.append_nil, List.length_nil] at hread
  exact ⟨_, hread, by simp [ofFloat]⟩

theorem unsigned_of_inRadix (floats : Bool) (sign : List Char) (wide : Bool)
    (h : InRadix body radix digits) :
    ∃ n, Unsigned floats (sign = ['-']) (body ++ suffixText wide) n ∧
      AsInteger floats sign body wide (denoted sign radix digits) n := by
  rw [denoted_eq]
  cases h with
  | marked hradix hdigits =>
    obtain ⟨hne, hd⟩ := Grammar.mem_run.mp hdigits
    have hmark := radixOf?_eq_some_iff.mpr hradix
    exact ⟨_, .radix wide hmark hne hd, asInteger_ofValue fun _ h => not_plain_zero h.2⟩
  | octal hdigits =>
    obtain ⟨hne, hd⟩ := Grammar.mem_run.mp hdigits
    obtain ⟨c, more, rfl⟩ := List.exists_cons_of_ne_nil hne
    exact ⟨_, .octal wide hne hd, asInteger_ofValue fun _ h => not_plain_zero h.2⟩
  | decimal hdigits hoctal =>
    obtain ⟨hne, hd⟩ := Grammar.mem_run.mp hdigits
    obtain ⟨first, more, rfl⟩ := List.exists_cons_of_ne_nil hne
    obtain ⟨hfirst, hmore⟩ := List.forall_mem_cons.mp hd
    by_cases hpadded : first = '0' ∧ more ≠ []
    · obtain ⟨rfl, hne'⟩ := hpadded
      have hsome : ∃ c ∈ more, isDigitOf 8 c = false := by
        by_contra hall
        refine hoctal more rfl (Grammar.mem_run.mpr ⟨hne', fun c hc => ?_⟩)
        by_contra hc'
        exact hall ⟨c, hc, by simpa using hc'⟩
      obtain ⟨c, more, rfl⟩ := List.exists_cons_of_ne_nil hne'
      exact ⟨_, .padded wide hmore hsome, asInteger_ofValue fun _ h => not_plain_zero h.2⟩
    · have hzero : first = '0' → more = [] := by
        intro hfirst
        by_contra hne'
        exact hpadded ⟨hfirst, hne'⟩
      refine ⟨_, .decimal wide hfirst hmore hzero, ?_⟩
      cases wide with
      | true => simp [AsInteger, ofValue]
      | false =>
        cases floats with
        | false => exact asInteger_ofValue fun _ h => by cases h.1
        | true =>
          have hplain : Plain (first :: more) := by
            refine ⟨hdigits, fun c tail heq => ?_⟩
            cases heq
            cases hzero rfl
          exact ⟨fun _ => asFloat_ofFloat hne hd, fun h => absurd ⟨rfl, hplain⟩ h⟩

theorem unsigned_of_floating (floats : Bool) (sign : List Char) (h : body ∈ Grammar.floating) :
    ∃ n, Unsigned floats (sign = ['-']) body n ∧ AsFloat sign body n := by
  obtain ⟨whole, fraction, digits, exponent, power, hne, hd, hf, he, hsome, rfl⟩ :=
    Grammar.mem_floating.mp h
  refine ⟨_, .floating hne hd hf he hsome, _, read?_eq_some hne hd hf he, ?_⟩
  simp [ofFloat]

theorem spelled_of_unsigned (hsign : sign ∈ Grammar.sign)
    (h : Unsigned floats (sign = ['-']) body n) : Spelled floats (sign ++ body) n := by
  rcases Grammar.mem_sign.mp hsign with rfl | rfl | rfl
  · exact .unsigned h
  · exact .plus h
  · exact .minus h

theorem InRadix.forall_isDigitOf (h : InRadix body radix digits) :
    ∀ c ∈ digits, isDigitOf radix c = true := by
  cases h with
  | marked _ hdigits => exact (Grammar.mem_run.mp hdigits).2
  | octal hdigits => exact (Grammar.mem_run.mp hdigits).2
  | decimal hdigits _ => exact (Grammar.mem_run.mp hdigits).2

theorem Plain.inRadix (h : Plain body) : InRadix body 10 body :=
  .decimal h.1 fun more heq hoctal => by
    obtain ⟨c, tail, rfl⟩ := List.exists_cons_of_ne_nil (Grammar.mem_run.mp hoctal).1
    exact h.2 c tail heq

theorem decimalText_of_run (h : body ∈ Grammar.digits 10) :
    DecimalText body (Text.ofDigits 10 body) 0 := by
  obtain ⟨hne, hd⟩ := Grammar.mem_run.mp h
  have hrun : Positional 10 (body ++ []) (Text.ofDigits 10 body) := by
    rw [List.append_nil]
    exact positional_ofDigits hd
  have htext : DecimalText _ _ _ := .mk hne .absent .absent hrun
  simpa using htext

theorem DecimalText.read?_eq {m : Nat} {scale : Int} (h : DecimalText body m scale) :
    Decimal.read? body = some (.ofDecimal m scale) := by
  obtain ⟨hne, hf, he, hm⟩ := h
  have hd : ∀ c ∈ _, isDecimal c = true := fun c hc => hm.isDigitOf c (List.mem_append_left _ hc)
  rw [read?_eq_some hne hd hf he, hm.ofDigits_eq]

/-- What a decimal text is rounded to, with the sign in front of it. -/
theorem rounded_iff {m : Nat} {scale : Int} {x : Binary64} :
    x = (if sign = ['-'] then (Binary64.ofDecimal m scale).neg else .ofDecimal m scale) ↔
      x.isNegative = decide (sign = ['-']) ∧ Binary64.Nearest (m * 10 ^ scale) x.magnitude := by
  obtain ⟨hnearest, hpositive⟩ := Binary64.ofDecimal_spec m scale
  obtain ⟨hmagnitude, hnegative⟩ := Binary64.neg_spec (.ofDecimal m scale)
  rw [hpositive] at hnegative
  constructor
  · rintro rfl
    by_cases hsign : sign = ['-']
    · simpa [hsign, hnegative, hmagnitude] using hnearest
    · simpa [hsign, hpositive] using hnearest
  · rintro ⟨hsigned, hx⟩
    have heq := hx.unique hnearest
    by_cases hsign : sign = ['-']
    · rw [if_pos hsign]
      exact Binary64.eq_of_magnitude (heq.trans hmagnitude.symm)
        (by simp [hsigned, hsign, hnegative])
    · rw [if_neg hsign]
      exact Binary64.eq_of_magnitude heq (by simp [hsigned, hsign, hpositive])

variable (floats) in
theorem literal_ofFloat {m : Nat} {scale : Int} (hsign : sign ∈ Grammar.sign)
    (hbody : body ∈ Grammar.floating ∨ floats = true ∧ Plain body)
    (h : DecimalText body m scale) :
    Literal floats (sign ++ body)
      (.float (if sign = ['-'] then (Binary64.ofDecimal m scale).neg else .ofDecimal m scale)) := by
  obtain ⟨hnegative, hnearest⟩ := rounded_iff.mp (Eq.refl _)
  exact .float hsign hbody h hnegative hnearest

variable (floats) in
theorem literal_ofValue (wide : Bool) (hsign : sign ∈ Grammar.sign) (h : InRadix body radix digits)
    (hplain : wide = false → ¬ (floats = true ∧ Plain body)) :
    Literal floats (sign ++ (body ++ suffixText wide))
      (.ofNumeral (ofValue wide (signed (sign = ['-']) (Text.ofDigits radix digits)))) := by
  have hn := positional_ofDigits h.forall_isDigitOf
  cases wide with
  | true => exact .long hsign h hn
  | false =>
    simp only [suffixText, Bool.false_eq_true, if_false, List.append_nil, ofValue]
    obtain ⟨hfits, hlarge⟩ := kept_ofInt (signed (sign = ['-']) (Text.ofDigits radix digits))
    by_cases hrange : -2 ^ 63 ≤ signed (sign = ['-']) (Text.ofDigits radix digits) ∧
        signed (sign = ['-']) (Text.ofDigits radix digits) ≤ 2 ^ 63 - 1
    · obtain ⟨k, hk, hvalue⟩ := hfits hrange
      rw [hk]
      exact .int hsign h hn (hplain rfl) hvalue
    · rw [hlarge hrange]
      exact .big hsign h hn (hplain rfl) hrange

theorem literal_of_unsigned (hsign : sign ∈ Grammar.sign)
    (h : Unsigned floats (sign = ['-']) body n) : Literal floats (sign ++ body) (.ofNumeral n) := by
  cases h with
  | radix wide hmark hne hd =>
    exact literal_ofValue floats wide hsign
      (.marked (radixOf?_eq_some_iff.mp hmark) (Grammar.mem_run.mpr ⟨hne, hd⟩))
      fun _ h => not_plain_zero h.2
  | octal wide hne hd =>
    obtain ⟨c, more, rfl⟩ := List.exists_cons_of_ne_nil hne
    exact literal_ofValue floats wide hsign (.octal (Grammar.mem_run.mpr ⟨hne, hd⟩))
      fun _ h => not_plain_zero h.2
  | @padded digits wide hd hsome =>
    obtain ⟨c, hc, hnot⟩ := hsome
    have hdigits : '0' :: digits ∈ Grammar.digits 10 :=
      Grammar.mem_run.mpr ⟨by simp, List.forall_mem_cons.mpr ⟨by decide, hd⟩⟩
    have hradix : InRadix ('0' :: digits) 10 ('0' :: digits) := by
      refine .decimal hdigits fun more heq hoctal => ?_
      cases heq
      rw [(Grammar.mem_run.mp hoctal).2 c hc] at hnot
      cases hnot
    obtain ⟨d, more, rfl⟩ := List.exists_cons_of_ne_nil (List.ne_nil_of_mem hc)
    exact literal_ofValue floats wide hsign hradix fun _ h => not_plain_zero h.2
  | @decimal first more wide hfirst hd hzero =>
    have hdigits : first :: more ∈ Grammar.digits 10 :=
      Grammar.mem_run.mpr ⟨by simp, List.forall_mem_cons.mpr ⟨hfirst, hd⟩⟩
    have hplain : Plain (first :: more) := by
      refine ⟨hdigits, fun c tail heq => ?_⟩
      cases heq
      cases hzero rfl
    have hvalue := literal_ofValue floats wide hsign hplain.inRadix
    cases wide with
    | true => simpa [ofValue] using hvalue (by simp)
    | false =>
      cases floats with
      | false => simpa using hvalue (by simp)
      | true =>
        have hfloat := literal_ofFloat true hsign (.inr ⟨rfl, hplain⟩) (decimalText_of_run hdigits)
        simpa [suffixText, ofFloat, Datum.ofNumeral] using hfloat
  | @floating whole fraction digits exponent power hne hd hf he hsome =>
    have hbody : whole ++ (fraction ++ exponent) ∈ Grammar.floating :=
      Grammar.mem_floating.mpr ⟨_, _, _, _, _, hne, hd, hf, he, hsome, rfl⟩
    have hdigits : Positional 10 (whole ++ digits) (Text.ofDigits 10 (whole ++ digits)) :=
      positional_ofDigits (List.forall_mem_append.mpr ⟨hd, hf.decimal_digits⟩)
    have hfloat := literal_ofFloat floats hsign (.inl hbody) (.mk hne hf he hdigits)
    simpa [ofFloat, Datum.ofNumeral] using hfloat

theorem literal_of_spelled (h : Spelled floats text n) : Literal floats text (.ofNumeral n) := by
  cases h with
  | unsigned h => exact literal_of_unsigned (Grammar.mem_sign.mpr (.inl rfl)) h
  | plus h => exact literal_of_unsigned (Grammar.mem_sign.mpr (.inr (.inl rfl))) h
  | minus h => exact literal_of_unsigned (Grammar.mem_sign.mpr (.inr (.inr rfl))) h

theorem spelled_of_inRadix (floats : Bool) (wide : Bool) {n : Nat} (hsign : sign ∈ Grammar.sign)
    (h : InRadix body radix digits) (hn : Positional radix digits n) :
    ∃ number, Spelled floats (sign ++ (body ++ suffixText wide)) number ∧
      AsInteger floats sign body wide (signed (sign = ['-']) n) number := by
  obtain ⟨number, hunsigned, hvalue⟩ := unsigned_of_inRadix floats sign wide h
  rw [denoted_eq, hn.ofDigits_eq] at hvalue
  exact ⟨number, spelled_of_unsigned hsign hunsigned, hvalue⟩

theorem spelled_of_decimalText {m : Nat} {scale : Int} {x : Binary64} (hsign : sign ∈ Grammar.sign)
    (hbody : body ∈ Grammar.floating ∨ floats = true ∧ Plain body) (h : DecimalText body m scale)
    (hnegative : x.isNegative = decide (sign = ['-']))
    (hnearest : Binary64.Nearest (m * 10 ^ scale) x.magnitude) :
    Spelled floats (sign ++ body) (.float x) := by
  have hasFloat : ∀ {number}, AsFloat sign body number → number = .float x := by
    rintro number ⟨y, hread, rfl⟩
    rw [h.read?_eq] at hread
    cases hread
    rw [rounded_iff.mpr ⟨hnegative, hnearest⟩]
  rcases hbody with hbody | hplain
  · obtain ⟨number, hunsigned, hvalue⟩ := unsigned_of_floating floats sign hbody
    exact hasFloat hvalue ▸ spelled_of_unsigned hsign hunsigned
  · obtain ⟨number, hunsigned, hvalue, _⟩ :=
      unsigned_of_inRadix floats sign false hplain.2.inRadix
    have hspelled := spelled_of_unsigned hsign hunsigned
    rw [hasFloat (hvalue hplain)] at hspelled
    simpa [suffixText] using hspelled

theorem literal_iff {d : Datum} :
    Literal floats text d ↔ ∃ n, Spelled floats text n ∧ d = .ofNumeral n := by
  constructor
  · intro h
    cases h with
    | @int sign body digits radix n k hsign hradix hn hplain hk =>
      obtain ⟨number, hspelled, _, hkept⟩ := spelled_of_inRadix floats false hsign hradix hn
      have hrange : -2 ^ 63 ≤ k.toInt ∧ k.toInt ≤ 2 ^ 63 - 1 :=
        ⟨Int64.le_toInt k, Int.le_sub_one_of_lt (Int64.toInt_lt k)⟩
      obtain ⟨k', rfl, hk'⟩ := (hkept hplain).1 (hk ▸ hrange)
      obtain rfl := Int64.toInt_inj.mp (hk.trans hk'.symm)
      exact ⟨.int k, by simpa [suffixText] using hspelled, rfl⟩
    | @big sign body digits radix n hsign hradix hn hplain hrange =>
      obtain ⟨number, hspelled, _, hkept⟩ := spelled_of_inRadix floats false hsign hradix hn
      obtain rfl := (hkept hplain).2 hrange
      exact ⟨.big _, by simpa [suffixText] using hspelled, rfl⟩
    | long hsign hradix hn =>
      obtain ⟨number, hspelled, rfl⟩ := spelled_of_inRadix floats true hsign hradix hn
      exact ⟨.big _, hspelled, rfl⟩
    | float hsign hbody htext hnegative hnearest =>
      exact ⟨.float _, spelled_of_decimalText hsign hbody htext hnegative hnearest, rfl⟩
  · rintro ⟨n, hn, rfl⟩
    exact literal_of_spelled hn

theorem Literal.mem {d : Datum} (h : Literal floats text d) : text ∈ Grammar.number := by
  have hinteger : ∀ {sign body radix digits} (wide : Bool), sign ∈ Grammar.sign →
      InRadix body radix digits → sign ++ (body ++ suffixText wide) ∈ Grammar.number :=
    fun wide hsign h => Language.append_mem_mul hsign (.inl (Language.append_mem_mul
      (mem_integer.mpr ⟨_, _, h⟩) (Grammar.mem_suffix.mpr ⟨wide, rfl⟩)))
  have hplain : ∀ {sign body radix digits}, sign ∈ Grammar.sign →
      InRadix body radix digits → sign ++ body ∈ Grammar.number :=
    fun hsign h => by simpa [suffixText] using hinteger false hsign h
  cases h with
  | int hsign hradix _ _ _ => exact hplain hsign hradix
  | big hsign hradix _ _ _ => exact hplain hsign hradix
  | long hsign hradix _ => exact hinteger true hsign hradix
  | float hsign hbody _ _ _ =>
    rcases hbody with hbody | hbody
    · exact Language.append_mem_mul hsign (.inr hbody)
    · exact hplain hsign hbody.2.inRadix

theorem mem_number_iff (floats : Bool) :
    text ∈ Grammar.number ↔ ∃ n, Spelled floats text n := by
  constructor
  · rintro ⟨sign, hsign, body, hinteger | hfloating, rfl⟩
    · obtain ⟨_, hbody, _, hsuffix, rfl⟩ := hinteger
      obtain ⟨radix, digits, hradix⟩ := mem_integer.mp hbody
      obtain ⟨wide, rfl⟩ := Grammar.mem_suffix.mp hsuffix
      obtain ⟨n, hn, _⟩ := unsigned_of_inRadix floats sign wide hradix
      exact ⟨n, spelled_of_unsigned hsign hn⟩
    · obtain ⟨n, hn, _⟩ := unsigned_of_floating floats sign hfloating
      exact ⟨n, spelled_of_unsigned hsign hn⟩
  · rintro ⟨n, h⟩
    exact (literal_of_spelled h).mem

end TableLisp.Numeral

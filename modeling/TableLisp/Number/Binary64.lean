/-!
Numbers of the format binary64, as their 64 bits: a sign, eleven bits of exponent, 52 of fraction.
What a number is (zero, infinite, not a number, a significand times a power of two) is read off the
bits, and `ofRatio` rounds a fraction to the nearest number, a tie going to the even one. `ofInt`
rounds an integer by its first 64 bits.
-/

namespace TableLisp

structure Binary64 where
  bits : UInt64
  deriving DecidableEq, Repr

namespace Binary64

/-- The bits below the sign. -/
def magnitude (x : Binary64) : Nat := x.bits.toNat % Nat.pow 2 63

def isNegative (x : Binary64) : Bool := Nat.pow 2 63 ≤ x.bits.toNat

/-- The magnitude of the infinities; those above it are not numbers. -/
def infinite : Nat := 0x7FF * Nat.pow 2 52

def isNaN (x : Binary64) : Bool := infinite < x.magnitude

def isInfinite (x : Binary64) : Bool := x.magnitude == infinite

def isZero (x : Binary64) : Bool := x.magnitude == 0

/-- A number with the given sign and the bits below it. -/
def ofMagnitude (negative : Bool) (magnitude : Nat) : Binary64 :=
  ⟨UInt64.ofNat (if negative then Nat.pow 2 63 + magnitude else magnitude)⟩

def neg (x : Binary64) : Binary64 := ofMagnitude (!x.isNegative) x.magnitude

/-- A finite number without its sign is `significand * 2 ^ exponent`. -/
def significand (x : Binary64) : Nat :=
  if x.magnitude < Nat.pow 2 52 then x.magnitude else Nat.pow 2 52 + x.magnitude % Nat.pow 2 52

def exponent (x : Binary64) : Int :=
  if x.magnitude < Nat.pow 2 52 then -1074 else (x.magnitude / Nat.pow 2 52 : Nat) - 1075

/-- Two numbers are the same if they have the same bits, and also if both are zero or if both are
not a number. -/
def same (x y : Binary64) : Bool :=
  x == y || (x.isZero && y.isZero) || (x.isNaN && y.isNaN)

/-- The quotient rounded to the nearest integer, a tie to the even one. -/
def roundDiv (num den : Nat) : Nat :=
  let q := num / den
  let twice := 2 * (num % den)
  if twice < den then q
  else if den < twice then q + 1
  else q + q % 2

/-- The greatest `k` with `2 ^ k * den ≤ num`, for positive `num` and `den`. -/
def ratioLog (num den : Nat) : Int :=
  let k : Int := (num.log2 : Int) - den.log2
  if den * Nat.pow 2 k.toNat ≤ num * Nat.pow 2 (-k).toNat then k else k - 1

/-- The magnitude nearest to `num / den`. The significand is rounded to 53 bits, or to the fewer
that small numbers have; what it carries over raises the exponent by itself. -/
def roundRatio (num den : Nat) : Nat :=
  if num = 0 then 0
  else
    let k := max (ratioLog num den - 52) (-1074)
    let significand := roundDiv (num * Nat.pow 2 (-k).toNat) (den * Nat.pow 2 k.toNat)
    min ((k + 1074).toNat * Nat.pow 2 52 + significand) infinite

def ofRatio (negative : Bool) (num den : Nat) : Binary64 :=
  ofMagnitude negative (roundRatio num den)

/-- How many bits the highest word of a positive number has, its words being of 64 bits. -/
def topWidth (n : Nat) : Nat := n.log2 % 64 + 1

/-- Whether one of the lowest `count` words of `n` has a bit set among its lowest `width`. -/
def anySet (width : Nat) : (count n : Nat) → Bool
  | 0, _ => false
  | count + 1, n => n % Nat.pow 2 width != 0 || anySet width count (n / Nat.pow 2 64)

def cutWidth (n : Nat) : Nat := n.log2 - 63

/-- The first 64 bits of `n`. The last of them is set also if bits that were cut off are, so that
what was more than half is not rounded as a half; of each word below the highest one, as many bits
are looked at as the highest has. That is every bit that was cut off as long as `n` has at most two
words. -/
def leading (n : Nat) : Nat :=
  n / Nat.pow 2 (cutWidth n) ||| (anySet (topWidth n) (n.log2 / 64) n).toNat

/-- An integer as a number: its first 64 bits are rounded, and the others count as zeros. -/
def ofInt (n : Int) : Binary64 :=
  ofRatio (n < 0) (leading n.natAbs * Nat.pow 2 (cutWidth n.natAbs)) 1

/-- The number nearest to `digits * 10 ^ scale`. Beyond 400 places to either side the result is
infinite or zero whatever the digits are. -/
def ofDecimal (digits : Nat) (scale : Int) : Binary64 :=
  let order : Int := scale + (Nat.log2 digits / 4 : Nat)
  let bound : Int := scale + Nat.log2 digits
  if digits = 0 then ofMagnitude false 0
  else if 400 < order then ofMagnitude false infinite
  else if bound < -400 then ofMagnitude false 0
  else ofRatio false (digits * Nat.pow 10 scale.toNat) (Nat.pow 10 (-scale).toNat)

def ofFloat (x : Float) : Binary64 := ⟨x.toBits⟩

def toFloat (x : Binary64) : Float := Float.ofBits x.bits

def add (x y : Binary64) : Binary64 := ofFloat (x.toFloat + y.toFloat)

def sub (x y : Binary64) : Binary64 := ofFloat (x.toFloat - y.toFloat)

def mul (x y : Binary64) : Binary64 := ofFloat (x.toFloat * y.toFloat)

def div (x y : Binary64) : Binary64 := ofFloat (x.toFloat / y.toFloat)

/-- How two numbers compare; one that is not a number compares with none. -/
def compare? (x y : Binary64) : Option Ordering :=
  if x.toFloat < y.toFloat then some .lt
  else if y.toFloat < x.toFloat then some .gt
  else if x.isNaN || y.isNaN then none
  else some .eq

theorem same_refl (x : Binary64) : same x x = true := by simp [same]

theorem same_comm (x y : Binary64) : same x y = same y x := by
  simp only [same, Bool.and_comm, Bool.beq_comm]

end Binary64

end TableLisp

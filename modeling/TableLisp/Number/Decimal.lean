import TableLisp.Number.Binary64
import TableLisp.Text.Digit

/-!
Decimal text of binary64 numbers. The digits written are the fewest that denote a value nearer to
the number than to any other, and of those the nearest to it; a tie goes up. The value is written
with a point among its digits from 0.0001 up to 10^16, and with a power of ten outside of that.
-/

namespace TableLisp.Decimal

/-- `digits * 10 ^ scale`. -/
structure Value where
  digits : Nat
  scale : Int
  deriving DecidableEq, Repr

/-- A number between the middles to its two neighbours, all three as multiples of `1 / den`. -/
structure Interval where
  low : Nat
  mid : Nat
  high : Nat
  den : Nat
  /-- Do the ends round to the number as well? -/
  closed : Bool
  deriving DecidableEq, Repr

/-- The values that round to a finite positive number. Below a power of two the neighbours are
half as far apart as above it. -/
def interval (x : Binary64) : Interval :=
  let m := x.significand
  let e := x.exponent - 2
  let up := Nat.pow 2 e.toNat
  let below := if m = Nat.pow 2 52 ∧ x.exponent ≠ -1074 then 1 else 2
  { low := (4 * m - below) * up
    mid := 4 * m * up
    high := (4 * m + 2) * up
    den := Nat.pow 2 (-e).toNat
    closed := m % 2 == 0 }

def Interval.order (i : Interval) : Int :=
  if i.den ≤ i.mid then ((Text.decimalDigits (i.mid / i.den)).length : Int) - 1
  else
    match (List.range 400).find? fun j => i.den ≤ i.mid * Nat.pow 10 j with
    | some j => -(j : Int)
    | none => -400

/-- Of the two multiples of `10 ^ scale` around the number, the nearer of those that round to it. -/
def Interval.nearest? (i : Interval) (scale : Int) : Option Value :=
  let up := Nat.pow 10 (-scale).toNat
  let unit := i.den * Nat.pow 10 scale.toNat
  let low := i.low * up
  let mid := i.mid * up
  let high := i.high * up
  let d := mid / unit
  let inside (v : Nat) : Bool :=
    (low < v && v < high) || (i.closed && (v == low || v == high))
  let down := inside (d * unit)
  let above := inside ((d + 1) * unit)
  if above && (!down || 2 * (mid % unit) ≥ unit) then some ⟨d + 1, scale⟩
  else if down then some ⟨d, scale⟩
  else none

/-- The shortest decimal value that rounds to a finite positive number. -/
def shortest (x : Binary64) : Value :=
  let i := interval x
  let k := i.order
  ((List.range 17).findSome? fun (n : Nat) => i.nearest? (k - (n : Int))).getD ⟨0, 0⟩

def stripZeros (digits : List Char) : List Char :=
  (digits.reverse.dropWhile (· == '0')).reverse

/-- Digits of which the first stands at `10 ^ order`, with a point among them. At least one digit
stands on each side of the point. -/
def positional (digits : List Char) (order : Int) : List Char :=
  if order < 0 then
    ['0', '.'] ++ List.replicate (-order - 1).toNat '0' ++ digits
  else
    let whole := order.toNat + 1
    let fraction := digits.drop whole
    digits.take whole ++ List.replicate (whole - digits.length) '0' ++
      ['.'] ++ (if fraction.isEmpty then ['0'] else fraction)

/-- One digit, a point and the other digits if there are any, then the power of ten. -/
def scientific (digits : List Char) (order : Int) : List Char :=
  let fraction := digits.drop 1
  digits.take 1 ++ (if fraction.isEmpty then [] else '.' :: fraction) ++
    ['e'] ++ Text.integerText order

def positiveText (x : Binary64) : List Char :=
  let value := shortest x
  let digits := Text.decimalDigits value.digits
  let order := value.scale + digits.length - 1
  if -4 ≤ order ∧ order < 16 then positional (stripZeros digits) order
  else scientific (stripZeros digits) order

def text (x : Binary64) : List Char :=
  if x.isNaN then "NaN".toList
  else
    let sign := if x.isNegative then ['-'] else []
    if x.isInfinite then sign ++ "inf".toList
    else if x.isZero then sign ++ "0.0".toList
    else sign ++ positiveText x

def splitFraction : List Char → List Char × List Char
  | '.' :: more => (more.takeWhile Text.isDecimal, more.dropWhile Text.isDecimal)
  | text => ([], text)

def power? : List Char → Option Int
  | [] => some 0
  | e :: more =>
    if e = 'e' ∨ e = 'E' then
      match more with
      | '-' :: digits => (Text.ofDigits? 10 digits).map fun n => -(n : Int)
      | '+' :: digits => (Text.ofDigits? 10 digits).map fun n => (n : Int)
      | digits => (Text.ofDigits? 10 digits).map fun n => (n : Int)
    else none

/-- Reads `digits.digits` with an exponent after `e`; at least one digit has to stand on one side
of the point. -/
def read? (text : List Char) : Option Binary64 :=
  let whole := text.takeWhile Text.isDecimal
  let (fraction, exponent) := splitFraction (text.dropWhile Text.isDecimal)
  let digits := whole ++ fraction
  if digits.isEmpty then none
  else
    (power? exponent).map fun power =>
      .ofDecimal (Text.ofDigits 10 digits) (power - fraction.length)

end TableLisp.Decimal

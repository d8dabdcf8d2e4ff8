/-!
Digits of the radixes up to sixteen, in ASCII, and the numbers that runs of them denote.
-/

namespace TableLisp.Text

def hexValue? (c : Char) : Option Nat :=
  if '0' ≤ c ∧ c ≤ '9' then some (c.toNat - '0'.toNat)
  else if 'a' ≤ c ∧ c ≤ 'f' then some (c.toNat - 'a'.toNat + 10)
  else if 'A' ≤ c ∧ c ≤ 'F' then some (c.toNat - 'A'.toNat + 10)
  else none

def digitValue? (radix : Nat) (c : Char) : Option Nat :=
  (hexValue? c).filter (· < radix)

def isDigitOf (radix : Nat) (c : Char) : Bool := (digitValue? radix c).isSome

def isDecimal (c : Char) : Bool := isDigitOf 10 c

/-- The number that digits denote, most significant first; a character that is no digit counts
as zero. -/
def ofDigits (radix : Nat) (digits : List Char) : Nat :=
  digits.foldl (fun n c => n * radix + (hexValue? c).getD 0) 0

/-- The number that digits denote, if there is at least one and all are digits of `radix`. -/
def ofDigits? (radix : Nat) (digits : List Char) : Option Nat :=
  if digits.isEmpty then none
  else if digits.all (isDigitOf radix) then some (ofDigits radix digits)
  else none

def decimalDigits (n : Nat) : List Char := Nat.toDigits 10 n

def integerText : Int → List Char
  | .ofNat n => decimalDigits n
  | .negSucc n => '-' :: decimalDigits (n + 1)

def hexDigits (n : Nat) : List Char := Nat.toDigits 16 n

def hexCode (n : Nat) : List Char :=
  let digits := (hexDigits n).map Char.toUpper
  List.replicate (4 - digits.length) '0' ++ digits

/-- The character that four hexadecimal digits name; surrogates name none. -/
def ofHexCode? (digits : List Char) : Option Char :=
  if digits.length = 4 ∧ digits.all (isDigitOf 16) then
    let n := ofDigits 16 digits
    if n.isValidChar then some (Char.ofNat n) else none
  else none

end TableLisp.Text

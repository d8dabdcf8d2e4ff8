import TableLisp.Error
import TableLisp.Number.Decimal
import TableLisp.Text.Identifier

/-!
Number literals, decided one character at a time:

    number   sign? (radix | octal | decimal)
    radix    0 (x hex+ | b bin+ | o oct+) n?
    octal    0 digit+ n?      in radix 10 if one of the digits is above 7
    decimal  digit+ (. digit*)? (e sign? digit+)? n?

The suffix `n` asks for an unbounded integer and fits integers only. A literal has to end at the end
of the text, at a blank or at a character that is bound in the table of the reader.
-/

namespace TableLisp

inductive Numeral where
  | int (n : Int64)
  | big (n : Int)
  | float (x : Binary64)
  deriving DecidableEq, Repr

namespace Numeral

/-- An integer that fits in 64 bits is kept in them. -/
def ofInt (n : Int) : Numeral :=
  if Int64.minValue.toInt ≤ n ∧ n ≤ Int64.maxValue.toInt then int (Int64.ofInt n) else big n

/-- How literals are read: which characters end them, and whether an integer without a suffix or a
radix is read as a float. -/
structure Rules where
  bound : Char → Bool
  preferFloats : Bool

/-- A literal under way: what was read of it, and the source behind that. -/
structure Scan where
  lexeme : List Char
  src : Source
  deriving DecidableEq, Repr

namespace Scan

def accept? (p : Char → Bool) (s : Scan) : Option (Char × Scan) :=
  match s.src.next? with
  | some (c, src) => if p c then some (c, ⟨s.lexeme ++ [c], src⟩) else none
  | none => none

def take (p : Char → Bool) (s : Scan) : List Char × Scan :=
  let (taken, src) := s.src.span p
  (taken, ⟨s.lexeme ++ taken, src⟩)

def suffix (s : Scan) : Bool × Scan :=
  match s.accept? (· == 'n') with
  | some (_, s) => (true, s)
  | none => (false, s)

/-- The literal has to stop here; a character that goes on in it is read and makes it malformed. -/
def stop (bound : Char → Bool) (s : Scan) : Except Scan Unit :=
  match s.accept? fun c => !(Text.isBlank c || bound c) with
  | some (_, s) => .error s
  | none => .ok ()

end Scan

abbrev Answer := Except Scan (Numeral × Scan)

def integer (digits : List Char) (radix : Nat) (negative wide : Bool) (s : Scan) : Answer :=
  match Text.ofDigits? radix digits with
  | none => .error s
  | some n =>
    let value : Int := if negative then -(n : Int) else n
    .ok (if wide then .big value else ofInt value, s)

def floating (text : List Char) (negative : Bool) (s : Scan) : Answer :=
  match Decimal.read? text with
  | none => .error s
  | some x => .ok (.float (if negative then x.neg else x), s)

/-- The end of an integer: the suffix, if it is there, and then nothing that goes on in the
literal. -/
def scanEnd (rules : Rules) (answer : Bool → Scan → Answer) (s : Scan) : Answer :=
  let (wide, s) := s.suffix
  match s.stop rules.bound with
  | .error s => .error s
  | .ok () => answer wide s

def scanRadix (rules : Rules) (radix : Nat) (negative : Bool) (s : Scan) : Answer :=
  let (digits, s) := s.take (Text.isDigitOf radix)
  if digits.isEmpty then .error s
  else scanEnd rules (integer digits radix negative) s

def scanSign (s : Scan) : List Char × Scan :=
  match s.accept? fun c => c == '+' || c == '-' with
  | some (c, s) => ([c], s)
  | none => ([], s)

def scanExponent (s : Scan) : Except Scan (List Char × Scan) :=
  match s.accept? fun c => c == 'e' || c == 'E' with
  | none => .ok ([], s)
  | some (e, s) =>
    let (sign, s) := scanSign s
    let (digits, s) := s.take Text.isDecimal
    if digits.isEmpty then .error s else .ok (e :: sign ++ digits, s)

def scanPoint (s : Scan) : List Char × Scan :=
  match s.accept? (· == '.') with
  | none => ([], s)
  | some (_, s) =>
    let (digits, s) := s.take Text.isDecimal
    ('.' :: digits, s)

def scanFraction (rules : Rules) (whole : List Char) (negative : Bool) (s : Scan) : Answer :=
  let (fraction, s) := scanPoint s
  match scanExponent s with
  | .error s => .error s
  | .ok (exponent, s) =>
    match s.stop rules.bound with
    | .error s => .error s
    | .ok () => floating (whole ++ fraction ++ exponent) negative s

def isFractionNext (s : Scan) : Bool :=
  s.src.peek?.any fun c => c == '.' || c == 'e' || c == 'E'

/-- After a zero that a digit follows. The digits are octal if they can be. -/
def scanLeadingZero (rules : Rules) (negative : Bool) (s : Scan) : Answer :=
  let (digits, s) := s.take Text.isDecimal
  if isFractionNext s then scanFraction rules ('0' :: digits) negative s
  else scanEnd rules (integer digits (if digits.all (Text.isDigitOf 8) then 8 else 10) negative) s

def scanDecimal (rules : Rules) (first : Char) (negative : Bool) (s : Scan) : Answer :=
  let (more, s) := s.take Text.isDecimal
  let digits := first :: more
  if isFractionNext s then scanFraction rules digits negative s
  else
    scanEnd rules (fun wide s =>
      if rules.preferFloats && !wide then floating digits negative s
      else integer digits 10 negative wide s) s

def radixOf? : Char → Option Nat
  | 'x' | 'X' => some 16
  | 'b' | 'B' => some 2
  | 'o' | 'O' => some 8
  | _ => none

def scanUnsigned (rules : Rules) (first : Char) (negative : Bool) (s : Scan) : Answer :=
  if first = '0' then
    match s.src.next? with
    | some (c, src) =>
      match radixOf? c with
      | some radix => scanRadix rules radix negative ⟨s.lexeme ++ [c], src⟩
      | none =>
        if Text.isDecimal c then scanLeadingZero rules negative s
        else scanDecimal rules first negative s
    | none => scanDecimal rules first negative s
  else scanDecimal rules first negative s

/-- After the first character. A sign wants a digit; another character after it is read without
becoming part of the literal. -/
def scanSigned (rules : Rules) (first : Char) (src : Source) : Answer :=
  if first = '+' ∨ first = '-' then
    match src.next? with
    | none => .error ⟨[first], src⟩
    | some (c, after) =>
      if Text.isDecimal c then scanUnsigned rules c (first = '-') ⟨[first, c], after⟩
      else .error ⟨[first], after⟩
  else scanUnsigned rules first false ⟨[first], src⟩

def scan (rules : Rules) (first : Char) (src : Source) : Except Error Numeral × Source :=
  match scanSigned rules first src with
  | .ok (value, s) => (.ok value, s.src)
  | .error s => (.error (.numeral s.lexeme src.lastPosition), s.src)

end Numeral

end TableLisp

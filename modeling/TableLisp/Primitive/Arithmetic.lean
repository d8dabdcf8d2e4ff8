import TableLisp.Primitive.Arguments

/-!
Arithmetic. Operands are brought to one kind two at a time: two integers of 64 bits stay such and
wrap around, an unbounded integer makes the other one unbounded, and a float makes all floats.
-/

namespace TableLisp

namespace Numeral

def toBinary64 : Numeral → Binary64
  | int n => .ofInt n.toInt
  | big n => .ofInt n
  | float x => x

end Numeral

namespace Arithmetic

def name (op : Arithmetic) : String := op.profile.name

def operand (op : Arithmetic) : Datum → Except Error Numeral
  | .int n => .ok (.int n)
  | .big n => .ok (.big n)
  | .float x => .ok (.float x)
  | other => .error (Primitive.wrongKind s!"number for {op.name}" other)

def onFloats : Arithmetic → Binary64 → Binary64 → Binary64
  | add => .add
  | sub => .sub
  | mul => .mul
  | div => .div

/-- On unbounded integers; a quotient is cut off toward zero. -/
def onIntegers : Arithmetic → Int → Int → Except Error Int
  | add, a, b => .ok (a + b)
  | sub, a, b => .ok (a - b)
  | mul, a, b => .ok (a * b)
  | div, a, b => if b = 0 then .error .divisionByZero else .ok (a.tdiv b)

/-- On integers of 64 bits, modulo `2 ^ 64`. -/
def onWords : Arithmetic → Int64 → Int64 → Except Error Int64
  | add, a, b => .ok (a + b)
  | sub, a, b => .ok (a - b)
  | mul, a, b => .ok (a * b)
  | div, a, b => if b = 0 then .error .divisionByZero else .ok (a / b)

def combine (op : Arithmetic) : Numeral → Numeral → Except Error Numeral
  | .int a, .int b => (op.onWords a b).map .int
  | .int a, .big b => (op.onIntegers a.toInt b).map .big
  | .big a, .int b => (op.onIntegers a b.toInt).map .big
  | .big a, .big b => (op.onIntegers a b).map .big
  | x, y => .ok (.float (op.onFloats x.toBinary64 y.toBinary64))

def fold (op : Arithmetic) : Numeral → List Datum → Except Error Numeral
  | acc, [] => .ok acc
  | acc, arg :: more =>
    match op.operand arg with
    | .error e => .error e
    | .ok x =>
      match op.combine acc x with
      | .error e => .error e
      | .ok acc => fold op acc more

def ofNone : Arithmetic → Option Int64
  | add => some 0
  | mul => some 1
  | sub | div => none

def unit : Arithmetic → Int64
  | add | sub => 0
  | mul | div => 1

def apply (op : Arithmetic) : List Datum → Except Error Datum
  | [] =>
    match op.ofNone with
    | some n => .ok (.int n)
    | none => .error (.arguments op.name .noArguments)
  | [arg] =>
    match op.operand arg with
    | .error e => .error e
    | .ok x => (op.combine (.int op.unit) x).map Datum.ofNumeral
  | arg :: more =>
    match op.operand arg with
    | .error e => .error e
    | .ok x => (op.fold x more).map Datum.ofNumeral

end Arithmetic

end TableLisp

import TableLisp.Primitive.Arguments

/-!
Equality of any data, and the order of numbers of one kind. Both look at each argument and the next.
-/

namespace TableLisp

namespace Primitive

def allEqual (eq : Datum → Datum → Bool) : List Datum → Bool
  | a :: b :: more => eq a b && allEqual eq (b :: more)
  | _ => true

def applyEqual (eq : Datum → Datum → Bool) (args : List Datum) : Except Error Datum :=
  match expectAtLeast equal.name 1 args with
  | .error e => .error e
  | .ok () => .ok (.bool (allEqual eq args))

end Primitive

namespace OrderOp

def name (op : OrderOp) : String := op.profile.name

def accepts : OrderOp → Ordering → Bool
  | less, o => o == .lt
  | lessEqual, o => o != .gt
  | greater, o => o == .gt
  | greaterEqual, o => o != .lt

/-- How two numbers of one kind compare; there is no answer where one is not a number. -/
def compare (op : OrderOp) : Datum → Datum → Except Error (Option Ordering)
  | .int a, .int b => .ok (some (Ord.compare a.toInt b.toInt))
  | .big a, .big b => .ok (some (Ord.compare a b))
  | .float a, .float b => .ok (a.compare? b)
  | a, b => .error (.mismatch s!"two numbers of the same kind for {op.name}"
      s!"{a.kind.name} and {b.kind.name}")

/-- Does the relation hold between each two neighbours? What follows the first two for which it does
not is not looked at. -/
def chain (op : OrderOp) : List Datum → Except Error Bool
  | a :: b :: more =>
    match op.compare a b with
    | .error e => .error e
    | .ok none => .ok false
    | .ok (some o) => if op.accepts o then chain op (b :: more) else .ok false
  | _ => .ok true

def apply (op : OrderOp) (args : List Datum) : Except Error Datum :=
  match Primitive.expectAtLeast op.name 1 args with
  | .error e => .error e
  | .ok () => (op.chain args).map .bool

end OrderOp

end TableLisp

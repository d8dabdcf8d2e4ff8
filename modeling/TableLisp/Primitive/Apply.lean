import TableLisp.Primitive.Arithmetic
import TableLisp.Primitive.Comparison
import TableLisp.Primitive.Map
import TableLisp.Primitive.Naming
import TableLisp.Primitive.Predicate
import TableLisp.Primitive.Sequence
import TableLisp.Primitive.Text

/-!
Applying a primitive function to arguments that are already evaluated. A function that fails leaves
the machine as it is.
-/

namespace TableLisp.Primitive

/-- The error that a program raises: a string is the message itself. -/
def thrown (m : Machine) : Datum → Error
  | .string message => .thrown message
  | other => .thrown (m.maps.text .readable other)

def readText (host : Host) : Datum → Except Error Datum
  | .string source => (Reader.readFirst host.dialect source).map fun d => d.getD .nil
  | other => .error (wrongKind "string" other)

def readFile (host : Host) (m : Machine) : Datum → Outcome Datum
  | .string path =>
    match host.files path with
    | .contents held => .done (.string held) m
    | .unreadable => .failed (.unreadable path "No such file or directory (os error 2)") m
    | .refused cause => .failed (.unreadable path cause) m
    | .unknown => .brokeOff (.file path)
  | other => .failed (wrongKind "string" other) m

def apply (host : Host) (p : Primitive) (args : List Datum) (m : Machine) : Outcome Datum :=
  match p, args with
  | arithmetic op, args => .ofExcept (op.apply args) m
  | equal, args => .ofExcept (applyEqual m.maps.equal args) m
  | order op, args => .ofExcept (op.apply args) m
  | sequence op, args => .ofExcept (op.apply m.maps.entries args) m
  | predicate op, args => .ofExcept (op.apply args) m
  | naming op, args => .ofExcept (op.apply args) m
  | map op, args =>
    match op.apply m.maps args with
    | .ok (value, maps) => .done value { m with maps := maps }
    | .error e => .failed e m
  | text op, args =>
    let (value, m) := op.apply args m
    .done value m
  | throw, [x] => .failed (thrown m x) m
  | readString, [x] => .ofExcept (readText host x) m
  | slurp, [x] => readFile host m x
  | p, args => .failed (wrongCount p.profile args) m

end TableLisp.Primitive

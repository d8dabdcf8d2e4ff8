import TableLisp.Primitive.Arguments
import TableLisp.Text.Identifier

/-!
Symbols and keywords made from other data. A symbol made here is never a special form, whatever its
name is; a keyword from a string needs an identifier.
-/

namespace TableLisp.NamingOp

def symbolOf : Datum → Except Error Datum
  | .string name => .ok (.var name)
  | .symbol s => .ok (.var s.name)
  | other => .error (Primitive.wrongKind "string" other)

def keywordOf : Datum → Except Error Datum
  | .keyword name => .ok (.keyword name)
  | .symbol s => .ok (.keyword s.name)
  | .string name =>
    if Text.isIdentifier name.toList then .ok (.keyword name)
    else .error (.arguments keyword.profile.name (.keywordName name))
  | other => .error (Primitive.wrongKind "string or symbol" other)

def apply (op : NamingOp) (args : List Datum) : Except Error Datum :=
  match op, args with
  | symbol, [x] => symbolOf x
  | keyword, [x] => keywordOf x
  | op, args => .error (Primitive.wrongCount op.profile args)

end TableLisp.NamingOp

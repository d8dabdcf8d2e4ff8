import TableLisp.Datum.Basic
import TableLisp.Error

/-!
Checks on the arguments of primitive functions that several families share.
-/

namespace TableLisp.Primitive

def wrongCount (profile : Profile) (args : List Datum) : Error :=
  .arguments profile.name (.count (profile.arity.getD 0) args.length)

def expectAtLeast (function : String) (least : Nat) (args : List Datum) : Except Error Unit :=
  if args.length < least then .error (.arguments function (.countAtLeast least args.length))
  else .ok ()

def wrongKind (wanted : String) (d : Datum) : Error := .mismatch wanted d.kind.name

def itemsOf (function : String) : Datum → Except Error (List Datum)
  | .nil => .ok []
  | .list items => .ok items
  | .vector items => .ok items
  | other => .error (wrongKind s!"list or vector for {function}" other)

end TableLisp.Primitive

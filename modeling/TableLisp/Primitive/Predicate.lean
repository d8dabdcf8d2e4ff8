import TableLisp.Primitive.Arguments

/-!
Tests on the kind of a datum.
-/

namespace TableLisp.Predicate

def holds (p : Predicate) (d : Datum) : Bool :=
  match p, d with
  | isNil, .nil => true
  | isTrue, .bool b => b
  | isFalse, .bool b => !b
  | isSymbol, .symbol _ => true
  | isKeyword, .keyword _ => true
  | isString, .string _ => true
  | isNumber, .int _ => true
  | isNumber, .big _ => true
  | isNumber, .float _ => true
  | isList, .list _ => true
  | isVector, .vector _ => true
  | isMap, .map _ => true
  | isMap, .table _ => true
  | isFunction, .primitive _ => true
  | isFunction, .closure c => !c.isMacro
  | isMacro, .closure c => c.isMacro
  | _, _ => false

def apply (p : Predicate) : List Datum → Except Error Datum
  | [x] => .ok (.bool (p.holds x))
  | args => .error (Primitive.wrongCount p.profile args)

end TableLisp.Predicate

/-!
The kinds of data, by which messages name a value.
-/

namespace TableLisp

inductive Kind where
  | nil | boolean | integer | biginteger | float | character | string | symbol | keyword
  | list | vector | map | macroFunction | function
  deriving DecidableEq, Repr

namespace Kind

def name : Kind → String
  | nil => "nil"
  | boolean => "boolean"
  | integer => "integer"
  | biginteger => "biginteger"
  | float => "float"
  | character => "character"
  | string => "string"
  | symbol => "symbol"
  | keyword => "keyword"
  | list => "list"
  | vector => "vector"
  | map => "map"
  | macroFunction => "macro"
  | function => "function"

end Kind

end TableLisp

import TableLisp.Kind
import TableLisp.Number.Binary64
import TableLisp.Number.Numeral
import TableLisp.Primitive.Basic
import TableLisp.Symbol

/-!
Data: what the reader makes of text, and what programs are and compute. A map is held by its
entries if it cannot change, and by the number of its table if it can, so that all who hold it see
a change.
-/

namespace TableLisp

abbrev ScopeId := Nat

/-- Tables of maps that can change are numbered in the order in which they are created. -/
abbrev TableId := Nat

/-- The parameters of a function: those bound one by one, and the one that takes the other
arguments as a list. -/
structure Params where
  fixed : List String
  rest : Option String
  deriving DecidableEq, Repr

/-- A function of a program, together with the scope in which it was made. No two of them have the
same number. -/
structure Closure (β : Type) where
  id : Nat
  name : Option String
  params : Params
  body : β
  scope : ScopeId
  isMacro : Bool

inductive Datum where
  | nil
  | bool (b : Bool)
  | int (n : Int64)
  | big (n : Int)
  | float (x : Binary64)
  | char (c : Char)
  | string (text : String)
  | symbol (s : Symbol)
  | keyword (name : String)
  | list (items : List Datum)
  | vector (items : List Datum)
  | map (entries : List (Datum × Datum))
  | table (id : TableId)
  | primitive (p : Primitive)
  | closure (c : Closure Datum)

instance : Inhabited Datum := ⟨.nil⟩

/-- The keys and values of a map, in the order in which the keys were added. -/
abbrev Entries := List (Datum × Datum)

namespace Datum

def ofNumeral : Numeral → Datum
  | .int n => int n
  | .big n => big n
  | .float x => float x

/-- The symbol that the reader makes of a name. -/
def named (name : String) : Datum := symbol (.ofName name)

def var (name : String) : Datum := symbol (.plain name)

def form (head : SpecialForm) (operands : List Datum) : Datum :=
  list (symbol (.special head) :: operands)

def kind : Datum → Kind
  | nil => .nil
  | bool _ => .boolean
  | int _ => .integer
  | big _ => .biginteger
  | float _ => .float
  | char _ => .character
  | string _ => .string
  | symbol _ => .symbol
  | keyword _ => .keyword
  | list _ => .list
  | vector _ => .vector
  | map _ | table _ => .map
  | primitive _ => .function
  | closure c => if c.isMacro then .macroFunction else .function

def isTruthy : Datum → Bool
  | nil | bool false => false
  | _ => true

def isForm (head : SpecialForm) : Datum → Bool
  | list (symbol (.special h) :: _) => h == head
  | _ => false

end Datum

namespace Params

def toDatum (params : Params) : Datum :=
  .vector (params.fixed.map .var ++
    match params.rest with
    | some name => [.var "&", .var name]
    | none => [])

def accepts (params : Params) (count : Nat) : Bool :=
  match params.rest with
  | some _ => params.fixed.length ≤ count
  | none => count == params.fixed.length

end Params

end TableLisp

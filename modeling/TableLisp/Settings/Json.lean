import TableLisp.Error
import TableLisp.Json
import TableLisp.Settings.Basic

/-!
Settings written in JSON, as an object or as an array of its fields in order. Fields that are not
given keep their initial values, and unknown ones are ignored; a field that is given twice is an
error.
-/

namespace TableLisp.Settings

/-- The value of a field, if it is given; there is no answer if it is given twice. -/
def field (name : String) (members : List (Option String × Json)) : Option (Option Json) :=
  match members.filter fun (key, _) => key == some name with
  | [] => some none
  | [(_, value)] => some (some value)
  | _ => none

def boolean : Json → Option Bool
  | .bool b => some b
  | _ => none

def count : Json → Option Nat
  | .natural n => if n < UInt64.size then some n else none
  | _ => none

def given {α : Type} (read : Json → Option α) (initial : α) : Option Json → Option α
  | none => some initial
  | some value => read value

def reader : Json → Option Bool
  | .object members => do
    if members.any (·.1.isNone) then none
    else given boolean initial.preferFloats (← field "prefer_floats" members)
  | .array items =>
    if items.length ≤ 1 then given boolean initial.preferFloats items[0]? else none
  | _ => none

def ofJson : Json → Option Settings
  | .object members => do
    if members.any (·.1.isNone) then none
    else
      let preferFloats ← given reader initial.preferFloats (← field "reader" members)
      let limit ← given count initial.maxExpansions (← field "max_macro_expansions" members)
      return ⟨preferFloats, limit⟩
  | .array items =>
    if items.length ≤ 2 then do
      let preferFloats ← given reader initial.preferFloats items[0]?
      let limit ← given count initial.maxExpansions items[1]?
      return ⟨preferFloats, limit⟩
    else none
  | _ => none

def parse (text : String) : Except Error Settings :=
  match (Json.parse? text.toList).bind ofJson with
  | some settings => .ok settings
  | none => .error .settings

end TableLisp.Settings

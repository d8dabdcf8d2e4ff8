import TableLisp.Datum.Basic
import TableLisp.Error

/-!
Parameter lists as they are written: names, and after a `&` the one name that takes the remaining
arguments.
-/

namespace TableLisp.Params

/-- The parameter list that a list of forms spells; `owner` is the form that the error names. -/
def parse (owner : String) : List Datum → Except Error Params
  | [] => .ok ⟨[], none⟩
  | .symbol (.plain name) :: more =>
    if name = "&" then
      match more with
      | [.symbol (.plain rest)] => .ok ⟨[], some rest⟩
      | _ => .error (.malformed owner .restParam)
    else
      match parse owner more with
      | .ok params => .ok { params with fixed := name :: params.fixed }
      | .error e => .error e
  | other :: _ => .error (.malformed owner (.paramKind other.kind))

end TableLisp.Params

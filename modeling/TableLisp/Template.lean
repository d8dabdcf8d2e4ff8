import TableLisp.Datum.Basic
import TableLisp.Error

/-!
Templates: data in which some parts are to be computed. `Template.expand` makes a form of a
template, whose value is the data. Symbols and maps are quoted, `(unquote x)` becomes `x`, and
lists and vectors are built up by `cons` and, where a part is to be spliced, `concat`.
-/

namespace TableLisp.Template

def quoted (d : Datum) : Datum := .form .quote [d]

def splice? : Datum → Option (Except Error Datum)
  | .list (.symbol (.special .spliceUnquote) :: operands) =>
    match operands with
    | [x] => some (.ok x)
    | _ => some (.error (.malformed "splice-unquote" .oneOperand))
  | _ => none

mutual

def expand : Datum → Except Error Datum
  | .symbol s => .ok (quoted (.symbol s))
  | .map entries => .ok (quoted (.map entries))
  | .table id => .ok (quoted (.table id))
  | .list items =>
    if items.isEmpty then .ok (quoted (.list items))
    else if Datum.isForm .unquote (.list items) then
      match items with
      | [_, x] => .ok x
      | _ => .error (.malformed "unquote" .oneOperand)
    else expandItems items
  | .vector items =>
    if items.isEmpty then .ok (quoted (.vector items))
    else
      match expandItems items with
      | .ok built => .ok (.list [.named "vec", built])
      | .error e => .error e
  | other => .ok other

/-- The form that computes the list of what templates stand for. The last of them is worked out
first, so of several faults the last is reported. -/
def expandItems : List Datum → Except Error Datum
  | [] => .ok (.list [.named "list"])
  | item :: more =>
    match expandItems more with
    | .error e => .error e
    | .ok tail =>
      match splice? item with
      | some (.error e) => .error e
      | some (.ok x) => .ok (.list [.named "concat", x, tail])
      | none =>
        match expand item with
        | .error e => .error e
        | .ok x => .ok (.list [.named "cons", x, tail])

end

end TableLisp.Template

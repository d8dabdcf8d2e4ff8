import TableLisp.Eval.Loop

/-!
Sessions: one machine that evaluates forms and texts one after the other in the global scope. What
a failed evaluation did before it failed stays done.
-/

namespace TableLisp.Session

def evalForm (host : Host) (fuel : Nat) (form : Datum) (m : Machine) : Outcome Datum :=
  Eval.evalIn host fuel Environment.global form m

/-- Reads and evaluates at most `bound` forms in turn, and answers the last value. -/
def evalForms (host : Host) (fuel : Nat) :
    (bound : Nat) → Source → (last : Datum) → Machine → Outcome Datum
  | 0, _, last, m => .done last m
  | bound + 1, src, last, m =>
    match Reader.read host.dialect src with
    | (.error e, _) => .failed e m
    | (.ok none, _) => .done last m
    | (.ok (some form), src) =>
      (evalForm host fuel form m).andThen fun value m => evalForms host fuel bound src value m

/-- Reads and evaluates the forms of a text, up to the first that fails. Without forms the value is
nil. -/
def evalText (host : Host) (fuel : Nat) (text : String) (m : Machine) : Outcome Datum :=
  let src := Source.ofText text
  evalForms host fuel (src.rest.length + 1) src .nil m

def macroexpand (host : Host) (fuel : Nat) (form : Datum) (m : Machine) : Outcome Datum :=
  Eval.expand host (Eval.evalIn host fuel) Environment.global form m

def define (name : String) (value : Datum) (m : Machine) : Machine :=
  Eval.setIn Environment.global name value m

def lookup (name : String) (m : Machine) : Option Datum :=
  m.env.lookup Environment.global name

def names (m : Machine) : List String := m.env.names Environment.global

end TableLisp.Session

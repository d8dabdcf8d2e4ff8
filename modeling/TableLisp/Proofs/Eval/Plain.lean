import TableLisp.Session

/-! The plain interpreter. Every form that has a value is evaluated by a nested evaluation: the last
form of `let*` and `do`, the chosen branch of `if`, a handler, what a template is rewritten to, and
the body of a function. Scopes are created and never released. The rules that evaluate nothing in
tail position are those of the evaluator. -/

namespace TableLisp.Plain

open Eval (bindingForms bindPairs setIn wrongOperands parseAttempt)

/-- Evaluates forms from left to right, for the value of the last one. -/
def sequence (ev : Datum → Machine → Outcome Datum) : List Datum → Machine → Outcome Datum
  | [], m => ev .nil m
  | [last], m => ev last m
  | form :: more, m => (ev form m).andThen fun _ m => sequence ev more m

/-- `(let* [name value ...] body...)` in a scope made for it. -/
def letStar (ev : Evaluator) (scope : ScopeId) (operands : List Datum) (m : Machine) :
    Outcome Datum :=
  let (child, env) := m.env.child scope
  let m := { m with env := env }
  match bindingForms operands with
  | .error e => .failed e m
  | .ok forms =>
    (bindPairs ev child forms m).andThen fun _ m => sequence (ev child) (operands.drop 1) m

/-- `(if test yes no?)` -/
def branch (ev : Evaluator) (scope : ScopeId) (operands : List Datum) (m : Machine) :
    Outcome Datum :=
  let choose (test yes no : Datum) : Outcome Datum :=
    (ev scope test m).andThen fun value m => ev scope (if value.isTruthy then yes else no) m
  match operands with
  | [test, yes] => choose test yes .nil
  | [test, yes, no] => choose test yes no
  | _ => .failed (.malformed SpecialForm.branch.name (.branches operands.length)) m

/-- `(try body... (catch name handler...))`, where the handler runs in a scope of its own. -/
def attempt (ev : Evaluator) (scope : ScopeId) (operands : List Datum) (m : Machine) :
    Outcome Datum :=
  match parseAttempt operands with
  | .error e => .failed e m
  | .ok attempt =>
    match ev scope attempt.body m with
    | .failed e m =>
      match attempt.handler with
      | none => .failed e m
      | some (name, form) =>
        let (child, env) := m.env.child scope
        ev child form (setIn child name (.string e.message) { m with env := env })
    | outcome => outcome

/-- Calls a closure: its body is evaluated in a new scope. -/
def callClosure (ev : Evaluator) (c : Closure Datum) (args : List Datum) (m : Machine) :
    Outcome Datum :=
  (Eval.enterCall c args m).andThen fun scope m => ev scope c.body m

/-- Expands a form for as long as it calls a macro, at most `left` times of `limit` in all. -/
def expandWithin (ev : Evaluator) (scope : ScopeId) (limit : Nat) :
    (left : Nat) → Datum → Machine → Outcome Datum
  | 0, form, m =>
    match Eval.macroCall? m.env scope form with
    | none => .done form m
    | some _ => .failed (.malformed SpecialForm.macroexpand.name (.unsettled limit)) m
  | left + 1, form, m =>
    match Eval.macroCall? m.env scope form with
    | none => .done form m
    | some (c, operands) =>
      (callClosure ev c operands m).andThen fun form m =>
        expandWithin ev scope limit left form m

def expand (host : Host) (ev : Evaluator) (scope : ScopeId) (form : Datum) (m : Machine) :
    Outcome Datum :=
  let limit := host.settings.maxExpansions
  expandWithin ev scope limit limit form m

/-- A special form. -/
def special (host : Host) (ev : Evaluator) (head : SpecialForm) (operands : List Datum)
    (scope : ScopeId) (m : Machine) : Outcome Datum :=
  match head with
  | .define => Eval.define ev scope operands m
  | .letStar => letStar ev scope operands m
  | .sequence => sequence (ev scope) operands m
  | .branch => branch ev scope operands m
  | .lambda => Eval.lambda scope operands m
  | .quote =>
    match operands with
    | [x] => .done x m
    | _ => .failed (wrongOperands head 1 operands) m
  | .quasiquote =>
    match operands with
    | [x] => (Outcome.ofExcept (Template.expand x) m).andThen fun form m => ev scope form m
    | _ => .failed (wrongOperands head 1 operands) m
  | .quasiquoteExpand =>
    match operands with
    | [x] => .ofExcept (Template.expand x) m
    | _ => .failed (wrongOperands head 1 operands) m
  | .macroexpand =>
    match operands with
    | [x] => expand host ev scope x m
    | _ => .failed (wrongOperands head 1 operands) m
  | .defMacro => Eval.defMacro scope operands m
  | .attempt => attempt ev scope operands m
  | .unquote => .failed (.malformed head.name .outsideTemplate) m
  | .spliceUnquote => .failed (.malformed head.name .outsideTemplate) m
  | .handler => .failed (.malformed head.name .outsideTry) m

/-- A call. The operands are evaluated before the function. -/
def call (host : Host) (ev : Evaluator) (head : Datum) (operands : List Datum) (scope : ScopeId)
    (m : Machine) : Outcome Datum :=
  (Eval.each (ev scope) operands m).andThen fun args m =>
    (ev scope head m).andThen fun function m =>
      match function with
      | .primitive p => p.apply host args m
      | .closure c => callClosure ev c args m
      | other => .failed (.notCallable other.kind) m

/-- Evaluates a form, where `ev` evaluates all forms nested in it. -/
def step (host : Host) (ev : Evaluator) : Evaluator := fun scope form m =>
  (expand host ev scope form m).andThen fun form m =>
    match form with
    | .list (.symbol (.special head) :: operands) => special host ev head operands scope m
    | .list (head :: operands) => call host ev head operands scope m
    | other => Eval.literal ev scope other m

/-- The interpreter, for at most `fuel` evaluations nested one in the other. -/
def eval (host : Host) : (fuel : Nat) → Evaluator
  | 0 => fun _ _ _ => .brokeOff .steps
  | fuel + 1 => step host (eval host fuel)

def evalForms (host : Host) (fuel : Nat) :
    (bound : Nat) → Source → (last : Datum) → Machine → Outcome Datum
  | 0, _, last, m => .done last m
  | bound + 1, src, last, m =>
    match Reader.read host.dialect src with
    | (.error e, _) => .failed e m
    | (.ok none, _) => .done last m
    | (.ok (some form), src) =>
      (eval host fuel Environment.global form m).andThen fun value m =>
        evalForms host fuel bound src value m

def evalText (host : Host) (fuel : Nat) (text : String) (m : Machine) : Outcome Datum :=
  let src := Source.ofText text
  evalForms host fuel (src.rest.length + 1) src .nil m

def macroexpand (host : Host) (fuel : Nat) (form : Datum) (m : Machine) : Outcome Datum :=
  expand host (eval host fuel) Environment.global form m

/-! A sequence is its leading forms, and then the last one. -/

theorem sequence_eq (ev : Datum → Machine → Outcome Datum) (forms : List Datum) (m : Machine) :
    sequence ev forms m = (Eval.leading ev forms m).andThen ev := by
  fun_induction sequence ev forms m with
  | case1 m => rfl
  | case2 m last => rfl
  | case3 form more m hne ih =>
    rw [Eval.leading]
    · cases ev form m with
      | done value m => exact ih m
      | failed e m => rfl
      | brokeOff need => rfl
    · exact hne

theorem letStar_eq (ev : Evaluator) (scope : ScopeId) (operands : List Datum) (m : Machine) :
    letStar ev scope operands m =
      (Eval.enterLet ev (m.env.child scope).1 operands
        { m with env := (m.env.child scope).2 }).andThen (ev (m.env.child scope).1) := by
  unfold letStar Eval.enterLet
  cases bindingForms operands with
  | error e => rfl
  | ok forms =>
    dsimp only
    cases bindPairs ev (m.env.child scope).1 forms { m with env := (m.env.child scope).2 } with
    | done value m => exact sequence_eq ..
    | failed e m => rfl
    | brokeOff need => rfl

end TableLisp.Plain

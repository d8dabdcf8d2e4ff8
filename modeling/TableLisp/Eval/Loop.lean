import TableLisp.Eval.Form

/-!
The evaluation loop. A form in tail position (the last form of `let*` and `do`, the chosen branch
of `if`, a handler, a template, the body of a called function) is not evaluated by a nested
evaluation: the loop goes on with it. The scopes that the loop creates are its own, and are
released when it ends, or when a call leaves nothing behind that could see them.
-/

namespace TableLisp.Eval

/-- What one turn of the loop leads to: an answer, or a form that the loop goes on with; in both
cases with the scopes that the loop owns. -/
inductive Turn where
  | answer (o : Outcome Datum) (owned : List ScopeId)
  | onward (form : Datum) (scope : ScopeId) (owned : List ScopeId) (m : Machine)

@[inline] def orAnswer {α : Type} (o : Outcome α) (owned : List ScopeId)
    (f : α → Machine → Turn) : Turn :=
  match o with
  | .done value m => f value m
  | .failed error m => .answer (.failed error m) owned
  | .brokeOff need => .answer (.brokeOff need) owned

/-- The turn at `let*`. The scope belongs to the loop before anything is bound in it. -/
def turnLet (ev : Evaluator) (operands : List Datum) (scope : ScopeId) (owned : List ScopeId)
    (m : Machine) : Turn :=
  let (child, env) := m.env.child scope
  orAnswer (enterLet ev child operands { m with env := env }) (owned ++ [child]) fun form m =>
    .onward form child (owned ++ [child]) m

def turnBranch (ev : Evaluator) (operands : List Datum) (scope : ScopeId)
    (owned : List ScopeId) (m : Machine) : Turn :=
  let choose (test yes no : Datum) : Turn :=
    orAnswer (ev scope test m) owned fun value m =>
      .onward (if value.isTruthy then yes else no) scope owned m
  match operands with
  | [test, yes] => choose test yes .nil
  | [test, yes, no] => choose test yes no
  | _ => .answer (.failed (.malformed SpecialForm.branch.name (.branches operands.length)) m) owned

/-- The turn at `try`. A handler sees the message of the error under its name. -/
def turnAttempt (ev : Evaluator) (operands : List Datum) (scope : ScopeId)
    (owned : List ScopeId) (m : Machine) : Turn :=
  match parseAttempt operands with
  | .error e => .answer (.failed e m) owned
  | .ok attempt =>
    match ev scope attempt.body m with
    | .failed e m =>
      match attempt.handler with
      | none => .answer (.failed e m) owned
      | some (name, form) =>
        let (child, env) := m.env.child scope
        .onward form child (owned ++ [child])
          (setIn child name (.string e.message) { m with env := env })
    | outcome => .answer outcome owned

def turnSpecial (host : Host) (ev : Evaluator) (head : SpecialForm) (operands : List Datum)
    (scope : ScopeId) (owned : List ScopeId) (m : Machine) : Turn :=
  match head with
  | .define => .answer (define ev scope operands m) owned
  | .letStar => turnLet ev operands scope owned m
  | .sequence =>
    orAnswer (leading (ev scope) operands m) owned fun form m => .onward form scope owned m
  | .branch => turnBranch ev operands scope owned m
  | .lambda => .answer (lambda scope operands m) owned
  | .quote =>
    match operands with
    | [x] => .answer (.done x m) owned
    | _ => .answer (.failed (wrongOperands head 1 operands) m) owned
  | .quasiquote =>
    match operands with
    | [x] => orAnswer (.ofExcept (Template.expand x) m) owned fun form m =>
      .onward form scope owned m
    | _ => .answer (.failed (wrongOperands head 1 operands) m) owned
  | .quasiquoteExpand =>
    match operands with
    | [x] => .answer (.ofExcept (Template.expand x) m) owned
    | _ => .answer (.failed (wrongOperands head 1 operands) m) owned
  | .macroexpand =>
    match operands with
    | [x] => .answer (expand host ev scope x m) owned
    | _ => .answer (.failed (wrongOperands head 1 operands) m) owned
  | .defMacro => .answer (defMacro scope operands m) owned
  | .attempt => turnAttempt ev operands scope owned m
  | .unquote => .answer (.failed (.malformed head.name .outsideTemplate) m) owned
  | .spliceUnquote => .answer (.failed (.malformed head.name .outsideTemplate) m) owned
  | .handler => .answer (.failed (.malformed head.name .outsideTry) m) owned

/-- The turn at a call. The operands are evaluated before the function. The body of a closure does
not see the scopes of the caller, so these are released, and the scope of the call is the only one
that the loop owns then. -/
def turnCall (host : Host) (ev : Evaluator) (head : Datum) (operands : List Datum)
    (scope : ScopeId) (owned : List ScopeId) (m : Machine) : Turn :=
  orAnswer (each (ev scope) operands m) owned fun args m =>
    orAnswer (ev scope head m) owned fun function m =>
      match function with
      | .primitive p => .answer (p.apply host args m) owned
      | .closure c =>
        orAnswer (enterCall c args m) owned fun call m =>
          .onward c.body call [call] { m with env := m.env.releaseAll owned }
      | other => .answer (.failed (.notCallable other.kind) m) owned

/-- One turn of the loop. A list that is not empty is a call, once no macro is left to expand. -/
def turn (host : Host) (ev : Evaluator) (form : Datum) (scope : ScopeId) (owned : List ScopeId)
    (m : Machine) : Turn :=
  orAnswer (expand host ev scope form m) owned fun form m =>
    match form with
    | .list (.symbol (.special head) :: operands) =>
      turnSpecial host ev head operands scope owned m
    | .list (head :: operands) => turnCall host ev head operands scope owned m
    | other => .answer (literal ev scope other m) owned

/-- The loop: at most `fuel` turns, and as many nested one in the other. -/
def loop (host : Host) :
    (fuel : Nat) → Datum → ScopeId → List ScopeId → Machine → Outcome Datum
  | 0, _, _, _, _ => .brokeOff .steps
  | fuel + 1, form, scope, owned, m =>
    match turn host (fun scope form m => loop host fuel form scope [] m) form scope owned m with
    | .answer o owned => o.mapMachine fun m => { m with env := m.env.releaseAll owned }
    | .onward form scope owned m => loop host fuel form scope owned m

/-- Evaluates a form in a scope, and releases the scopes that this created. -/
def evalIn (host : Host) (fuel : Nat) : Evaluator := fun scope form m =>
  loop host fuel form scope [] m

end TableLisp.Eval

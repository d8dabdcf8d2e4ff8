import TableLisp.Primitive.Apply
import TableLisp.Template

/-!
The rules of the single forms. Nested forms are evaluated by a function that the rules are given,
so that each rule can be stated on its own.
-/

namespace TableLisp

abbrev Evaluator := ScopeId → Datum → Machine → Outcome Datum

namespace Eval

def each (ev : Datum → Machine → Outcome Datum) :
    List Datum → Machine → Outcome (List Datum)
  | [], m => .done [] m
  | form :: more, m =>
    (ev form m).andThen fun value m =>
      (each ev more m).andThen fun values m => .done (value :: values) m

def eachEntry (ev : Datum → Machine → Outcome Datum) : Entries → Machine → Outcome Entries
  | [], m => .done [] m
  | (k, v) :: more, m =>
    (ev k m).andThen fun key m =>
      (ev v m).andThen fun value m =>
        (eachEntry ev more m).andThen fun entries m => .done ((key, value) :: entries) m

/-- Evaluates what is not a call: a symbol is looked up, vectors and fixed maps are evaluated within,
and all else stands for itself. -/
def literal (ev : Evaluator) (scope : ScopeId) (form : Datum) (m : Machine) : Outcome Datum :=
  match form with
  | .symbol s => .ofExcept (m.env.get scope s.name) m
  | .vector items => (each (ev scope) items m).andThen fun values m => .done (.vector values) m
  | .map entries =>
    (eachEntry (ev scope) entries m).andThen fun pairs m =>
      .done (.ofPairs m.maps.equal pairs) m
  | other => .done other m

/-- Evaluates all forms but the last, and answers the last one unevaluated. Without forms that is
nil. -/
def leading (ev : Datum → Machine → Outcome Datum) : List Datum → Machine → Outcome Datum
  | [], m => .done .nil m
  | [last], m => .done last m
  | form :: more, m => (ev form m).andThen fun _ m => leading ev more m

/-- A name that may be bound; `owner` is the form that the error names. -/
def bindingName (owner : SpecialForm) : Datum → Except Error String
  | .symbol (.plain name) => .ok name
  | .symbol (.special form) => .error (.malformed owner.name (.specialName form.name))
  | other => .error (.malformed owner.name (.notASymbol other.kind))

/-- One form for several: nil for none, and a sequence for two or more. -/
def body : List Datum → Datum
  | [] => .nil
  | [single] => single
  | forms => .form .sequence forms

def setIn (scope : ScopeId) (name : String) (value : Datum) (m : Machine) : Machine :=
  { m with env := m.env.set scope name value }

def wrongOperands (owner : SpecialForm) (expected : Nat) (operands : List Datum) : Error :=
  .malformed owner.name (.operands expected operands.length)

/-- `(def name value)` binds in the scope it stands in. -/
def define (ev : Evaluator) (scope : ScopeId) (operands : List Datum) (m : Machine) :
    Outcome Datum :=
  match operands with
  | [target, form] =>
    match bindingName .define target with
    | .error e => .failed e m
    | .ok name => (ev scope form m).andThen fun value m => .done value (setIn scope name value m)
  | _ => .failed (wrongOperands .define 2 operands) m

def bindPairs (ev : Evaluator) (scope : ScopeId) : List Datum → Machine → Outcome Unit
  | target :: form :: more, m =>
    match bindingName .letStar target with
    | .error e => .failed e m
    | .ok name =>
      (ev scope form m).andThen fun value m => bindPairs ev scope more (setIn scope name value m)
  | _, m => .done () m

def evenForms (items : List Datum) : Except Error (List Datum) :=
  if items.length % 2 = 0 then .ok items
  else .error (.malformed SpecialForm.letStar.name .oddBindings)

/-- The bindings of `let*`, which may be written as a list too. -/
def bindingForms : List Datum → Except Error (List Datum)
  | [] => .error (.malformed SpecialForm.letStar.name .missingBindings)
  | .vector items :: _ => evenForms items
  | .list items :: _ => evenForms items
  | other :: _ => .error (.malformed SpecialForm.letStar.name (.bindingsKind other.kind))

/-- `(let* [name value ...] body...)` in a scope made for it, up to its last form, which is
answered. -/
def enterLet (ev : Evaluator) (scope : ScopeId) (operands : List Datum) (m : Machine) :
    Outcome Datum :=
  match bindingForms operands with
  | .error e => .failed e m
  | .ok forms =>
    (bindPairs ev scope forms m).andThen fun _ m => leading (ev scope) (operands.drop 1) m

structure Definition where
  name : Option String
  params : Params
  body : Datum

def parseUnnamed (owner : SpecialForm) (name : Option String) :
    List Datum → Except Error Definition
  | .vector params :: forms => (Params.parse owner.name params).map (⟨name, ·, body forms⟩)
  | .list params :: forms => (Params.parse owner.name params).map (⟨name, ·, body forms⟩)
  | _ => .error (.malformed owner.name .missingParams)

/-- A function as it is written after `fn*` or `defmacro`. -/
def parseDefinition (owner : SpecialForm) (operands : List Datum) : Except Error Definition :=
  match operands with
  | .symbol s :: more =>
    match bindingName owner (.symbol s) with
    | .error e => .error e
    | .ok name => parseUnnamed owner (some name) more
  | _ => parseUnnamed owner none operands

/-- Makes a closure over a scope, which is captured by that. If the function has a name, it is bound
to it. -/
def close (scope : ScopeId) (isMacro : Bool) (d : Definition) (m : Machine) : Outcome Datum :=
  let value := Datum.closure ⟨m.closures, d.name, d.params, d.body, scope, isMacro⟩
  let m := { m with env := m.env.capture scope, closures := m.closures + 1 }
  match d.name with
  | some name => .done value (setIn scope name value m)
  | none => .done value m

/-- `(fn* name? [params] body...)` -/
def lambda (scope : ScopeId) (operands : List Datum) (m : Machine) : Outcome Datum :=
  match parseDefinition .lambda operands with
  | .error e => .failed e m
  | .ok d => close scope false d m

/-- `(defmacro name [params] body...)` -/
def defMacro (scope : ScopeId) (operands : List Datum) (m : Machine) : Outcome Datum :=
  match operands with
  | .symbol _ :: _ =>
    match parseDefinition .defMacro operands with
    | .error e => .failed e m
    | .ok d => close scope true d m
  | _ => .failed (.malformed SpecialForm.defMacro.name .macroName) m

structure Attempt where
  body : Datum
  handler : Option (String × Datum)

def parseHandler : List Datum → Except Error (String × Datum)
  | _ :: target :: forms => (bindingName .handler target).map (·, body forms)
  | _ => .error (.malformed SpecialForm.handler.name .catchBinding)

/-- `(try body... (catch name handler...))`. Nothing else may follow a handler. -/
def parseAttempt (operands : List Datum) : Except Error Attempt :=
  let tried := operands.takeWhile fun d => !d.isForm .handler
  let clauses := operands.dropWhile fun d => !d.isForm .handler
  match clauses.find? fun d => !d.isForm .handler with
  | some other => .error (.malformed SpecialForm.attempt.name (.afterCatch other.kind))
  | none =>
    match clauses with
    | .list clause :: _ => (parseHandler clause).map fun handler => ⟨body tried, some handler⟩
    | _ => .ok ⟨body tried, none⟩

def enterCall (c : Closure Datum) (args : List Datum) (m : Machine) : Outcome ScopeId :=
  match Environment.checkCall (c.name.getD SpecialForm.lambda.name) c.params args.length with
  | .error e => .failed e m
  | .ok () =>
    let (scope, env) := m.env.enter c.scope c.params args
    .done scope { m with env := env }

def applyClosure (ev : Evaluator) (c : Closure Datum) (args : List Datum) (m : Machine) :
    Outcome Datum :=
  (enterCall c args m).andThen fun scope m =>
    (ev scope c.body m).mapMachine fun m => { m with env := m.env.release scope }

def macroCall? (env : Environment) (scope : ScopeId) :
    Datum → Option (Closure Datum × List Datum)
  | .list (.symbol (.plain name) :: operands) =>
    match env.lookup scope name with
    | some (.closure c) => if c.isMacro then some (c, operands) else none
    | _ => none
  | _ => none

/-- Expands a form for as long as it calls a macro, at most `left` times of `limit` in all. -/
def expandWithin (ev : Evaluator) (scope : ScopeId) (limit : Nat) :
    (left : Nat) → Datum → Machine → Outcome Datum
  | 0, form, m =>
    match macroCall? m.env scope form with
    | none => .done form m
    | some _ => .failed (.malformed SpecialForm.macroexpand.name (.unsettled limit)) m
  | left + 1, form, m =>
    match macroCall? m.env scope form with
    | none => .done form m
    | some (c, operands) =>
      (applyClosure ev c operands m).andThen fun form m =>
        expandWithin ev scope limit left form m

def expand (host : Host) (ev : Evaluator) (scope : ScopeId) (form : Datum) (m : Machine) :
    Outcome Datum :=
  let limit := host.settings.maxExpansions
  expandWithin ev scope limit limit form m

end Eval

end TableLisp

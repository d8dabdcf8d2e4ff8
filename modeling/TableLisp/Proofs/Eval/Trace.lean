import TableLisp.Session

/-! Evaluation with a record of what it does to scopes. Each rule is stated once more so that it
notes every use of a scope before it is made, every start of a turn of the loop, and the scopes
that are held then; without the record the rules are those of the evaluator. A run that breaks off
keeps the record of what it did up to there, so the record of a run that never ends is there too,
piece by piece. -/

namespace TableLisp

/-- One use of the scopes. -/
inductive ScopeOp where
  | child (parent : ScopeId)
  | set (scope : ScopeId) (name : String) (value : Datum)
  | lookup (scope : ScopeId) (name : String)
  | bind (parent : ScopeId) (params : Params) (args : List Datum)
  | capture (scope : ScopeId)
  | release (scope : ScopeId)

/-- The scopes that are held: one list for each evaluation or macro call that is under way, the
innermost first. -/
abbrev Frames := List (List ScopeId)

inductive Event where
  | use (op : ScopeOp)
  /-- A turn of the loop begins. -/
  | turn (frames : Frames)
  /-- The loop goes on with the body of a closure. -/
  | tailCall (call : ScopeId)
  /-- There is a new closure. -/
  | made (c : Closure Datum)

abbrev Log := List Event

namespace ScopeOp

/-- The scope that is handed over. -/
def scope : ScopeOp → ScopeId
  | child parent => parent
  | set scope _ _ => scope
  | lookup scope _ => scope
  | bind parent _ _ => parent
  | capture scope => scope
  | release scope => scope

def run : ScopeOp → Environment → Environment
  | child parent, env => (env.child parent).2
  | set scope name value, env => env.set scope name value
  | lookup _ _, env => env
  | bind parent params args, env =>
    if params.accepts args.length then (env.enter parent params args).2 else env
  | capture scope, env => env.capture scope
  | release scope, env => env.release scope

end ScopeOp

namespace Event

def run : Event → Environment → Environment
  | use op, env => op.run env
  | _, env => env

end Event

/-- The scopes after all that is on record. -/
def Environment.replay (env : Environment) (log : Log) : Environment :=
  log.foldl (fun env event => event.run env) env

/-- An outcome and the record of how it came about. -/
structure Traced (α : Type) where
  log : Log
  outcome : Outcome α

namespace Traced

variable {α β : Type}

def done (value : α) (m : Machine) : Traced α := ⟨[], .done value m⟩

def failed (e : Error) (m : Machine) : Traced α := ⟨[], .failed e m⟩

def ofExcept (result : Except Error α) (m : Machine) : Traced α := ⟨[], .ofExcept result m⟩

/-- Puts what was done before in front. -/
def after (log : Log) (t : Traced α) : Traced α := ⟨log ++ t.log, t.outcome⟩

def andThen (t : Traced α) (f : α → Machine → Traced β) : Traced β :=
  match t.outcome with
  | .done value m => (f value m).after t.log
  | .failed e m => ⟨t.log, .failed e m⟩
  | .brokeOff need => ⟨t.log, .brokeOff need⟩

/-- Makes a use of the scopes and goes on. -/
def noting (op : ScopeOp) (t : Traced α) : Traced α := t.after [.use op]

/-- Releases scopes when an evaluation has ended. -/
def releasing (owned : List ScopeId) (t : Traced α) : Traced α :=
  let uses := owned.map fun id => Event.use (.release id)
  match t.outcome with
  | .done value m => ⟨t.log ++ uses, .done value { m with env := m.env.releaseAll owned }⟩
  | .failed e m => ⟨t.log ++ uses, .failed e { m with env := m.env.releaseAll owned }⟩
  | .brokeOff need => ⟨t.log, .brokeOff need⟩

end Traced

/-- Evaluates a form in a scope while the given scopes are held. -/
abbrev TracedEvaluator := Frames → ScopeId → Datum → Machine → Traced Datum

namespace Traced

open Eval (bindingName bindingForms setIn wrongOperands Definition parseDefinition)

def each (ev : Datum → Machine → Traced Datum) :
    List Datum → Machine → Traced (List Datum)
  | [], m => done [] m
  | form :: more, m =>
    (ev form m).andThen fun value m =>
      (each ev more m).andThen fun values m => done (value :: values) m

def eachEntry (ev : Datum → Machine → Traced Datum) : Entries → Machine → Traced Entries
  | [], m => done [] m
  | (k, v) :: more, m =>
    (ev k m).andThen fun key m =>
      (ev v m).andThen fun value m =>
        (eachEntry ev more m).andThen fun entries m => done ((key, value) :: entries) m

def literal (ev : Datum → Machine → Traced Datum) (scope : ScopeId) (form : Datum)
    (m : Machine) : Traced Datum :=
  match form with
  | .symbol s => noting (.lookup scope s.name) (ofExcept (m.env.get scope s.name) m)
  | .vector items => (each ev items m).andThen fun values m => done (.vector values) m
  | .map entries =>
    (eachEntry ev entries m).andThen fun pairs m => done (.ofPairs m.maps.equal pairs) m
  | other => done other m

def leading (ev : Datum → Machine → Traced Datum) : List Datum → Machine → Traced Datum
  | [], m => done .nil m
  | [last], m => done last m
  | form :: more, m => (ev form m).andThen fun _ m => leading ev more m

def define (ev : Datum → Machine → Traced Datum) (scope : ScopeId) (operands : List Datum)
    (m : Machine) : Traced Datum :=
  match operands with
  | [target, form] =>
    match bindingName .define target with
    | .error e => failed e m
    | .ok name =>
      (ev form m).andThen fun value m =>
        noting (.set scope name value) (done value (setIn scope name value m))
  | _ => failed (wrongOperands .define 2 operands) m

def bindPairs (ev : Datum → Machine → Traced Datum) (scope : ScopeId) :
    List Datum → Machine → Traced Unit
  | target :: form :: more, m =>
    match bindingName .letStar target with
    | .error e => failed e m
    | .ok name =>
      (ev form m).andThen fun value m =>
        noting (.set scope name value) (bindPairs ev scope more (setIn scope name value m))
  | _, m => done () m

def enterLet (ev : Datum → Machine → Traced Datum) (scope : ScopeId) (operands : List Datum)
    (m : Machine) : Traced Datum :=
  match bindingForms operands with
  | .error e => failed e m
  | .ok forms =>
    (bindPairs ev scope forms m).andThen fun _ m => leading ev (operands.drop 1) m

def close (scope : ScopeId) (isMacro : Bool) (d : Definition) (m : Machine) : Traced Datum :=
  let c : Closure Datum := ⟨m.closures, d.name, d.params, d.body, scope, isMacro⟩
  let value := Datum.closure c
  let m := { m with env := m.env.capture scope, closures := m.closures + 1 }
  after [.use (.capture scope), .made c] <|
    match d.name with
    | some name => noting (.set scope name value) (done value (setIn scope name value m))
    | none => done value m

def lambda (scope : ScopeId) (operands : List Datum) (m : Machine) : Traced Datum :=
  match parseDefinition .lambda operands with
  | .error e => failed e m
  | .ok d => close scope false d m

def defMacro (scope : ScopeId) (operands : List Datum) (m : Machine) : Traced Datum :=
  match operands with
  | .symbol _ :: _ =>
    match parseDefinition .defMacro operands with
    | .error e => failed e m
    | .ok d => close scope true d m
  | _ => failed (.malformed SpecialForm.defMacro.name .macroName) m

def enterCall (c : Closure Datum) (args : List Datum) (m : Machine) : Traced ScopeId :=
  noting (.bind c.scope c.params args) <|
    match Environment.checkCall (c.name.getD SpecialForm.lambda.name) c.params args.length with
    | .error e => failed e m
    | .ok () =>
      let (scope, env) := m.env.enter c.scope c.params args
      done scope { m with env := env }

def applyClosure (ev : TracedEvaluator) (frames : Frames) (c : Closure Datum)
    (args : List Datum) (m : Machine) : Traced Datum :=
  (enterCall c args m).andThen fun scope m =>
    (ev ([scope] :: frames) scope c.body m).releasing [scope]

/-- The look-up by which a form is told to be a macro call, if it takes one. -/
def macroUses (scope : ScopeId) : Datum → Log
  | .list (.symbol (.plain name) :: _) => [.use (.lookup scope name)]
  | _ => []

def expandWithin (ev : TracedEvaluator) (frames : Frames) (scope : ScopeId) (limit : Nat) :
    (left : Nat) → Datum → Machine → Traced Datum
  | 0, form, m =>
    after (macroUses scope form) <|
      match Eval.macroCall? m.env scope form with
      | none => done form m
      | some _ => failed (.malformed SpecialForm.macroexpand.name (.unsettled limit)) m
  | left + 1, form, m =>
    after (macroUses scope form) <|
      match Eval.macroCall? m.env scope form with
      | none => done form m
      | some (c, operands) =>
        (applyClosure ev frames c operands m).andThen fun form m =>
          expandWithin ev frames scope limit left form m

def expand (host : Host) (ev : TracedEvaluator) (frames : Frames) (scope : ScopeId)
    (form : Datum) (m : Machine) : Traced Datum :=
  let limit := host.settings.maxExpansions
  expandWithin ev frames scope limit limit form m

end Traced

/-- A turn of the loop and the record of how it came about. -/
structure TracedTurn where
  log : Log
  next : Eval.Turn

namespace TracedTurn

open Eval (setIn wrongOperands parseAttempt)

def answer (t : Traced Datum) (owned : List ScopeId) : TracedTurn :=
  ⟨t.log, .answer t.outcome owned⟩

def onward (form : Datum) (scope : ScopeId) (owned : List ScopeId) (m : Machine) : TracedTurn :=
  ⟨[], .onward form scope owned m⟩

def after (log : Log) (t : TracedTurn) : TracedTurn := ⟨log ++ t.log, t.next⟩

def orAnswer {α : Type} (t : Traced α) (owned : List ScopeId)
    (f : α → Machine → TracedTurn) : TracedTurn :=
  match t.outcome with
  | .done value m => (f value m).after t.log
  | .failed e m => ⟨t.log, .answer (.failed e m) owned⟩
  | .brokeOff need => ⟨t.log, .answer (.brokeOff need) owned⟩

def turnLet (ev : TracedEvaluator) (outer : Frames) (operands : List Datum) (scope : ScopeId)
    (owned : List ScopeId) (m : Machine) : TracedTurn :=
  let (child, env) := m.env.child scope
  let owned := owned ++ [child]
  after [.use (.child scope)] <|
    orAnswer (Traced.enterLet (ev (owned :: outer) child) child operands { m with env := env })
      owned fun form m => onward form child owned m

def turnBranch (ev : Datum → Machine → Traced Datum) (operands : List Datum) (scope : ScopeId)
    (owned : List ScopeId) (m : Machine) : TracedTurn :=
  let choose (test yes no : Datum) : TracedTurn :=
    orAnswer (ev test m) owned fun value m =>
      onward (if value.isTruthy then yes else no) scope owned m
  match operands with
  | [test, yes] => choose test yes .nil
  | [test, yes, no] => choose test yes no
  | _ =>
    answer (.failed (.malformed SpecialForm.branch.name (.branches operands.length)) m) owned

def turnAttempt (ev : Datum → Machine → Traced Datum) (operands : List Datum) (scope : ScopeId)
    (owned : List ScopeId) (m : Machine) : TracedTurn :=
  match parseAttempt operands with
  | .error e => answer (.failed e m) owned
  | .ok attempt =>
    let tried := ev attempt.body m
    match tried.outcome with
    | .failed e m =>
      match attempt.handler with
      | none => ⟨tried.log, .answer (.failed e m) owned⟩
      | some (name, form) =>
        let (child, env) := m.env.child scope
        after (tried.log ++ [.use (.child scope), .use (.set child name (.string e.message))]) <|
          onward form child (owned ++ [child])
            (setIn child name (.string e.message) { m with env := env })
    | outcome => ⟨tried.log, .answer outcome owned⟩

def turnSpecial (host : Host) (ev : TracedEvaluator) (outer : Frames) (head : SpecialForm)
    (operands : List Datum) (scope : ScopeId) (owned : List ScopeId) (m : Machine) :
    TracedTurn :=
  let inner := ev (owned :: outer) scope
  match head with
  | .define => answer (Traced.define inner scope operands m) owned
  | .letStar => turnLet ev outer operands scope owned m
  | .sequence =>
    orAnswer (Traced.leading inner operands m) owned fun form m => onward form scope owned m
  | .branch => turnBranch inner operands scope owned m
  | .lambda => answer (Traced.lambda scope operands m) owned
  | .quote =>
    match operands with
    | [x] => answer (.done x m) owned
    | _ => answer (.failed (wrongOperands head 1 operands) m) owned
  | .quasiquote =>
    match operands with
    | [x] =>
      orAnswer (.ofExcept (Template.expand x) m) owned fun form m => onward form scope owned m
    | _ => answer (.failed (wrongOperands head 1 operands) m) owned
  | .quasiquoteExpand =>
    match operands with
    | [x] => answer (.ofExcept (Template.expand x) m) owned
    | _ => answer (.failed (wrongOperands head 1 operands) m) owned
  | .macroexpand =>
    match operands with
    | [x] => answer (Traced.expand host ev (owned :: outer) scope x m) owned
    | _ => answer (.failed (wrongOperands head 1 operands) m) owned
  | .defMacro => answer (Traced.defMacro scope operands m) owned
  | .attempt => turnAttempt inner operands scope owned m
  | .unquote => answer (.failed (.malformed head.name .outsideTemplate) m) owned
  | .spliceUnquote => answer (.failed (.malformed head.name .outsideTemplate) m) owned
  | .handler => answer (.failed (.malformed head.name .outsideTry) m) owned

def turnCall (host : Host) (ev : Datum → Machine → Traced Datum) (head : Datum)
    (operands : List Datum) (owned : List ScopeId) (m : Machine) : TracedTurn :=
  orAnswer (Traced.each ev operands m) owned fun args m =>
    orAnswer (ev head m) owned fun function m =>
      match function with
      | .primitive p => answer ⟨[], p.apply host args m⟩ owned
      | .closure c =>
        orAnswer (Traced.enterCall c args m) owned fun call m =>
          after (owned.map (fun id => .use (.release id)) ++ [.tailCall call]) <|
            onward c.body call [call] { m with env := m.env.releaseAll owned }
      | other => answer (.failed (.notCallable other.kind) m) owned

def turn (host : Host) (ev : TracedEvaluator) (outer : Frames) (form : Datum) (scope : ScopeId)
    (owned : List ScopeId) (m : Machine) : TracedTurn :=
  orAnswer (Traced.expand host ev (owned :: outer) scope form m) owned fun form m =>
    match form with
    | .list (.symbol (.special head) :: operands) =>
      turnSpecial host ev outer head operands scope owned m
    | .list (head :: operands) =>
      turnCall host (ev (owned :: outer) scope) head operands owned m
    | other => answer (Traced.literal (ev (owned :: outer) scope) scope other m) owned

end TracedTurn

namespace Traced

/-- The loop, where `outer` are the scopes held by the evaluations around it. -/
def loop (host : Host) :
    (fuel : Nat) → Frames → Datum → ScopeId → List ScopeId → Machine → Traced Datum
  | 0, _, _, _, _, _ => ⟨[], .brokeOff .steps⟩
  | fuel + 1, outer, form, scope, owned, m =>
    let ev : TracedEvaluator := fun frames scope form m => loop host fuel frames form scope [] m
    let step := TracedTurn.turn host ev outer form scope owned m
    after [.turn (owned :: outer)] <|
      match step.next with
      | .answer o owned => releasing owned ⟨step.log, o⟩
      | .onward form scope owned m => (loop host fuel outer form scope owned m).after step.log

/-- Evaluates a form in a scope while `frames` are held. -/
def evalIn (host : Host) (fuel : Nat) : TracedEvaluator := fun frames scope form m =>
  loop host fuel frames form scope [] m

def evalForms (host : Host) (fuel : Nat) :
    (bound : Nat) → Source → (last : Datum) → Machine → Traced Datum
  | 0, _, last, m => done last m
  | bound + 1, src, last, m =>
    match Reader.read host.dialect src with
    | (.error e, _) => failed e m
    | (.ok none, _) => done last m
    | (.ok (some form), src) =>
      (evalIn host fuel [] Environment.global form m).andThen fun value m =>
        evalForms host fuel bound src value m

def evalText (host : Host) (fuel : Nat) (text : String) (m : Machine) : Traced Datum :=
  let src := Source.ofText text
  evalForms host fuel (src.rest.length + 1) src .nil m

def macroexpand (host : Host) (fuel : Nat) (form : Datum) (m : Machine) : Traced Datum :=
  expand host (evalIn host fuel) [] Environment.global form m

/-- The record left out, the evaluations are the same. -/
abbrev Erases (tev : TracedEvaluator) (ev : Evaluator) : Prop :=
  ∀ frames scope form m, (tev frames scope form m).outcome = ev scope form m

variable {α β : Type} {ev : Datum → Machine → Traced Datum} {ev₀ : Datum → Machine → Outcome Datum}

@[simp] theorem outcome_after (log : Log) (t : Traced α) : (t.after log).outcome = t.outcome := rfl

@[simp] theorem outcome_noting (op : ScopeOp) (t : Traced α) :
    (noting op t).outcome = t.outcome := rfl

@[simp] theorem outcome_andThen (t : Traced α) (f : α → Machine → Traced β) :
    (t.andThen f).outcome = t.outcome.andThen fun value m => (f value m).outcome := by
  unfold andThen Outcome.andThen
  split <;> simp_all

@[simp] theorem outcome_releasing (owned : List ScopeId) (t : Traced α) :
    (t.releasing owned).outcome =
      t.outcome.mapMachine fun m => { m with env := m.env.releaseAll owned } := by
  unfold releasing Outcome.mapMachine
  split <;> simp_all

theorem outcome_each (h : ∀ form m, (ev form m).outcome = ev₀ form m) (forms : List Datum)
    (m : Machine) : (each ev forms m).outcome = Eval.each ev₀ forms m := by
  induction forms generalizing m with
  | nil => rfl
  | cons form more ih => simp [each, Eval.each, h, ih, done]

theorem outcome_eachEntry (h : ∀ form m, (ev form m).outcome = ev₀ form m) (entries : Entries)
    (m : Machine) : (eachEntry ev entries m).outcome = Eval.eachEntry ev₀ entries m := by
  induction entries generalizing m with
  | nil => rfl
  | cons e more ih =>
    obtain ⟨k, v⟩ := e
    simp [eachEntry, Eval.eachEntry, h, ih, done]

theorem outcome_leading (h : ∀ form m, (ev form m).outcome = ev₀ form m) (forms : List Datum)
    (m : Machine) : (leading ev forms m).outcome = Eval.leading ev₀ forms m := by
  fun_induction Eval.leading ev₀ forms m with
  | case1 m => rfl
  | case2 m last => rfl
  | case3 form more m hne ih => simp [leading, h, ih]

theorem outcome_bindPairs {ev₁ : Evaluator} (scope : ScopeId)
    (h : ∀ form m, (ev form m).outcome = ev₁ scope form m) (forms : List Datum) (m : Machine) :
    (bindPairs ev scope forms m).outcome = Eval.bindPairs ev₁ scope forms m := by
  fun_induction bindPairs ev scope forms m with
  | case1 target form more m e he => simp [Eval.bindPairs, he, failed]
  | case2 target form more m name he ih => simp [Eval.bindPairs, he, h, ih]
  | case3 forms m hne =>
    rcases forms with _ | ⟨x, _ | ⟨y, more⟩⟩
    · rfl
    · rfl
    · exact absurd rfl (hne x y more)

theorem outcome_enterCall (c : Closure Datum) (args : List Datum) (m : Machine) :
    (enterCall c args m).outcome = Eval.enterCall c args m := by
  unfold enterCall Eval.enterCall
  rw [outcome_noting]
  cases Environment.checkCall (c.name.getD SpecialForm.lambda.name) c.params args.length <;> rfl

theorem outcome_close (scope : ScopeId) (isMacro : Bool) (d : Eval.Definition) (m : Machine) :
    (close scope isMacro d m).outcome = Eval.close scope isMacro d m := by
  unfold close Eval.close
  dsimp only
  rw [outcome_after]
  cases d.name <;> rfl

theorem outcome_lambda (scope : ScopeId) (operands : List Datum) (m : Machine) :
    (lambda scope operands m).outcome = Eval.lambda scope operands m := by
  unfold lambda Eval.lambda
  cases Eval.parseDefinition .lambda operands with
  | error e => rfl
  | ok d => exact outcome_close ..

theorem outcome_defMacro (scope : ScopeId) (operands : List Datum) (m : Machine) :
    (defMacro scope operands m).outcome = Eval.defMacro scope operands m := by
  rcases operands with _ | ⟨⟨⟩, more⟩ <;> try rfl
  simp only [defMacro, Eval.defMacro]
  cases Eval.parseDefinition .defMacro _ with
  | error e => rfl
  | ok d => exact outcome_close ..

variable {tev : TracedEvaluator} {ev₁ : Evaluator}

theorem outcome_literal (h : Erases tev ev₁) (frames : Frames) (scope : ScopeId) (form : Datum)
    (m : Machine) :
    (literal (tev frames scope) scope form m).outcome = Eval.literal ev₁ scope form m := by
  cases form with
  | vector items => simp [literal, Eval.literal, outcome_each (h frames scope), done]
  | map entries => simp [literal, Eval.literal, outcome_eachEntry (h frames scope), done]
  | _ => rfl

theorem outcome_define (h : Erases tev ev₁) (frames : Frames) (scope : ScopeId)
    (operands : List Datum) (m : Machine) :
    (define (tev frames scope) scope operands m).outcome = Eval.define ev₁ scope operands m := by
  rcases operands with _ | ⟨target, _ | ⟨form, _ | ⟨x, more⟩⟩⟩ <;> try rfl
  simp only [define, Eval.define]
  cases Eval.bindingName .define target with
  | error e => rfl
  | ok name => simp [h, done]

theorem outcome_enterLet (h : Erases tev ev₁) (frames : Frames) (scope : ScopeId)
    (operands : List Datum) (m : Machine) :
    (enterLet (tev frames scope) scope operands m).outcome =
      Eval.enterLet ev₁ scope operands m := by
  unfold enterLet Eval.enterLet
  cases Eval.bindingForms operands with
  | error e => rfl
  | ok forms =>
    simp only [outcome_andThen, outcome_bindPairs scope (h frames scope),
      outcome_leading (h frames scope)]

theorem outcome_applyClosure (h : Erases tev ev₁) (frames : Frames) (c : Closure Datum)
    (args : List Datum) (m : Machine) :
    (applyClosure tev frames c args m).outcome = Eval.applyClosure ev₁ c args m := by
  simp [applyClosure, Eval.applyClosure, outcome_enterCall, h, Environment.releaseAll]

theorem outcome_expandWithin (h : Erases tev ev₁) (frames : Frames) (scope : ScopeId)
    (limit left : Nat) (form : Datum) (m : Machine) :
    (expandWithin tev frames scope limit left form m).outcome =
      Eval.expandWithin ev₁ scope limit left form m := by
  induction left generalizing form m with
  | zero =>
    unfold expandWithin Eval.expandWithin
    rw [outcome_after]
    cases Eval.macroCall? m.env scope form <;> rfl
  | succ left ih =>
    unfold expandWithin Eval.expandWithin
    rw [outcome_after]
    cases Eval.macroCall? m.env scope form with
    | none => rfl
    | some call => simp [outcome_applyClosure h, ih]

end Traced

namespace TracedTurn

open Traced (Erases)

variable {tev : TracedEvaluator} {ev₁ : Evaluator}

@[simp] theorem next_after (log : Log) (t : TracedTurn) : (t.after log).next = t.next := rfl

@[simp] theorem next_orAnswer {α : Type} (t : Traced α) (owned : List ScopeId)
    (f : α → Machine → TracedTurn) :
    (orAnswer t owned f).next =
      Eval.orAnswer t.outcome owned fun value m => (f value m).next := by
  unfold orAnswer Eval.orAnswer
  split <;> simp_all

theorem next_turnLet (h : Erases tev ev₁) (outer : Frames) (operands : List Datum) (scope : ScopeId)
    (owned : List ScopeId) (m : Machine) :
    (turnLet tev outer operands scope owned m).next =
      Eval.turnLet ev₁ operands scope owned m := by
  simp [turnLet, Eval.turnLet, Traced.outcome_enterLet h, onward]

theorem next_turnBranch (h : Erases tev ev₁) (frames : Frames) (operands : List Datum)
    (scope : ScopeId) (owned : List ScopeId) (m : Machine) :
    (turnBranch (tev frames scope) operands scope owned m).next =
      Eval.turnBranch ev₁ operands scope owned m := by
  rcases operands with _ | ⟨test, _ | ⟨yes, _ | ⟨no, _ | ⟨x, more⟩⟩⟩⟩ <;> try rfl
  · simp [turnBranch, Eval.turnBranch, h, onward]
  · simp [turnBranch, Eval.turnBranch, h, onward]

theorem next_turnAttempt (h : Erases tev ev₁) (frames : Frames) (operands : List Datum)
    (scope : ScopeId) (owned : List ScopeId) (m : Machine) :
    (turnAttempt (tev frames scope) operands scope owned m).next =
      Eval.turnAttempt ev₁ operands scope owned m := by
  unfold turnAttempt Eval.turnAttempt
  cases Eval.parseAttempt operands with
  | error e => rfl
  | ok attempt =>
    dsimp only
    rw [h]
    cases ev₁ scope attempt.body m with
    | done value m => rfl
    | brokeOff need => rfl
    | failed e m => cases attempt.handler <;> rfl

theorem next_turnSpecial (h : Erases tev ev₁) (host : Host) (outer : Frames) (head : SpecialForm)
    (operands : List Datum) (scope : ScopeId) (owned : List ScopeId) (m : Machine) :
    (turnSpecial host tev outer head operands scope owned m).next =
      Eval.turnSpecial host ev₁ head operands scope owned m := by
  cases head with
  | define => simp [turnSpecial, Eval.turnSpecial, answer, Traced.outcome_define h]
  | letStar => exact next_turnLet h ..
  | sequence =>
    simp [turnSpecial, Eval.turnSpecial, Traced.outcome_leading (h _ scope), onward]
  | branch => exact next_turnBranch h ..
  | lambda => simp [turnSpecial, Eval.turnSpecial, answer, Traced.outcome_lambda]
  | quote => rcases operands with _ | ⟨x, _ | ⟨y, more⟩⟩ <;> rfl
  | quasiquote =>
    rcases operands with _ | ⟨x, _ | ⟨y, more⟩⟩ <;> try rfl
    simp [turnSpecial, Eval.turnSpecial, Traced.ofExcept, onward]
  | quasiquoteExpand => rcases operands with _ | ⟨x, _ | ⟨y, more⟩⟩ <;> rfl
  | macroexpand =>
    rcases operands with _ | ⟨x, _ | ⟨y, more⟩⟩ <;> try rfl
    simp [turnSpecial, Eval.turnSpecial, answer, Traced.expand, Eval.expand,
      Traced.outcome_expandWithin h]
  | defMacro => simp [turnSpecial, Eval.turnSpecial, answer, Traced.outcome_defMacro]
  | attempt => exact next_turnAttempt h ..
  | unquote => rfl
  | spliceUnquote => rfl
  | handler => rfl

theorem next_turnCall (h : Erases tev ev₁) (host : Host) (frames : Frames) (head : Datum)
    (operands : List Datum) (scope : ScopeId) (owned : List ScopeId) (m : Machine) :
    (turnCall host (tev frames scope) head operands owned m).next =
      Eval.turnCall host ev₁ head operands scope owned m := by
  simp only [turnCall, Eval.turnCall, next_orAnswer, Traced.outcome_each (h frames scope), h]
  congr 1
  funext args m
  congr 1
  funext function m
  cases function with
  | closure c => simp [Traced.outcome_enterCall, onward]
  | _ => rfl

theorem next_turn (h : Erases tev ev₁) (host : Host) (outer : Frames) (form : Datum)
    (scope : ScopeId) (owned : List ScopeId) (m : Machine) :
    (turn host tev outer form scope owned m).next = Eval.turn host ev₁ form scope owned m := by
  simp only [turn, Eval.turn, next_orAnswer, Traced.expand, Eval.expand,
    Traced.outcome_expandWithin h]
  congr 1
  funext form m
  rcases form with _ | _ | _ | _ | _ | _ | _ | _ | _ | (_ | ⟨head, operands⟩) | _ | _ | _ | _ | _
  case list.cons =>
    rcases head with _ | _ | _ | _ | _ | _ | _ | (_ | head) | _ | _ | _ | _ | _ | _ | _
    case symbol.special => exact next_turnSpecial h ..
    all_goals exact next_turnCall h ..
  all_goals exact congrArg (Eval.Turn.answer · owned) (Traced.outcome_literal h ..)

end TracedTurn

namespace Traced

theorem outcome_loop (host : Host) (fuel : Nat) (outer : Frames) (form : Datum)
    (scope : ScopeId) (owned : List ScopeId) (m : Machine) :
    (loop host fuel outer form scope owned m).outcome = Eval.loop host fuel form scope owned m := by
  induction fuel generalizing outer form scope owned m with
  | zero => rfl
  | succ fuel ih =>
    have herases : Erases (fun frames scope form m => loop host fuel frames form scope [] m)
        (fun scope form m => Eval.loop host fuel form scope [] m) :=
      fun frames scope form m => ih frames form scope [] m
    have hturn := TracedTurn.next_turn herases host outer form scope owned m
    unfold loop Eval.loop
    dsimp only
    rw [outcome_after, ← hturn]
    cases (TracedTurn.turn host (fun frames scope form m => loop host fuel frames form scope [] m)
      outer form scope owned m).next with
    | answer o owned' => simp
    | onward form' scope' owned' m' => simp [ih]

@[simp] theorem outcome_evalIn (host : Host) (fuel : Nat) (frames : Frames) (scope : ScopeId)
    (form : Datum) (m : Machine) :
    (evalIn host fuel frames scope form m).outcome = Eval.evalIn host fuel scope form m :=
  outcome_loop ..

theorem outcome_evalForms (host : Host) (fuel bound : Nat) (src : Source) (last : Datum)
    (m : Machine) :
    (evalForms host fuel bound src last m).outcome =
      Session.evalForms host fuel bound src last m := by
  induction bound generalizing src last m with
  | zero => rfl
  | succ bound ih =>
    unfold evalForms Session.evalForms
    rcases Reader.read host.dialect src with ⟨e | (_ | form), src⟩
    · rfl
    · rfl
    · simp [Session.evalForm, ih]

@[simp] theorem outcome_evalText (host : Host) (fuel : Nat) (text : String) (m : Machine) :
    (evalText host fuel text m).outcome = Session.evalText host fuel text m :=
  outcome_evalForms ..

@[simp] theorem outcome_macroexpand (host : Host) (fuel : Nat) (form : Datum) (m : Machine) :
    (macroexpand host fuel form m).outcome = Session.macroexpand host fuel form m :=
  outcome_expandWithin (outcome_evalIn host fuel) ..

end Traced

end TableLisp

import TableLisp.Session

/-! Output is written and never read. What was printed before an evaluation begins makes no
difference to it: afterwards it still stands in front of what the evaluation printed, and all else
is the same. Each rule passes this on from the evaluations nested in it. -/

namespace TableLisp

/-- The machine after `text` was printed in front of all it printed itself. -/
def Machine.behind (text : String) (m : Machine) : Machine := { m with output := text ++ m.output }

/-- What was printed before makes no difference. -/
def Blind {α : Type} (f : Machine → Outcome α) : Prop :=
  ∀ text m, f (m.behind text) = (f m).mapMachine (Machine.behind text)

section

variable {α β : Type} {f : Machine → Outcome α}

theorem blind_done (value : α) : Blind (Outcome.done value) := fun _ _ => rfl

theorem blind_failed (e : Error) : Blind (Outcome.failed e : Machine → Outcome α) := fun _ _ => rfl

theorem blind_ofExcept (r : Except Error α) : Blind (Outcome.ofExcept r) := by
  cases r with
  | ok value => exact blind_done value
  | error e => exact blind_failed e

theorem Blind.andThen {g : α → Machine → Outcome β} (hf : Blind f) (hg : ∀ value, Blind (g value)) :
    Blind fun m => (f m).andThen g := by
  intro text m
  dsimp only
  rw [hf]
  cases f m with
  | done value m => exact hg value text m
  | failed e m => rfl
  | brokeOff need => rfl

theorem Blind.mapMachine {change : Machine → Machine} (hf : Blind f)
    (hchange : ∀ text m, change (m.behind text) = (change m).behind text) :
    Blind fun m => (f m).mapMachine change := by
  intro text m
  dsimp only
  rw [hf]
  cases f m with
  | done value m => exact congrArg (Outcome.done value) (hchange text m)
  | failed e m => exact congrArg (Outcome.failed e) (hchange text m)
  | brokeOff need => rfl

theorem Blind.comp {change : Machine → Machine} (hf : Blind f)
    (hchange : ∀ text m, change (m.behind text) = (change m).behind text) :
    Blind fun m => f (change m) := by
  intro text m
  dsimp only
  rw [hchange, hf]

end

namespace Eval

section

variable {ev : Datum → Machine → Outcome Datum}

theorem blind_each (h : ∀ form, Blind (ev form)) (forms : List Datum) : Blind (each ev forms) := by
  induction forms with
  | nil => exact blind_done []
  | cons form more ih =>
    exact (h form).andThen fun value => ih.andThen fun values => blind_done (value :: values)

theorem blind_eachEntry (h : ∀ form, Blind (ev form)) (entries : Entries) :
    Blind (eachEntry ev entries) := by
  induction entries with
  | nil => exact blind_done []
  | cons e more ih =>
    exact (h e.1).andThen fun key => (h e.2).andThen fun value =>
      ih.andThen fun entries => blind_done ((key, value) :: entries)

theorem blind_leading (h : ∀ form, Blind (ev form)) (forms : List Datum) :
    Blind (leading ev forms) := by
  induction forms with
  | nil => exact blind_done _
  | cons form more ih =>
    cases more with
    | nil => exact blind_done form
    | cons next more => exact (h form).andThen fun _ => ih

end

variable {ev : Evaluator} {scope : ScopeId}

theorem behind_setIn (scope : ScopeId) (name : String) (value : Datum) (text : String)
    (m : Machine) : setIn scope name value (m.behind text) = (setIn scope name value m).behind text :=
  rfl

theorem blind_literal (h : ∀ form, Blind (ev scope form)) (form : Datum) :
    Blind (literal ev scope form) := by
  cases form with
  | symbol s => intro text m; exact blind_ofExcept (m.env.get scope s.name) text m
  | vector items => exact (blind_each h items).andThen fun values => blind_done _
  | map entries =>
    refine (blind_eachEntry h entries).andThen fun pairs => ?_
    intro text m
    rfl
  | _ => exact blind_done _

theorem blind_define (h : ∀ form, Blind (ev scope form)) (operands : List Datum) :
    Blind (define ev scope operands) := by
  rcases operands with _ | ⟨target, _ | ⟨form, _ | ⟨x, more⟩⟩⟩
  case cons.cons.nil =>
    intro text m
    simp only [define]
    cases bindingName .define target with
    | error e => rfl
    | ok name =>
      exact (h form).andThen (fun value => (blind_done value).comp (behind_setIn scope name value))
        text m
  all_goals exact blind_failed _

theorem blind_bindPairs (h : ∀ form, Blind (ev scope form)) :
    ∀ forms, Blind (bindPairs ev scope forms)
  | [] => blind_done ()
  | [_] => blind_done ()
  | target :: form :: more => by
    intro text m
    simp only [bindPairs]
    cases bindingName .letStar target with
    | error e => rfl
    | ok name =>
      exact (h form).andThen
        (fun value => (blind_bindPairs h more).comp (behind_setIn scope name value)) text m

theorem blind_enterLet (h : ∀ form, Blind (ev scope form)) (operands : List Datum) :
    Blind (enterLet ev scope operands) := by
  intro text m
  simp only [enterLet]
  cases bindingForms operands with
  | error e => rfl
  | ok forms =>
    exact (blind_bindPairs h forms).andThen (fun _ => blind_leading h (operands.drop 1)) text m

theorem blind_close (scope : ScopeId) (isMacro : Bool) (d : Definition) :
    Blind (close scope isMacro d) := by
  intro text m
  simp only [close]
  cases d.name <;> rfl

theorem blind_lambda (scope : ScopeId) (operands : List Datum) : Blind (lambda scope operands) := by
  intro text m
  simp only [lambda]
  cases parseDefinition .lambda operands with
  | error e => rfl
  | ok d => exact blind_close scope false d text m

theorem blind_defMacro (scope : ScopeId) (operands : List Datum) :
    Blind (defMacro scope operands) := by
  rcases operands with _ | ⟨⟨⟩, more⟩
  case cons.symbol s =>
    intro text m
    simp only [defMacro]
    cases parseDefinition .defMacro (.symbol s :: more) with
    | error e => rfl
    | ok d => exact blind_close scope true d text m
  all_goals exact blind_failed _

theorem blind_enterCall (c : Closure Datum) (args : List Datum) : Blind (enterCall c args) := by
  intro text m
  simp only [enterCall]
  cases Environment.checkCall (c.name.getD SpecialForm.lambda.name) c.params args.length <;> rfl

/-- What was printed before makes no difference to any evaluation. -/
def BlindTo (ev : Evaluator) : Prop := ∀ scope form, Blind (ev scope form)

theorem blind_applyClosure (h : BlindTo ev) (c : Closure Datum) (args : List Datum) :
    Blind (applyClosure ev c args) :=
  (blind_enterCall c args).andThen fun scope => (h scope c.body).mapMachine fun _ _ => rfl

theorem blind_expandWithin (h : BlindTo ev) (scope : ScopeId) (limit left : Nat) (form : Datum) :
    Blind (expandWithin ev scope limit left form) := by
  induction left generalizing form with
  | zero =>
    intro text m
    have henv : (m.behind text).env = m.env := rfl
    simp only [expandWithin, henv]
    cases macroCall? m.env scope form <;> rfl
  | succ left ih =>
    intro text m
    have henv : (m.behind text).env = m.env := rfl
    simp only [expandWithin, henv]
    cases macroCall? m.env scope form with
    | none => rfl
    | some call => exact (blind_applyClosure h call.1 call.2).andThen (fun form => ih form) text m

theorem blind_primitive (host : Host) (p : Primitive) (args : List Datum) :
    Blind (p.apply host args) := by
  intro text m
  have hprint : ∀ printed, (m.behind text).print printed = (m.print printed).behind text := by
    intro printed
    simp [Machine.print, Machine.behind, String.append_assoc]
  unfold Primitive.apply
  split
  · exact blind_ofExcept _ text m
  · exact blind_ofExcept _ text m
  · exact blind_ofExcept _ text m
  · exact blind_ofExcept _ text m
  · exact blind_ofExcept _ text m
  · exact blind_ofExcept _ text m
  · rename_i op
    have hmaps : (m.behind text).maps = m.maps := rfl
    simp only [hmaps]
    cases op.apply m.maps args <;> rfl
  · rename_i op
    cases op with
    | join => rfl
    | joinReadable => rfl
    | printReadable => exact congrArg (Outcome.done _) (hprint _)
    | printPlain => exact congrArg (Outcome.done _) (hprint _)
  · rfl
  · exact blind_ofExcept _ text m
  · unfold Primitive.readFile
    split
    · cases host.files _ <;> rfl
    · rfl
  · rfl

/-- Changes the machine that a turn ends with. -/
def Turn.mapMachine (change : Machine → Machine) : Turn → Turn
  | .answer o owned => .answer (o.mapMachine change) owned
  | .onward form scope owned m => .onward form scope owned (change m)

def BlindTurn (f : Machine → Turn) : Prop :=
  ∀ text m, f (m.behind text) = (f m).mapMachine (Machine.behind text)

theorem blind_answer {f : Machine → Outcome Datum} (hf : Blind f) (owned : List ScopeId) :
    BlindTurn fun m => .answer (f m) owned :=
  fun text m => congrArg (Turn.answer · owned) (hf text m)

theorem blind_onward (form : Datum) (scope : ScopeId) (owned : List ScopeId) :
    BlindTurn (.onward form scope owned) := fun _ _ => rfl

theorem blind_orAnswer {α : Type} {f : Machine → Outcome α} {g : α → Machine → Turn}
    (hf : Blind f) (owned : List ScopeId) (hg : ∀ value, BlindTurn (g value)) :
    BlindTurn fun m => orAnswer (f m) owned g := by
  intro text m
  dsimp only
  rw [hf]
  cases f m with
  | done value m => exact hg value text m
  | failed e m => rfl
  | brokeOff need => rfl

theorem blind_turnLet (h : BlindTo ev) (operands : List Datum) (scope : ScopeId)
    (owned : List ScopeId) : BlindTurn (turnLet ev operands scope owned) := by
  intro text m
  have hturn := blind_orAnswer (blind_enterLet (h m.env.scopes.size) operands)
    (owned ++ [m.env.scopes.size]) fun form =>
      blind_onward form m.env.scopes.size (owned ++ [m.env.scopes.size])
  exact hturn text { m with env := (m.env.child scope).2 }

theorem blind_turnBranch (h : BlindTo ev) (operands : List Datum) (scope : ScopeId)
    (owned : List ScopeId) : BlindTurn (turnBranch ev operands scope owned) := by
  rcases operands with _ | ⟨test, _ | ⟨yes, _ | ⟨no, _ | ⟨x, more⟩⟩⟩⟩
  · exact blind_answer (blind_failed _) owned
  · exact blind_answer (blind_failed _) owned
  · exact blind_orAnswer (h scope test) owned fun value => blind_onward _ _ _
  · exact blind_orAnswer (h scope test) owned fun value => blind_onward _ _ _
  · exact blind_answer (blind_failed _) owned

theorem blind_turnAttempt (h : BlindTo ev) (operands : List Datum) (scope : ScopeId)
    (owned : List ScopeId) : BlindTurn (turnAttempt ev operands scope owned) := by
  intro text m
  simp only [turnAttempt]
  cases parseAttempt operands with
  | error e => rfl
  | ok attempt =>
    dsimp only
    rw [h]
    cases ev scope attempt.body m with
    | done value m => rfl
    | brokeOff need => rfl
    | failed e m => cases attempt.handler <;> rfl

theorem blind_turnSpecial (h : BlindTo ev) (host : Host) (head : SpecialForm)
    (operands : List Datum) (scope : ScopeId) (owned : List ScopeId) :
    BlindTurn (turnSpecial host ev head operands scope owned) := by
  have hfail : ∀ e, BlindTurn fun m => .answer (.failed e m) owned :=
    fun e => blind_answer (blind_failed e) owned
  cases head with
  | define => exact blind_answer (blind_define (h scope) operands) owned
  | letStar => exact blind_turnLet h operands scope owned
  | sequence =>
    exact blind_orAnswer (blind_leading (h scope) operands) owned fun form => blind_onward _ _ _
  | branch => exact blind_turnBranch h operands scope owned
  | lambda => exact blind_answer (blind_lambda scope operands) owned
  | quote =>
    rcases operands with _ | ⟨x, _ | ⟨y, more⟩⟩
    · exact hfail _
    · exact blind_answer (blind_done x) owned
    · exact hfail _
  | quasiquote =>
    rcases operands with _ | ⟨x, _ | ⟨y, more⟩⟩
    · exact hfail _
    · exact blind_orAnswer (blind_ofExcept _) owned fun form => blind_onward _ _ _
    · exact hfail _
  | quasiquoteExpand =>
    rcases operands with _ | ⟨x, _ | ⟨y, more⟩⟩
    · exact hfail _
    · exact blind_answer (blind_ofExcept _) owned
    · exact hfail _
  | macroexpand =>
    rcases operands with _ | ⟨x, _ | ⟨y, more⟩⟩
    · exact hfail _
    · exact blind_answer (blind_expandWithin h scope _ _ x) owned
    · exact hfail _
  | defMacro => exact blind_answer (blind_defMacro scope operands) owned
  | attempt => exact blind_turnAttempt h operands scope owned
  | unquote => exact hfail _
  | spliceUnquote => exact hfail _
  | handler => exact hfail _

theorem blind_turnCall (h : BlindTo ev) (host : Host) (head : Datum) (operands : List Datum)
    (scope : ScopeId) (owned : List ScopeId) :
    BlindTurn (turnCall host ev head operands scope owned) := by
  refine blind_orAnswer (blind_each (h scope) operands) owned fun args => ?_
  refine blind_orAnswer (h scope head) owned fun function => ?_
  cases function with
  | primitive p => exact blind_answer (blind_primitive host p args) owned
  | closure c =>
    refine blind_orAnswer (blind_enterCall c args) owned fun call => ?_
    intro text m
    rfl
  | _ => exact blind_answer (blind_failed _) owned

theorem blind_turn (h : BlindTo ev) (host : Host) (form : Datum) (scope : ScopeId)
    (owned : List ScopeId) : BlindTurn (turn host ev form scope owned) := by
  refine blind_orAnswer (blind_expandWithin h scope _ _ form) owned fun form => ?_
  rcases form with _ | _ | _ | _ | _ | _ | _ | _ | _ | (_ | ⟨head, operands⟩) | _ | _ | _ | _ | _
  case list.cons =>
    rcases head with _ | _ | _ | _ | _ | _ | _ | (_ | head) | _ | _ | _ | _ | _ | _ | _
    case symbol.special => exact blind_turnSpecial h host head operands scope owned
    all_goals exact blind_turnCall h host _ operands scope owned
  all_goals exact blind_answer (blind_literal (h scope) _) owned

theorem blind_loop (host : Host) (fuel : Nat) (form : Datum) (scope : ScopeId)
    (owned : List ScopeId) : Blind (loop host fuel form scope owned) := by
  induction fuel generalizing form scope owned with
  | zero => exact fun _ _ => rfl
  | succ fuel ih =>
    have hev : BlindTo fun scope form m => loop host fuel form scope [] m :=
      fun scope form => ih form scope []
    intro text m
    rw [loop, loop, blind_turn hev host form scope owned text m]
    cases turn host _ form scope owned m with
    | answer o owned => cases o <;> rfl
    | onward form scope owned m => exact ih form scope owned text m

theorem blind_evalIn (host : Host) (fuel : Nat) : BlindTo (evalIn host fuel) :=
  fun scope form => blind_loop host fuel form scope []

end Eval

end TableLisp

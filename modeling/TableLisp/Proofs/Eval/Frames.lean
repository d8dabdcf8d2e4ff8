import TableLisp.Proofs.Eval.Record
import TableLisp.Proofs.Eval.Rules

/-! The frame law. Whatever an evaluation does, the scopes that it found live on with their parents
and marks, and none but the one it ran in has other bindings. What happens in a scope made for it,
the body of a function, of `let*` or of a handler, or the work of a macro, changes no bindings at
all of the scopes that were there. -/

namespace TableLisp

/-- The scopes of `env` live on with their parents, marks and bindings. -/
def Environment.Intact (env env' : Environment) : Prop := ∀ s, env.Frame s env'

section

variable {host : Host} {fuel : Nat} {s scope : ScopeId} {base : Environment} {m m' : Machine}

theorem frame_loop {form : Datum} {owned : List ScopeId} (h : Stands s base scope owned m.env)
    (hend : (Eval.loop host fuel form scope owned m).EndsIn m') : base.Frame s m'.env := by
  rw [← Traced.outcome_loop host fuel []] at hend
  exact ((recorded_loop host fuel [] form h).of_ends hend).2.2

theorem intact_expand {form : Datum}
    (hend : (Eval.expand host (Eval.evalIn host fuel) scope form m).EndsIn m') :
    m.env.Intact m'.env := by
  intro s
  have h := (kept_evalIn host fuel).expandWithin [] scope host.settings.maxExpansions
    host.settings.maxExpansions form (.refl s m.env)
  rw [Eval.expand, ← Traced.outcome_expandWithin (Traced.outcome_evalIn host fuel) []] at hend
  exact (h.of_ends hend).2.2

theorem intact_applyClosure {c : Closure Datum} {args : List Datum}
    (hend : (Eval.applyClosure (Eval.evalIn host fuel) c args m).EndsIn m') :
    m.env.Intact m'.env := by
  intro s
  have h := (kept_evalIn host fuel).applyClosure [] c args (.refl s m.env)
  rw [← Traced.outcome_applyClosure (Traced.outcome_evalIn host fuel) []] at hend
  exact (h.of_ends hend).2.2

/-- The loop in a scope that was made for it, and that is the only one it owns. -/
theorem intact_loop {form : Datum} {n : Machine} (hframe : m.env.Intact n.env)
    (hscope : m.env.scopes.size ≤ scope)
    (hend : (Eval.loop host fuel form scope [scope] n).EndsIn m') : m.env.Intact m'.env := by
  intro s
  refine frame_loop ⟨hframe s, .inr hscope, Environment.spares_of_new ?_⟩ hend
  intro id hid
  rw [List.mem_singleton.mp hid]
  exact hscope

theorem intact_call {head : Datum} {operands args : List Datum} {c : Closure Datum} {m₁ m₂ : Machine}
    (hhead : ∀ form, head ≠ .symbol (.special form))
    (hnone : Eval.macroCall? m.env scope (.list (head :: operands)) = none)
    (hargs : Eval.each (Eval.evalIn host fuel scope) operands m = .done args m₁)
    (hfunction : Eval.evalIn host fuel scope head m₁ = .done (.closure c) m₂)
    (hend : (Eval.evalIn host (fuel + 1) scope (.list (head :: operands)) m).EndsIn m') :
    m₂.env.Intact m'.env := by
  have hturn : Eval.turn host (Eval.evalIn host fuel) (.list (head :: operands)) scope [] m =
      Eval.orAnswer (Eval.enterCall c args m₂) [] fun call m =>
        .onward c.body call [call] { m with env := m.env.releaseAll [] } := by
    rw [Eval.turn_call operands hhead hnone]
    simp only [Eval.turnCall, hargs, hfunction, Eval.orAnswer]
  unfold Eval.enterCall at hturn
  cases hcheck : Environment.checkCall (c.name.getD SpecialForm.lambda.name) c.params args.length with
  | error e =>
    rw [hcheck] at hturn
    rw [Eval.evalIn_answer hturn] at hend
    rcases hend with ⟨_, ho⟩ | ⟨_, ho⟩
    · cases ho
    · cases ho
      exact fun s => .refl s _
  | ok _ =>
    rw [hcheck] at hturn
    rw [Eval.evalIn, Eval.loop_onward hturn] at hend
    exact intact_loop (fun s => Environment.frame_push s ..) (Nat.le_refl _) hend

theorem TracedTurn.turn_form (tev : TracedEvaluator) (outer : Frames) (head : SpecialForm)
    (operands : List Datum) (owned : List ScopeId) :
    TracedTurn.turn host tev outer (.form head operands) scope owned m =
      TracedTurn.turnSpecial host tev outer head operands scope owned m := by
  unfold TracedTurn.turn Traced.expand
  cases host.settings.maxExpansions <;> rfl

theorem intact_let {operands : List Datum}
    (hend : (Eval.evalIn host fuel scope (.form .letStar operands) m).EndsIn m') :
    m.env.Intact m'.env := by
  intro s
  rw [← Traced.outcome_evalIn host fuel []] at hend
  cases fuel with
  | zero => rcases hend with ⟨_, ho⟩ | ⟨_, ho⟩ <;> cases ho
  | succ fuel =>
    have hnone : m.env.Spares [] := by intro id hid; cases hid
    -- the loop goes on in the scope that it makes here, so no scope is its own from before
    have hturn : TurnRecorded host s m.env m.env (TracedTurn.turn host
        (Traced.evalIn host fuel) [] (.form .letStar operands) scope [] m) := by
      rw [TracedTurn.turn_form]
      exact recorded_turnLet (kept_evalIn host fuel) [] (.refl s m.env) hnone
    have hloop : Recorded host s m.env m.env
        (Traced.loop host (fuel + 1) [] (.form .letStar operands) scope [] m) :=
      .turned rfl (hturn.loop fun form scope owned m hat => recorded_loop host fuel [] form hat)
    exact (hloop.of_ends hend).2.2

theorem intact_handler {operands : List Datum} {body form : Datum} {name : String} {e : Error}
    {m₁ : Machine} (hparse : Eval.parseAttempt operands = .ok ⟨body, some (name, form)⟩)
    (htried : Eval.evalIn host fuel scope body m = .failed e m₁)
    (hend : (Eval.evalIn host (fuel + 1) scope (.form .attempt operands) m).EndsIn m') :
    m₁.env.Intact m'.env := by
  have hturn : Eval.turn host (Eval.evalIn host fuel) (.form .attempt operands) scope [] m =
      .onward form m₁.env.scopes.size [m₁.env.scopes.size]
        (Eval.setIn m₁.env.scopes.size name (.string e.message)
          { m₁ with env := (m₁.env.child scope).2 }) := by
    rw [Eval.turn_form]
    simp only [Eval.turnSpecial, Eval.turnAttempt, hparse, htried]
    rfl
  rw [Eval.evalIn, Eval.loop_onward hturn] at hend
  refine intact_loop (fun s => ?_) (Nat.le_refl _) hend
  exact (Environment.frame_push s ..).trans (Environment.frame_set ..) (.inr (Nat.le_refl _))

end

/-- Of the scopes that an evaluation finds, it gives other bindings to none but the one it runs in;
they live on with their parents, and no mark is cleared, whether it ends with a value or an error.
The expansion of macros, a closure that is called, on its own or from a call form once its operands
and its function are evaluated, `let*`, and a handler once the body of `try` has failed, give other
bindings to none at all. -/
theorem evaluation_frame (host : Host) (fuel : Nat) (scope : ScopeId) (m m' : Machine) :
    (∀ form, (Eval.evalIn host fuel scope form m).EndsIn m' → m.env.Frame scope m'.env) ∧
      (∀ form, (Eval.expand host (Eval.evalIn host fuel) scope form m).EndsIn m' →
        m.env.Intact m'.env) ∧
      (∀ c args, (Eval.applyClosure (Eval.evalIn host fuel) c args m).EndsIn m' →
        m.env.Intact m'.env) ∧
      (∀ head operands args c m₁ m₂, (∀ form, head ≠ .symbol (.special form)) →
        Eval.macroCall? m.env scope (.list (head :: operands)) = none →
        Eval.each (Eval.evalIn host fuel scope) operands m = .done args m₁ →
        Eval.evalIn host fuel scope head m₁ = .done (.closure c) m₂ →
        (Eval.evalIn host (fuel + 1) scope (.list (head :: operands)) m).EndsIn m' →
        m₂.env.Intact m'.env) ∧
      (∀ operands, (Eval.evalIn host fuel scope (.form .letStar operands) m).EndsIn m' →
        m.env.Intact m'.env) ∧
      ∀ operands body handler e m₁, Eval.parseAttempt operands = .ok ⟨body, some handler⟩ →
        Eval.evalIn host fuel scope body m = .failed e m₁ →
        (Eval.evalIn host (fuel + 1) scope (.form .attempt operands) m).EndsIn m' →
        m₁.env.Intact m'.env := by
  refine ⟨?_, ?_, ?_, ?_, ?_, ?_⟩
  · intro form hend
    exact frame_loop (stands_first scope m.env) hend
  · intro form hend
    exact intact_expand hend
  · intro c args hend
    exact intact_applyClosure hend
  · intro head operands args c m₁ m₂ hhead hnone hargs hfunction hend
    exact intact_call hhead hnone hargs hfunction hend
  · intro operands hend
    exact intact_let hend
  · intro operands body handler e m₁ hparse htried hend
    exact intact_handler hparse htried hend

set_option maxRecDepth 4000 in
/-- `((fn* [x] (def y x)) 1)` binds `y` in the scope of the call only, and `(let* [x 1] (def y x))`
in the scope of `let*`. -/
theorem evaluation_frame_local :
    let host : Host := ⟨.initial, fun _ => .unreadable⟩
    let body := Datum.form .define [.var "y", .var "x"]
    let call := Datum.list [.form .lambda [.vector [.var "x"], body], .int 1]
    let bound := Datum.form .letStar [.vector [.var "x", .int 1], body]
    ∃ m₁ m₂ : Machine,
      (Eval.evalIn host 3 Environment.global call .initial).EndsIn m₁ ∧
      (Eval.evalIn host 3 Environment.global bound .initial).EndsIn m₂ ∧
      Machine.initial.env.Frame Environment.global m₁.env ∧
      Machine.initial.env.Intact m₁.env ∧ Machine.initial.env.Intact m₂.env := by
  intro host body call bound
  have hcall : (Eval.evalIn host 3 Environment.global call .initial).EndsIn _ := .inl ⟨.int 1, rfl⟩
  have hbound : (Eval.evalIn host 3 Environment.global bound .initial).EndsIn _ :=
    .inl ⟨.int 1, rfl⟩
  refine ⟨_, _, hcall, hbound, ?_, ?_, ?_⟩
  · exact (evaluation_frame host 3 Environment.global .initial _).1 call hcall
  · exact (evaluation_frame host 2 Environment.global .initial _).2.2.2.1 _ _ [.int 1] _ .initial
      { Machine.initial with closures := 1 } (by simp [Datum.form]) rfl rfl rfl hcall
  · exact (evaluation_frame host 3 Environment.global .initial _).2.2.2.2.1 _ hbound

end TableLisp

import TableLisp.Proofs.Eval.Sound

/-! What a run leaves alone and what its record looks like, whatever machine it begins with. Of the
scopes that are there, a run gives other bindings only to the one it works in, and it ends none but
those it was handed as its own. On its record, a capture stands for a closure, a turn is one that
the loop took with the scopes of that moment, and after a tail call the loop owns the scope of the
call alone. -/

namespace TableLisp

open Environment (Frame)

/-- How a record goes on where the scopes are those of `env`. Only the record of a run that broke
off ends with a tail call. -/
inductive Orderly (host : Host) (ended : Bool) : Environment → Log → Prop where
  | nil {env : Environment} : Orderly host ended env []
  | use {env : Environment} {op : ScopeOp} {more : Log} : (∀ id, op ≠ .capture id) →
      Orderly host ended (op.run env) more → Orderly host ended env (.use op :: more)
  | made {env : Environment} {id : ScopeId} {c : Closure Datum} {more : Log} :
      Orderly host ended (env.capture id) more →
      Orderly host ended env (.use (.capture id) :: .made c :: more)
  | turn {fuel : Nat} {outer : Frames} {form : Datum} {scope : ScopeId} {owned : List ScopeId}
      {m : Machine} {more : Log} :
      (Traced.loop host fuel outer form scope owned m).log <+: .turn (owned :: outer) :: more →
      Orderly host ended m.env more →
      Orderly host ended m.env (.turn (owned :: outer) :: more)
  | tailCall {env : Environment} {call : ScopeId} {outer : Frames} {more : Log} :
      Orderly host ended env (.turn ([call] :: outer) :: more) →
      Orderly host ended env (.tailCall call :: .turn ([call] :: outer) :: more)
  | cut {env : Environment} {call : ScopeId} : ended = false →
      Orderly host ended env [.tailCall call]

namespace Orderly

variable {host : Host} {ended : Bool} {env : Environment} {log before after more : Log}

theorem append (h : Orderly host true env log) (h' : Orderly host ended (env.replay log) more) :
    Orderly host ended env (log ++ more) := by
  induction h with
  | nil => exact h'
  | use hop _ ih => exact .use hop (ih h')
  | made _ ih => exact .made (ih h')
  | turn hrun _ ih => exact .turn (hrun.trans (by simp)) (ih h')
  | tailCall _ ih => exact .tailCall (ih h')
  | cut hended => cases hended

theorem weaken (h : Orderly host true env log) : Orderly host false env log := by
  have happended : Orderly host false env (log ++ []) := h.append .nil
  simpa using happended

theorem releases (env : Environment) (ids : List ScopeId) :
    Orderly host ended env (ids.map fun id => .use (.release id)) := by
  induction ids generalizing env with
  | nil => exact .nil
  | cons id more ih => exact .use (by simp) (ih _)

/-- Wherever a turn is on record, the loop takes it with a machine that has the scopes of that
moment, and what follows begins with what the loop does. -/
theorem turn_taken {frames : Frames}
    (h : Orderly host ended env (before ++ .turn frames :: after)) :
    ∃ fuel outer form scope owned m, frames = owned :: outer ∧ m.env = env.replay before ∧
      (Traced.loop host fuel outer form scope owned m).log <+: .turn frames :: after := by
  generalize hlog : before ++ .turn frames :: after = log at h
  induction h generalizing before with
  | nil => simp at hlog
  | use _ _ ih =>
    rcases before with _ | ⟨_, before⟩
    · cases hlog
    · obtain ⟨rfl, htail⟩ := List.cons.inj hlog
      exact @ih before htail
  | made _ ih =>
    rcases before with _ | ⟨_, _ | ⟨_, before⟩⟩
    · cases hlog
    · cases hlog
    · obtain ⟨rfl, htail⟩ := List.cons.inj hlog
      obtain ⟨rfl, hrest⟩ := List.cons.inj htail
      exact @ih before hrest
  | turn hrun _ ih =>
    rcases before with _ | ⟨_, before⟩
    · cases hlog
      exact ⟨_, _, _, _, _, _, rfl, rfl, hrun⟩
    · obtain ⟨rfl, htail⟩ := List.cons.inj hlog
      exact @ih before htail
  | tailCall _ ih =>
    rcases before with _ | ⟨_, before⟩
    · cases hlog
    · obtain ⟨rfl, htail⟩ := List.cons.inj hlog
      exact @ih before htail
  | cut _ =>
    rcases before with _ | ⟨_, before⟩
    · cases hlog
    · simp at hlog

/-- A tail call is followed by a turn in which the loop owns the scope of the call and no other,
unless the run broke off there. -/
theorem tailCall_next {call : ScopeId}
    (h : Orderly host ended env (before ++ .tailCall call :: after)) :
    (after = [] ∧ ended = false) ∨ ∃ outer rest, after = .turn ([call] :: outer) :: rest := by
  generalize hlog : before ++ .tailCall call :: after = log at h
  induction h generalizing before with
  | nil => simp at hlog
  | use _ _ ih =>
    rcases before with _ | ⟨_, before⟩
    · cases hlog
    · exact ih (List.cons.inj hlog).2
  | made _ ih =>
    rcases before with _ | ⟨_, _ | ⟨_, before⟩⟩
    · cases hlog
    · cases hlog
    · exact ih (List.cons.inj (List.cons.inj hlog).2).2
  | turn _ _ ih =>
    rcases before with _ | ⟨_, before⟩
    · cases hlog
    · exact ih (List.cons.inj hlog).2
  | tailCall _ ih =>
    rcases before with _ | ⟨_, before⟩
    · cases hlog
      exact .inr ⟨_, _, rfl⟩
    · exact ih (List.cons.inj hlog).2
  | cut hended =>
    rcases before with _ | ⟨_, before⟩
    · cases hlog
      exact .inl ⟨rfl, hended⟩
    · simp at hlog

theorem kept_of_kept (h : Orderly host ended env log) (hnone : ∀ c, .made c ∉ log) {id : ScopeId}
    (hk : (env.replay log).Kept id) : env.Kept id := by
  induction h with
  | nil => exact hk
  | @use env op more hop _ ih =>
    have hafter := ih (fun c hc => hnone c (List.mem_cons_of_mem _ hc)) hk
    obtain ⟨u, hu, hc⟩ := hafter
    have hpush : ∀ parent bs, (env.push parent bs).2.scope? id = some u → env.Kept id := by
      intro parent bs hpushed
      rw [Environment.scope?_push] at hpushed
      split at hpushed
      · cases hpushed
        cases hc
      · exact ⟨u, hpushed, hc⟩
    cases op with
    | child parent => exact hpush parent [] hu
    | set scope name value =>
      simp only [ScopeOp.run, Environment.scope?_set] at hu
      split at hu
      · obtain ⟨u₀, hu₀, rfl⟩ := Option.map_eq_some_iff.mp hu
        exact ⟨u₀, hu₀, hc⟩
      · exact ⟨u, hu, hc⟩
    | lookup scope name => exact ⟨u, hu, hc⟩
    | bind parent params args =>
      simp only [ScopeOp.run] at hu
      split at hu
      · exact hpush parent _ hu
      · exact ⟨u, hu, hc⟩
    | capture scope => exact absurd rfl (hop scope)
    | release scope =>
      simp only [ScopeOp.run, Environment.scope?_release] at hu
      split at hu
      · exact ⟨u, (Option.filter_eq_some_iff.mp hu).1, hc⟩
      · exact ⟨u, hu, hc⟩
  | @made _ _ c _ _ _ => exact absurd (by simp) (hnone c)
  | turn _ _ ih => exact ih (fun c hc => hnone c (List.mem_cons_of_mem _ hc)) hk
  | tailCall _ ih => exact ih (fun c hc => hnone c (List.mem_cons_of_mem _ hc)) hk
  | cut _ => exact hk

end Orderly

/-- The evaluation ended with this machine, by a value or by an error. -/
def Outcome.EndsIn {α : Type} (o : Outcome α) (m : Machine) : Prop :=
  (∃ value, o = .done value m) ∨ ∃ e, o = .failed e m

/-- A run from `start` on has an orderly record, and of the scopes of `base` it changes the bindings
of `s` at most. -/
inductive Recorded {α : Type} (host : Host) (s : ScopeId) (base start : Environment) :
    Traced α → Prop where
  | done {log : Log} {value : α} {m : Machine} : Orderly host true start log →
      m.env = start.replay log → base.Frame s m.env → Recorded host s base start ⟨log, .done value m⟩
  | failed {log : Log} {e : Error} {m : Machine} : Orderly host true start log →
      m.env = start.replay log → base.Frame s m.env → Recorded host s base start ⟨log, .failed e m⟩
  | brokeOff {log : Log} {need : Need} : Orderly host false start log →
      Recorded host s base start ⟨log, .brokeOff need⟩

section

variable {α β : Type} {host : Host} {s scope : ScopeId} {base base' start : Environment}
variable {m : Machine} {t : Traced α} {log : Log}

theorem Recorded.orderly (h : Recorded host s base start t) : Orderly host false start t.log := by
  cases h with
  | done ho _ _ => exact ho.weaken
  | failed ho _ _ => exact ho.weaken
  | brokeOff ho => exact ho

theorem Recorded.of_ends {m' : Machine} (h : Recorded host s base start t)
    (hend : t.outcome.EndsIn m') :
    Orderly host true start t.log ∧ m'.env = start.replay t.log ∧ base.Frame s m'.env := by
  cases h with
  | done ho hm hf =>
    rcases hend with ⟨_, h⟩ | ⟨_, h⟩
    · cases h
      exact ⟨ho, hm, hf⟩
    · cases h
  | failed ho hm hf =>
    rcases hend with ⟨_, h⟩ | ⟨_, h⟩
    · cases h
    · cases h
      exact ⟨ho, hm, hf⟩
  | brokeOff _ => rcases hend with ⟨_, h⟩ | ⟨_, h⟩ <;> cases h

theorem Recorded.return {v : α} (hf : base.Frame s m.env) :
    Recorded host s base m.env (Traced.done v m) := .done .nil rfl hf

theorem Recorded.fail {e : Error} (hf : base.Frame s m.env) :
    Recorded host s base m.env (Traced.failed e m : Traced α) := .failed .nil rfl hf

theorem Recorded.ofExcept {r : Except Error α} (hf : base.Frame s m.env) :
    Recorded host s base m.env (Traced.ofExcept r m) := by
  cases r with
  | ok v => exact .return hf
  | error e => exact .fail hf

theorem Recorded.after (hlog : Orderly host true start log)
    (h : Recorded host s base (start.replay log) t) : Recorded host s base start (t.after log) := by
  cases h with
  | done ho hm hf =>
    exact .done (hlog.append ho) (by rw [Environment.replay_append]; exact hm) hf
  | failed ho hm hf =>
    exact .failed (hlog.append ho) (by rw [Environment.replay_append]; exact hm) hf
  | brokeOff ho => exact .brokeOff (hlog.append ho)

theorem Recorded.noting {op : ScopeOp} (hop : ∀ id, op ≠ .capture id)
    (h : Recorded host s base (op.run start) t) : Recorded host s base start (t.noting op) :=
  .after (.use hop .nil) h

theorem Recorded.rebase {s' : ScopeId} (h : Recorded host s' base' start t) (hf : base.Frame s base')
    (hs : s' = s ∨ base.scopes.size ≤ s') : Recorded host s base start t := by
  cases h with
  | done ho hm hf' => exact .done ho hm (hf.trans hf' hs)
  | failed ho hm hf' => exact .failed ho hm (hf.trans hf' hs)
  | brokeOff ho => exact .brokeOff ho

theorem Recorded.andThen {f : α → Machine → Traced β} (h : Recorded host s base start t)
    (hf : ∀ v m, base.Frame s m.env → Recorded host s base m.env (f v m)) :
    Recorded host s base start (t.andThen f) := by
  cases h with
  | @done log v m ho hm hframe => exact .after ho (hm ▸ hf v m hframe)
  | failed ho hm hframe => exact .failed ho hm hframe
  | brokeOff ho => exact .brokeOff ho

theorem Recorded.releasing {owned : List ScopeId} (h : Recorded host s base start t)
    (hspares : base.Spares owned) : Recorded host s base start (t.releasing owned) := by
  have hlog : ∀ {log} {m : Machine}, Orderly host true start log → m.env = start.replay log →
      Orderly host true start (log ++ owned.map fun id => .use (.release id)) ∧
        m.env.releaseAll owned =
          start.replay (log ++ owned.map fun id => .use (.release id)) := by
    intro log m ho hm
    rw [Environment.replay_append, Environment.replay_releases, ← hm]
    exact ⟨ho.append (.releases _ owned), rfl⟩
  cases h with
  | done ho hm hf => exact .done (hlog ho hm).1 (hlog ho hm).2 (hf.releaseAll hspares)
  | failed ho hm hf => exact .failed (hlog ho hm).1 (hlog ho hm).2 (hf.releaseAll hspares)
  | brokeOff ho => exact .brokeOff ho

/-- What a run in `scope` changes is `s`, or was not there at first. -/
abbrev Near (s : ScopeId) (base : Environment) (scope : ScopeId) : Prop :=
  scope = s ∨ base.scopes.size ≤ scope

theorem Environment.Frame.set_near {env : Environment} (hf : base.Frame s env)
    (hnear : Near s base scope) (name : String) (value : Datum) :
    base.Frame s (env.set scope name value) := hf.trans (Environment.frame_set ..) hnear

/-- Every evaluation has an orderly record and changes no bindings but those of `s`. -/
def Keeps (host : Host) (s : ScopeId) (base : Environment)
    (ev : Datum → Machine → Traced Datum) : Prop :=
  ∀ ⦃form m⦄, base.Frame s m.env → Recorded host s base m.env (ev form m)

namespace Keeps

variable {ev : Datum → Machine → Traced Datum}

theorem each (h : Keeps host s base ev) (forms : List Datum) (hf : base.Frame s m.env) :
    Recorded host s base m.env (Traced.each ev forms m) := by
  induction forms generalizing m with
  | nil => exact .return hf
  | cons form more ih =>
    refine (h hf).andThen fun v m₁ hf₁ => ?_
    exact (ih hf₁).andThen fun vs m₂ hf₂ => .return hf₂

theorem eachEntry (h : Keeps host s base ev) (entries : Entries) (hf : base.Frame s m.env) :
    Recorded host s base m.env (Traced.eachEntry ev entries m) := by
  induction entries generalizing m with
  | nil => exact .return hf
  | cons e more ih =>
    refine (h hf).andThen fun key m₁ hf₁ => ?_
    refine (h hf₁).andThen fun value m₂ hf₂ => ?_
    exact (ih hf₂).andThen fun es m₃ hf₃ => .return hf₃

theorem leading (h : Keeps host s base ev) (forms : List Datum) (hf : base.Frame s m.env) :
    Recorded host s base m.env (Traced.leading ev forms m) := by
  induction forms generalizing m with
  | nil => exact .return hf
  | cons form more ih =>
    cases more with
    | nil => exact .return hf
    | cons next more => exact (h hf).andThen fun _ m₁ hf₁ => ih hf₁

theorem literal (h : Keeps host s base ev) (scope : ScopeId) (form : Datum)
    (hf : base.Frame s m.env) : Recorded host s base m.env (Traced.literal ev scope form m) := by
  cases form with
  | symbol x => exact .noting (by simp) (.ofExcept hf)
  | vector items => exact (h.each items hf).andThen fun vs m₁ hf₁ => .return hf₁
  | map entries => exact (h.eachEntry entries hf).andThen fun es m₁ hf₁ => .return hf₁
  | _ => exact .return hf

theorem define (h : Keeps host s base ev) (hnear : Near s base scope) (operands : List Datum)
    (hf : base.Frame s m.env) : Recorded host s base m.env (Traced.define ev scope operands m) := by
  rcases operands with _ | ⟨target, _ | ⟨form, _ | ⟨x, more⟩⟩⟩
  case cons.cons.nil =>
    simp only [Traced.define]
    cases Eval.bindingName .define target with
    | error e => exact .fail hf
    | ok name =>
      refine (h hf).andThen fun value m₁ hf₁ => ?_
      exact .noting (by simp) (.return (m := Eval.setIn scope name value m₁)
        (hf₁.set_near hnear name value))
  all_goals exact .fail hf

theorem bindPairs (h : Keeps host s base ev) (hnear : Near s base scope) (forms : List Datum)
    (hf : base.Frame s m.env) :
    Recorded host s base m.env (Traced.bindPairs ev scope forms m) := by
  fun_induction Traced.bindPairs ev scope forms m with
  | case1 target form more m e hname => exact .fail hf
  | case2 target form more m name hname ih =>
    refine (h hf).andThen fun value m₁ hf₁ => ?_
    exact .noting (by simp) (ih value m₁ (hf₁.set_near hnear name value))
  | case3 forms m hne => exact .return hf

theorem enterLet (h : Keeps host s base ev) (hnear : Near s base scope) (operands : List Datum)
    (hf : base.Frame s m.env) :
    Recorded host s base m.env (Traced.enterLet ev scope operands m) := by
  unfold Traced.enterLet
  cases Eval.bindingForms operands with
  | error e => exact .fail hf
  | ok forms =>
    exact (h.bindPairs hnear forms hf).andThen fun _ m₁ hf₁ => h.leading (operands.drop 1) hf₁

end Keeps

theorem recorded_close (hnear : Near s base scope) (isMacro : Bool) (d : Eval.Definition)
    (hf : base.Frame s m.env) :
    Recorded host s base m.env (Traced.close scope isMacro d m) := by
  have hcapture : base.Frame s (m.env.capture scope) :=
    hf.trans (Environment.frame_capture s m.env scope) (.inl rfl)
  unfold Traced.close
  refine .after (.made .nil) ?_
  cases d.name with
  | none => exact .return (m := { m with env := m.env.capture scope, closures := _ }) hcapture
  | some name =>
    exact .noting (by simp) (.return (m := Eval.setIn scope name _
      { m with env := m.env.capture scope, closures := m.closures + 1 })
      (hcapture.set_near hnear name _))

theorem recorded_lambda (hnear : Near s base scope) (operands : List Datum)
    (hf : base.Frame s m.env) :
    Recorded host s base m.env (Traced.lambda scope operands m) := by
  unfold Traced.lambda
  cases Eval.parseDefinition .lambda operands with
  | error e => exact .fail hf
  | ok d => exact recorded_close hnear false d hf

theorem recorded_defMacro (hnear : Near s base scope) (operands : List Datum)
    (hf : base.Frame s m.env) :
    Recorded host s base m.env (Traced.defMacro scope operands m) := by
  rcases operands with _ | ⟨⟨⟩, more⟩
  case cons.symbol x =>
    simp only [Traced.defMacro]
    cases Eval.parseDefinition .defMacro (.symbol x :: more) with
    | error e => exact .fail hf
    | ok d => exact recorded_close hnear true d hf
  all_goals exact .fail hf

theorem recorded_enterCall (c : Closure Datum) (args : List Datum) (m : Machine) :
    (∃ e, Traced.enterCall c args m = ⟨[.use (.bind c.scope c.params args)], .failed e m⟩ ∧
        (ScopeOp.bind c.scope c.params args).run m.env = m.env) ∨
      ∃ m', Traced.enterCall c args m =
          ⟨[.use (.bind c.scope c.params args)], .done m.env.scopes.size m'⟩ ∧
        (ScopeOp.bind c.scope c.params args).run m.env = m'.env ∧
        ∀ s, m.env.Frame s m'.env := by
  by_cases hok : c.params.accepts args.length = true
  · refine .inr ⟨{ m with env := (m.env.enter c.scope c.params args).2 }, ?_, ?_, ?_⟩
    · simp only [Traced.enterCall, Environment.checkCall, hok, if_true]
      rfl
    · simp only [ScopeOp.run, hok, if_true]
    · exact fun s => Environment.frame_push s ..
  · refine .inl ⟨.arguments (c.name.getD SpecialForm.lambda.name)
      (Environment.arityFault c.params args.length), ?_, ?_⟩
    · simp only [Traced.enterCall, Environment.checkCall, hok]
      rfl
    · simp [ScopeOp.run, hok]

end

/-- Every evaluation has an orderly record and changes no bindings but those of its scope. -/
def Kept (host : Host) (tev : TracedEvaluator) : Prop :=
  ∀ frames scope form m, Recorded host scope m.env m.env (tev frames scope form m)

section

variable {host : Host} {s scope : ScopeId} {base start : Environment} {tev : TracedEvaluator}
variable {m : Machine} {owned : List ScopeId}

theorem Kept.keeps (h : Kept host tev) (frames : Frames) (hnear : Near s base scope) :
    Keeps host s base (tev frames scope) := by
  intro form m hf
  exact (h frames scope form m).rebase hf hnear

theorem Kept.applyClosure (h : Kept host tev) (frames : Frames) (c : Closure Datum)
    (args : List Datum) (hf : base.Frame s m.env) :
    Recorded host s base m.env (Traced.applyClosure tev frames c args m) := by
  have hop : ∀ id, ScopeOp.bind c.scope c.params args ≠ .capture id := by simp
  unfold Traced.applyClosure
  rcases recorded_enterCall c args m with ⟨e, hcall, hrun⟩ | ⟨m', hcall, hrun, hframe⟩
  · rw [hcall]
    exact .noting (t := .failed e m) hop (by rw [hrun]; exact .fail hf)
  · rw [hcall]
    have hnew : base.scopes.size ≤ m.env.scopes.size := hf.size_le
    have hin : base.Frame s m'.env := hf.trans (hframe s) (.inl rfl)
    have hbody : Recorded host s base m'.env
        (tev ([m.env.scopes.size] :: frames) m.env.scopes.size c.body m') :=
      h.keeps _ (.inr hnew) hin
    refine .noting hop ?_
    rw [hrun]
    refine .releasing hbody (Environment.spares_of_new ?_)
    intro id hid
    rw [List.mem_singleton.mp hid]
    exact hnew

theorem orderly_macroUses (host : Host) (scope : ScopeId) (form : Datum) (env : Environment) :
    Orderly host true env (Traced.macroUses scope form) ∧
      env.replay (Traced.macroUses scope form) = env := by
  unfold Traced.macroUses
  split
  · exact ⟨.use (by simp) .nil, rfl⟩
  · exact ⟨.nil, rfl⟩

theorem Kept.expandWithin (h : Kept host tev) (frames : Frames) (scope : ScopeId)
    (limit left : Nat) (form : Datum) (hf : base.Frame s m.env) :
    Recorded host s base m.env (Traced.expandWithin tev frames scope limit left form m) := by
  induction left generalizing form m with
  | zero =>
    obtain ⟨huses, hsame⟩ := orderly_macroUses host scope form m.env
    unfold Traced.expandWithin
    refine .after huses ?_
    rw [hsame]
    cases Eval.macroCall? m.env scope form with
    | none => exact .return hf
    | some call => exact .fail hf
  | succ left ih =>
    obtain ⟨huses, hsame⟩ := orderly_macroUses host scope form m.env
    unfold Traced.expandWithin
    refine .after huses ?_
    rw [hsame]
    cases Eval.macroCall? m.env scope form with
    | none => exact .return hf
    | some call =>
      exact (h.applyClosure frames call.1 call.2 hf).andThen fun form m₁ hf₁ => ih form hf₁

theorem recorded_primitive {p : Primitive} {args : List Datum} (hf : base.Frame s m.env) :
    Recorded host s base m.env ⟨[], p.apply host args m⟩ := by
  cases hp : p.apply host args m with
  | brokeOff need => exact .brokeOff .nil
  | failed e after =>
    obtain rfl := Primitive.apply_failed hp
    exact .failed .nil rfl hf
  | done value after =>
    have hall : ∀ d : Datum, d.EachClosure fun _ => True := fun d c _ => trivial
    obtain ⟨_, henv, _⟩ := Primitive.apply_done (P := fun _ => True) hp (fun x _ => hall x)
      (fun id e _ => ⟨hall _, hall _⟩)
    exact .done .nil henv (henv ▸ hf)

/-- Where a loop stands that began in `s` with the scopes of `base`. -/
structure Stands (s : ScopeId) (base : Environment) (scope : ScopeId) (owned : List ScopeId)
    (env : Environment) : Prop where
  frame : base.Frame s env
  near : Near s base scope
  spares : base.Spares owned

inductive TurnRecorded (host : Host) (s : ScopeId) (base start : Environment) :
    TracedTurn → Prop where
  | answer {log : Log} {o : Outcome Datum} {owned : List ScopeId} :
      Recorded host s base start ⟨log, o⟩ → base.Spares owned →
      TurnRecorded host s base start ⟨log, .answer o owned⟩
  | onward {log : Log} {form : Datum} {scope : ScopeId} {owned : List ScopeId} {m : Machine} :
      Orderly host true start log → m.env = start.replay log → Stands s base scope owned m.env →
      TurnRecorded host s base start ⟨log, .onward form scope owned m⟩
  | tailCall {log : Log} {form : Datum} {call : ScopeId} {m : Machine} :
      Orderly host true start log → m.env = start.replay log → Stands s base call [call] m.env →
      TurnRecorded host s base start ⟨log ++ [.tailCall call], .onward form call [call] m⟩

theorem TurnRecorded.after {log : Log} {t : TracedTurn} (hlog : Orderly host true start log)
    (h : TurnRecorded host s base (start.replay log) t) :
    TurnRecorded host s base start (t.after log) := by
  cases h with
  | answer h hspares => exact .answer (.after hlog h) hspares
  | onward ho hm hat =>
    exact .onward (hlog.append ho) (by rw [Environment.replay_append]; exact hm) hat
  | @tailCall log' form call m ho hm hat =>
    unfold TracedTurn.after
    rw [← List.append_assoc]
    exact .tailCall (hlog.append ho) (by rw [Environment.replay_append]; exact hm) hat

theorem TurnRecorded.orAnswer {α : Type} {t : Traced α} {f : α → Machine → TracedTurn}
    (h : Recorded host s base start t) (hspares : base.Spares owned)
    (hf : ∀ v m, base.Frame s m.env → TurnRecorded host s base m.env (f v m)) :
    TurnRecorded host s base start (.orAnswer t owned f) := by
  cases h with
  | @done log v m ho hm hframe => exact .after ho (hm ▸ hf v m hframe)
  | failed ho hm hframe => exact .answer (.failed ho hm hframe) hspares
  | brokeOff ho => exact .answer (.brokeOff ho) hspares

theorem TurnRecorded.goOn {form : Datum} (h : Stands s base scope owned m.env) :
    TurnRecorded host s base m.env (.onward form scope owned m) := .onward .nil rfl h

/-- The loop goes on in a scope that it has made; where it stood before does not matter. -/
theorem stands_new {env : Environment} (hf : base.Frame s env) (hspares : base.Spares owned)
    (parent : ScopeId) (bs : Bindings) :
    Stands s base env.scopes.size (owned ++ [env.scopes.size]) (env.push parent bs).2 := by
  refine ⟨hf.trans (Environment.frame_push s ..) (.inl rfl), .inr hf.size_le, ?_⟩
  intro id hid u hu
  rcases List.mem_append.mp hid with hid | hid
  · exact hspares id hid u hu
  · rw [List.mem_singleton.mp hid] at hu
    exact absurd (Environment.lt_size_of_live hu) (Nat.not_lt.mpr hf.size_le)

variable {operands : List Datum}

theorem recorded_turnLet (hev : Kept host tev) (outer : Frames) (hf : base.Frame s m.env)
    (hspares : base.Spares owned) :
    TurnRecorded host s base m.env (.turnLet tev outer operands scope owned m) := by
  have hat := stands_new hf hspares scope []
  refine .after (.use (by simp) .nil) (.orAnswer ?_ hat.spares fun form m₁ hf₁ => ?_)
  · exact (hev.keeps _ hat.near).enterLet (m := { m with env := (m.env.child scope).2 }) hat.near
      operands hat.frame
  · exact .goOn ⟨hf₁, hat.near, hat.spares⟩

theorem recorded_turnBranch {ev : Datum → Machine → Traced Datum} (hev : Keeps host s base ev)
    (h : Stands s base scope owned m.env) :
    TurnRecorded host s base m.env (.turnBranch ev operands scope owned m) := by
  have choose : ∀ test yes no : Datum, TurnRecorded host s base m.env
      (.orAnswer (ev test m) owned fun value m =>
        .onward (if value.isTruthy then yes else no) scope owned m) := by
    intro test yes no
    exact .orAnswer (hev h.frame) h.spares fun v m₁ hf₁ => .goOn ⟨hf₁, h.near, h.spares⟩
  rcases operands with _ | ⟨test, _ | ⟨yes, _ | ⟨no, _ | ⟨x, more⟩⟩⟩⟩
  · exact .answer (.fail h.frame) h.spares
  · exact .answer (.fail h.frame) h.spares
  · exact choose test yes .nil
  · exact choose test yes no
  · exact .answer (.fail h.frame) h.spares

theorem recorded_turnAttempt {ev : Datum → Machine → Traced Datum} (hev : Keeps host s base ev)
    (h : Stands s base scope owned m.env) :
    TurnRecorded host s base m.env (.turnAttempt ev operands scope owned m) := by
  unfold TracedTurn.turnAttempt
  cases Eval.parseAttempt operands with
  | error e => exact .answer (.fail h.frame) h.spares
  | ok attempt =>
    have htried : Recorded host s base m.env (ev attempt.body m) := hev h.frame
    dsimp only
    generalize ev attempt.body m = tried at htried ⊢
    cases htried with
    | done ho hm hf => exact .answer (.done ho hm hf) h.spares
    | brokeOff ho => exact .answer (.brokeOff ho) h.spares
    | @failed log e m₁ ho hm hf =>
      cases attempt.handler with
      | none => exact .answer (.failed ho hm hf) h.spares
      | some handler =>
        have hat := stands_new hf h.spares scope []
        have hlog : Orderly host true m.env (log ++ [.use (.child scope),
            .use (.set m₁.env.scopes.size handler.1 (.string e.message))]) :=
          ho.append (.use (by simp) (.use (by simp) .nil))
        refine .after hlog ?_
        rw [Environment.replay_append, ← hm]
        exact .goOn (m := Eval.setIn m₁.env.scopes.size handler.1 (.string e.message)
          { m₁ with env := (m₁.env.child scope).2 })
          ⟨hat.frame.set_near hat.near _ _, hat.near, hat.spares⟩

theorem recorded_turnSpecial (hev : Kept host tev) (outer : Frames) (head : SpecialForm)
    (h : Stands s base scope owned m.env) :
    TurnRecorded host s base m.env
      (.turnSpecial host tev outer head operands scope owned m) := by
  have hin := hev.keeps (owned :: outer) h.near
  have hfail : ∀ e, TurnRecorded host s base m.env (.answer (.failed e m) owned) :=
    fun e => .answer (.fail h.frame) h.spares
  cases head with
  | define => exact .answer (hin.define h.near operands h.frame) h.spares
  | letStar => exact recorded_turnLet hev outer h.frame h.spares
  | sequence =>
    exact .orAnswer (hin.leading operands h.frame) h.spares fun form m₁ hf₁ =>
      .goOn ⟨hf₁, h.near, h.spares⟩
  | branch => exact recorded_turnBranch hin h
  | lambda => exact .answer (recorded_lambda h.near operands h.frame) h.spares
  | quote =>
    rcases operands with _ | ⟨x, _ | ⟨y, more⟩⟩
    · exact hfail _
    · exact .answer (.return h.frame) h.spares
    · exact hfail _
  | quasiquote =>
    rcases operands with _ | ⟨x, _ | ⟨y, more⟩⟩
    · exact hfail _
    · exact .orAnswer (.ofExcept h.frame) h.spares fun form m₁ hf₁ =>
        .goOn ⟨hf₁, h.near, h.spares⟩
    · exact hfail _
  | quasiquoteExpand =>
    rcases operands with _ | ⟨x, _ | ⟨y, more⟩⟩
    · exact hfail _
    · exact .answer (.ofExcept h.frame) h.spares
    · exact hfail _
  | macroexpand =>
    rcases operands with _ | ⟨x, _ | ⟨y, more⟩⟩
    · exact hfail _
    · exact .answer (hev.expandWithin (owned :: outer) scope _ _ x h.frame) h.spares
    · exact hfail _
  | defMacro => exact .answer (recorded_defMacro h.near operands h.frame) h.spares
  | attempt => exact recorded_turnAttempt hin h
  | unquote => exact hfail _
  | spliceUnquote => exact hfail _
  | handler => exact hfail _

theorem recorded_turnCall {ev : Datum → Machine → Traced Datum} {head : Datum}
    (hev : Keeps host s base ev) (h : Stands s base scope owned m.env) :
    TurnRecorded host s base m.env (.turnCall host ev head operands owned m) := by
  refine .orAnswer (hev.each operands h.frame) h.spares fun args m₁ hf₁ => ?_
  refine .orAnswer (hev hf₁) h.spares fun function m₂ hf₂ => ?_
  cases function with
  | primitive p => exact .answer (recorded_primitive hf₂) h.spares
  | closure c =>
    have hop : ∀ id, ScopeOp.bind c.scope c.params args ≠ .capture id := by simp
    dsimp only
    rcases recorded_enterCall c args m₂ with ⟨e, hcall, hrun⟩ | ⟨m', hcall, hrun, hframe⟩
    · rw [hcall]
      exact .answer (.noting (t := .failed e m₂) hop (by rw [hrun]; exact .fail hf₂)) h.spares
    · rw [hcall]
      refine .after (.use hop .nil) ?_
      change TurnRecorded host s base ((ScopeOp.bind c.scope c.params args).run m₂.env) _
      rw [hrun]
      have hnew : base.scopes.size ≤ m₂.env.scopes.size := hf₂.size_le
      have hin : base.Frame s m'.env := hf₂.trans (hframe s) (.inl rfl)
      have hat : Stands s base m₂.env.scopes.size [m₂.env.scopes.size]
          (m'.env.releaseAll owned) := by
        refine ⟨hin.releaseAll h.spares, .inr hnew, Environment.spares_of_new fun id hid => ?_⟩
        rw [List.mem_singleton.mp hid]
        exact hnew
      have hcalled : TurnRecorded host s base m'.env
          ⟨owned.map (fun id => .use (.release id)) ++ [.tailCall m₂.env.scopes.size],
            .onward c.body m₂.env.scopes.size [m₂.env.scopes.size]
              { m' with env := m'.env.releaseAll owned }⟩ :=
        .tailCall (.releases _ owned) (Environment.replay_releases ..).symm hat
      simpa [TracedTurn.after, TracedTurn.onward] using hcalled
  | _ => exact .answer (.fail hf₂) h.spares

theorem recorded_turn (hev : Kept host tev) (outer : Frames) (form : Datum)
    (h : Stands s base scope owned m.env) :
    TurnRecorded host s base m.env (.turn host tev outer form scope owned m) := by
  refine .orAnswer (hev.expandWithin (owned :: outer) scope _ _ form h.frame) h.spares
    fun form m₁ hf₁ => ?_
  have h₁ : Stands s base scope owned m₁.env := ⟨hf₁, h.near, h.spares⟩
  have hin := hev.keeps (owned :: outer) h.near
  have hatom : TurnRecorded host s base m₁.env
      (.answer (Traced.literal (tev (owned :: outer) scope) scope form m₁) owned) :=
    .answer (hin.literal scope form hf₁) h.spares
  rcases form with _ | _ | _ | _ | _ | _ | _ | _ | _ | (_ | ⟨head, operands⟩) | _ | _ | _ | _ | _
  case list.cons =>
    rcases head with _ | _ | _ | _ | _ | _ | _ | (_ | head) | _ | _ | _ | _ | _ | _ | _
    case symbol.special => exact recorded_turnSpecial hev outer head h₁
    all_goals exact recorded_turnCall hin h₁
  all_goals exact hatom

end

section

variable {host : Host} {s scope : ScopeId} {base : Environment} {outer : Frames} {form : Datum}
variable {owned : List ScopeId} {m : Machine}

theorem Recorded.turned {fuel : Nat} {t : Traced Datum}
    (hloop : Traced.loop host fuel outer form scope owned m = t.after [.turn (owned :: outer)])
    (h : Recorded host s base m.env t) :
    Recorded host s base m.env (Traced.loop host fuel outer form scope owned m) := by
  have hrun : (Traced.loop host fuel outer form scope owned m).log <+:
      .turn (owned :: outer) :: t.log := by
    rw [hloop]
    exact List.prefix_rfl
  rw [hloop]
  cases h with
  | done ho hm hf => exact .done (.turn hrun ho) hm hf
  | failed ho hm hf => exact .failed (.turn hrun ho) hm hf
  | brokeOff ho => exact .brokeOff (.turn hrun ho)

theorem Recorded.tailCalled {start : Environment} {t : Traced Datum} {call : ScopeId} {more : Log}
    (hturn : t.log = .turn ([call] :: outer) :: more) (h : Recorded host s base start t) :
    Recorded host s base start (t.after [.tailCall call]) := by
  obtain ⟨log, o⟩ := t
  obtain rfl : log = .turn ([call] :: outer) :: more := hturn
  cases h with
  | done ho hm hf => exact .done (.tailCall ho) hm hf
  | failed ho hm hf => exact .failed (.tailCall ho) hm hf
  | brokeOff ho => exact .brokeOff (.tailCall ho)

/-- The loop after one turn, if the rest of it is on record as it should be. -/
theorem TurnRecorded.loop {fuel : Nat} {start : Environment} {step : TracedTurn}
    (h : TurnRecorded host s base start step)
    (hloop : ∀ form scope owned m, Stands s base scope owned m.env →
      Recorded host s base m.env (Traced.loop host fuel outer form scope owned m)) :
    Recorded host s base start
      (match step.next with
      | .answer o owned => Traced.releasing owned ⟨step.log, o⟩
      | .onward form scope owned m =>
        (Traced.loop host fuel outer form scope owned m).after step.log) := by
  cases h with
  | answer h hspares => exact h.releasing hspares
  | onward ho hm hat => exact .after ho (hm ▸ hloop _ _ _ _ hat)
  | @tailCall log form call m ho hm hat =>
    have hrest := hloop form call [call] m hat
    dsimp only
    cases fuel with
    | zero =>
      have hcut : Orderly host false start (log ++ [.tailCall call]) := ho.append (.cut rfl)
      exact .brokeOff (by simpa [Traced.loop] using hcut)
    | succ fuel =>
      have hcalled : Recorded host s base m.env
          ((Traced.loop host (fuel + 1) outer form call [call] m).after [.tailCall call]) :=
        .tailCalled rfl hrest
      rw [hm] at hcalled
      simpa [Traced.after] using hcalled.after ho

theorem stands_first (scope : ScopeId) (env : Environment) : Stands scope env scope [] env :=
  ⟨.refl scope env, .inl rfl, by intro id hid; cases hid⟩

theorem recorded_loop (host : Host) (fuel : Nat) (outer : Frames) (form : Datum)
    (h : Stands s base scope owned m.env) :
    Recorded host s base m.env (Traced.loop host fuel outer form scope owned m) := by
  induction fuel generalizing s base outer form scope owned m with
  | zero => exact .brokeOff .nil
  | succ fuel ih =>
    have hev : Kept host fun frames scope form m => Traced.loop host fuel frames form scope [] m := by
      intro frames scope form m
      exact ih frames form (stands_first scope m.env)
    have hturn := recorded_turn hev outer form h
    exact .turned rfl (hturn.loop fun form scope owned m hat => ih outer form hat)

theorem kept_evalIn (host : Host) (fuel : Nat) : Kept host (Traced.evalIn host fuel) := by
  intro frames scope form m
  exact recorded_loop host fuel frames form (stands_first scope m.env)

end

end TableLisp

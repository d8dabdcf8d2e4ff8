import TableLisp.Proofs.Data.Primitives
import TableLisp.Proofs.Eval.Trace
import TableLisp.Proofs.Scopes.Frame

/-! Sound machines and safe records. A machine is sound if every closure that can be reached refers
to a kept scope and the scopes not captured are those that are held. A record is safe if each use
of a scope finds it anchored. On a safe record the scopes stay well-formed, and what is kept at
some point is kept from there on. -/

namespace TableLisp

/-- Every closure in the datum refers to a kept scope. -/
def Environment.Holds (env : Environment) (d : Datum) : Prop :=
  d.EachClosure fun c => env.Kept c.scope

namespace Machine

structure Sound (held : List ScopeId) (m : Machine) : Prop where
  wellFormed : m.env.WellFormed
  owns : m.env.Owns held
  bindings : ∀ id s, m.env.scope? id = some s → ∀ b ∈ s.bindings, m.env.Holds b.2
  tables : m.maps.EachClosure fun c => m.env.Kept c.scope

/-- The machines differ in scopes at most, and those of `m` are scopes of `n`. -/
structure Within (m n : Machine) : Prop where
  env : m.env.Within n.env
  maps : n.maps = m.maps
  output : n.output = m.output
  closures : n.closures = m.closures

end Machine

namespace Environment

variable {env env' : Environment} {s id : ScopeId} {d : Datum}

theorem Frame.holds (hf : Frame s env env') (h : env.Holds d) : env'.Holds d :=
  h.mono fun _ hk => hf.kept hk

theorem preserves_release (env : Environment) (id : ScopeId) :
    Preserves (·.captured = true) env (env.release id) := by
  intro i t ht hc
  refine ⟨t, ?_, rfl, hc⟩
  rw [scope?_release]
  split
  · exact Option.filter_eq_some_iff.mpr ⟨ht, hc⟩
  · exact ht

theorem preserves_releaseAll (env : Environment) (ids : List ScopeId) :
    Preserves (·.captured = true) env (env.releaseAll ids) := by
  induction ids generalizing env with
  | nil => exact fun i t ht hc => ⟨t, ht, rfl, hc⟩
  | cons id more ih =>
    intro i t ht hc
    obtain ⟨t', ht', hp, hc'⟩ := preserves_release env id i t ht hc
    obtain ⟨t'', ht'', hp', hc''⟩ := ih (env.release id) i t' ht' hc'
    exact ⟨t'', ht'', hp'.trans hp, hc''⟩

theorem scope?_releaseAll {ids : List ScopeId} (h : id ∉ ids) :
    (env.releaseAll ids).scope? id = env.scope? id := by
  induction ids generalizing env with
  | nil => rfl
  | cons x more ih =>
    obtain ⟨hx, hmore⟩ := not_or.mp (mt List.mem_cons.mpr h)
    refine (ih hmore).trans ?_
    rw [scope?_release, if_neg hx]

theorem Preserves.holds (hp : Preserves (·.captured = true) env env') (h : env.Holds d) :
    env'.Holds d :=
  h.mono fun _ hk => hp.kept hk

theorem Frame.releaseAll {ids : List ScopeId} (h : Frame s env env') (hids : env.Spares ids) :
    Frame s env (env'.releaseAll ids) := by
  induction ids generalizing env' with
  | nil => exact h
  | cons id more ih =>
    exact ih (h.release (hids id (by simp))) fun i hi => hids i (by simp [hi])

theorem Within.releaseAll {whole : Environment} (h : Within env whole) (ids : List ScopeId) :
    Within (env.releaseAll ids) whole := by
  induction ids generalizing env with
  | nil => exact h
  | cons id more ih => exact ih (h.release id)

theorem mem_of_get? {bs : Bindings} {name : String} {value : Datum}
    (h : Bindings.get? name bs = some value) : ∃ b ∈ bs, b.2 = value := by
  induction bs with
  | nil => cases h
  | cons b more ih =>
    obtain ⟨n, v⟩ := b
    unfold Bindings.get? at h
    split at h
    · cases h; exact ⟨_, List.mem_cons_self, rfl⟩
    · obtain ⟨b, hb, hv⟩ := ih h
      exact ⟨b, by simp [hb], hv⟩

theorem mem_of_mem_set {bs : Bindings} {name : String} {value : Datum} {b : String × Datum}
    (h : b ∈ Bindings.set name value bs) : b ∈ bs ∨ b.2 = value := by
  induction bs with
  | nil => simp [Bindings.set] at h; simp [h]
  | cons c more ih =>
    obtain ⟨n, v⟩ := c
    unfold Bindings.set at h
    split at h
    · rcases List.mem_cons.mp h with rfl | h
      · exact .inr rfl
      · exact .inl (by simp [h])
    · rcases List.mem_cons.mp h with rfl | h
      · exact .inl (by simp)
      · rcases ih h with h | h
        · exact .inl (by simp [h])
        · exact .inr h

theorem mem_callBindings {params : Params} {args : List Datum} {b : String × Datum}
    (h : b ∈ callBindings params args) :
    b.2 ∈ args ∨ b.2 = .list (args.drop params.fixed.length) := by
  have hfold : ∀ (pairs : List (String × Datum)) (bs : Bindings) (b : String × Datum),
      b ∈ pairs.foldl (fun bs p => Bindings.set p.1 p.2 bs) bs →
      b ∈ bs ∨ ∃ p ∈ pairs, p.2 = b.2 := by
    intro pairs
    induction pairs with
    | nil => exact fun bs b hb => .inl hb
    | cons p more ih =>
      intro bs b hb
      rcases ih _ b hb with hb | ⟨q, hq, hv⟩
      · rcases mem_of_mem_set hb with hb | hv
        · exact .inl hb
        · exact .inr ⟨p, by simp, hv.symm⟩
      · exact .inr ⟨q, by simp [hq], hv⟩
  have hfixed : ∀ b ∈ (params.fixed.zip args).foldl (fun bs p => Bindings.set p.1 p.2 bs) [],
      b.2 ∈ args := by
    intro b hb
    rcases hfold _ _ b hb with hb | ⟨p, hp, hv⟩
    · cases hb
    · rw [← hv]; exact (List.of_mem_zip hp).2
  unfold callBindings at h
  dsimp only at h
  split at h
  · rcases mem_of_mem_set h with h | h
    · exact .inl (hfixed b h)
    · exact .inr h
  · exact .inl (hfixed b h)

end Environment

namespace Machine

open Environment (global)

variable {m n : Machine} {held : List ScopeId} {id parent : ScopeId}

theorem Within.setEnv (h : m.Within n) {env env' : Environment} (he : env.Within env') :
    Within { m with env := env } { n with env := env' } :=
  ⟨he, h.maps, h.output, h.closures⟩

theorem Within.release (h : m.Within n) (ids : List ScopeId) :
    Within { m with env := m.env.releaseAll ids } n :=
  ⟨h.env.releaseAll ids, h.maps, h.output, h.closures⟩

theorem Sound.lookupWithin (h : m.Sound held) {name : String} {value : Datum} {bound : Nat}
    (hl : m.env.lookupWithin name bound id = some value) : m.env.Holds value := by
  induction bound generalizing id with
  | zero => cases hl
  | succ bound ih =>
    unfold Environment.lookupWithin at hl
    split at hl
    · cases hl
    · rename_i s hs
      split at hl
      · rename_i v hv
        cases hl
        obtain ⟨b, hb, rfl⟩ := Environment.mem_of_get? hv
        exact h.bindings id s hs b hb
      · split at hl
        · cases hl
        · exact ih hl

theorem Sound.lookup (h : m.Sound held) {name : String} {value : Datum}
    (hl : m.env.lookup id name = some value) : m.env.Holds value := h.lookupWithin hl

/-- What a machine holds stays sound when scopes change and nothing kept is lost. -/
theorem Sound.tables_of (h : m.Sound held) {env : Environment}
    (hk : ∀ id, m.env.Kept id → env.Kept id) :
    m.maps.EachClosure fun c => env.Kept c.scope := by
  intro id e he
  obtain ⟨hkey, hvalue⟩ := h.tables id e he
  exact ⟨hkey.mono fun c hc => hk _ hc, hvalue.mono fun c hc => hk _ hc⟩

theorem Sound.push (h : m.Sound held) {s : Scope} (hlive : m.env.scope? parent = some s)
    {bs : Bindings} (hbs : ∀ b ∈ bs, m.env.Holds b.2) :
    Sound (m.env.scopes.size :: held) { m with env := (m.env.push parent bs).2 } := by
  have hf := Environment.frame_push parent m.env parent bs
  refine ⟨Environment.wellFormed_push h.wellFormed hlive bs, h.owns.push parent bs, ?_,
    h.tables_of fun id hk => hf.kept hk⟩
  intro id t ht b hb
  dsimp only at ht
  rw [Environment.scope?_push] at ht
  apply hf.holds
  split at ht
  · cases ht
    exact hbs b hb
  · exact h.bindings id t ht b hb

theorem Sound.set (h : m.Sound held) {name : String} {value : Datum}
    (hv : m.env.Holds value) : Sound held (Eval.setIn id name value m) := by
  have hf := Environment.frame_set id m.env name value
  refine ⟨Environment.wellFormed_update h.wellFormed _ fun s => ⟨rfl, rfl⟩,
    h.owns.set id name value, ?_, h.tables_of fun id hk => hf.kept hk⟩
  intro i t ht b hb
  simp only [Eval.setIn, Environment.scope?_set] at ht
  apply hf.holds
  split at ht
  · obtain ⟨t₀, ht₀, rfl⟩ := Option.map_eq_some_iff.mp ht
    rcases Environment.mem_of_mem_set hb with hb | rfl
    · exact h.bindings i t₀ ht₀ b hb
    · exact hv
  · exact h.bindings i t ht b hb

theorem Sound.capture (h : m.Sound held) (ha : m.env.Anchored id) (k : Nat) :
    Sound held { m with env := m.env.capture id, closures := k } := by
  have hf := Environment.frame_capture id m.env id
  refine ⟨Environment.wellFormed_capture h.wellFormed ha, h.owns.capture id, ?_,
    h.tables_of fun id hk => hf.kept hk⟩
  intro i t ht b hb
  obtain ⟨mark, hmark⟩ := Environment.scope?_capture m.env id
  simp only [hmark] at ht
  obtain ⟨t₀, ht₀, rfl⟩ := Option.map_eq_some_iff.mp ht
  exact hf.holds (h.bindings i t₀ ht₀ b hb)

theorem Sound.release (h : m.Sound (id :: held)) :
    Sound held { m with env := m.env.release id } := by
  have hp := Environment.preserves_release m.env id
  refine ⟨Environment.wellFormed_release h.wellFormed, h.owns.release, ?_,
    h.tables_of fun id hk => hp.kept hk⟩
  intro i t ht b hb
  simp only [Environment.scope?_release] at ht
  apply hp.holds
  split at ht
  · exact h.bindings i t (Option.filter_eq_some_iff.mp ht).1 b hb
  · exact h.bindings i t ht b hb

theorem Sound.releaseAll {ids : List ScopeId} (h : m.Sound (ids ++ held)) :
    Sound held { m with env := m.env.releaseAll ids } := by
  induction ids generalizing m with
  | nil => exact h
  | cons id more ih => exact ih (m := { m with env := m.env.release id }) (h.release)

theorem Sound.perm {held' : List ScopeId} (h : m.Sound held) (hp : held.Perm held') :
    m.Sound held' :=
  ⟨h.wellFormed, h.owns.perm hp, h.bindings, h.tables⟩

end Machine

namespace Environment

/-- What is asked of an event where it happens: a scope that is handed over is anchored, at the
start of a turn the scopes not captured are those that are held, and the scope of a new closure is
kept. -/
def Admits (env : Environment) : Event → Prop
  | .use (.release _) => True
  | .use op => env.Anchored op.scope
  | .turn frames => env.Owns frames.flatten
  | .tailCall _ => True
  | .made c => env.Kept c.scope

/-- Every event on record is admitted where it happens. -/
def Safe (env : Environment) : Log → Prop
  | [] => True
  | event :: more => env.Admits event ∧ Safe (event.run env) more

variable {env : Environment} {log more : Log} {event : Event} {id : ScopeId}

@[simp] theorem replay_nil (env : Environment) : env.replay [] = env := rfl

@[simp] theorem replay_cons (env : Environment) (event : Event) (log : Log) :
    env.replay (event :: log) = (event.run env).replay log := rfl

@[simp] theorem replay_append (env : Environment) (log more : Log) :
    env.replay (log ++ more) = (env.replay log).replay more := List.foldl_append

theorem safe_append : env.Safe (log ++ more) ↔ env.Safe log ∧ (env.replay log).Safe more := by
  induction log generalizing env with
  | nil => simp [Safe]
  | cons event log ih => simp [Safe, ih, and_assoc]

theorem safe_releases (env : Environment) (ids : List ScopeId) :
    env.Safe (ids.map fun id => .use (.release id)) := by
  induction ids generalizing env with
  | nil => trivial
  | cons id more ih => exact ⟨trivial, ih _⟩

theorem replay_releases (env : Environment) (ids : List ScopeId) :
    env.replay (ids.map fun id => .use (.release id)) = env.releaseAll ids := by
  induction ids generalizing env with
  | nil => rfl
  | cons id more ih => exact ih _

theorem Admits.wellFormed (h : env.Admits event) (hw : env.WellFormed) :
    (event.run env).WellFormed := by
  cases event with
  | turn frames => exact hw
  | tailCall call => exact hw
  | made c => exact hw
  | use op =>
    cases op with
    | child parent =>
      obtain ⟨s, hs⟩ := Chain.live h
      exact wellFormed_push hw hs _
    | set scope name value => exact wellFormed_update hw _ fun s => ⟨rfl, rfl⟩
    | lookup scope name => exact hw
    | bind parent params args =>
      obtain ⟨s, hs⟩ := Chain.live h
      simp only [Event.run, ScopeOp.run]
      split
      · exact wellFormed_push hw hs _
      · exact hw
    | capture scope => exact wellFormed_capture hw h
    | release scope => exact wellFormed_release hw

theorem preserves_run (env : Environment) (event : Event) :
    Preserves (·.captured = true) env (event.run env) := by
  have hframe : ∀ {s env'}, Frame s env env' → Preserves (·.captured = true) env env' := by
    intro s env' hf i t ht hc
    obtain ⟨t', ht', hp, hc', _⟩ := hf.lives i t ht
    exact ⟨t', ht', hp, hc' hc⟩
  cases event with
  | turn frames => exact hframe (.refl 0 env)
  | tailCall call => exact hframe (.refl 0 env)
  | made c => exact hframe (.refl 0 env)
  | use op =>
    cases op with
    | child parent => exact hframe (frame_push parent ..)
    | set scope name value => exact hframe (frame_set ..)
    | lookup scope name => exact hframe (.refl 0 env)
    | bind parent params args =>
      simp only [Event.run, ScopeOp.run]
      split
      · exact hframe (frame_push parent ..)
      · exact hframe (.refl 0 env)
    | capture scope => exact hframe (frame_capture scope ..)
    | release scope => exact preserves_release env scope

theorem Safe.wellFormed (h : env.Safe log) (hw : env.WellFormed) : (env.replay log).WellFormed := by
  induction log generalizing env with
  | nil => exact hw
  | cons event log ih => exact ih h.2 (h.1.wellFormed hw)

theorem kept_replay (h : env.Kept id) (log : Log) : (env.replay log).Kept id := by
  induction log generalizing env with
  | nil => exact h
  | cons event log ih => exact ih ((preserves_run env event).kept h)

theorem Safe.admits (h : env.Safe (log ++ event :: more)) : (env.replay log).Admits event :=
  (safe_append.mp h).2.1

theorem Admits.anchored {op : ScopeOp} (h : env.Admits (.use op)) (hop : ∀ id, op ≠ .release id) :
    env.Anchored op.scope := by
  cases op with
  | release id => exact absurd rfl (hop id)
  | _ => exact h

/-- From where a closure is made on, the chain of its scope is secured. -/
theorem Safe.secured_after {c : Closure Datum} (h : env.Safe (log ++ .made c :: more))
    (hw : env.WellFormed) : (env.replay (log ++ .made c :: more)).Secured c.scope := by
  apply Kept.secured _ (h.wellFormed hw)
  rw [replay_append]
  exact kept_replay h.admits _

end Environment

end TableLisp

import TableLisp.Proofs.Eval.Sound

/-! Captured chains are permanent. Scopes may be used by any number that was given out, also by that
of a scope released long ago, so a scope can be live while the one around it is not. Still parents
are older than their children, and a live parent of a captured scope is captured. So every walk
outward ends, and once a scope is captured whose walk comes to the global one, the scopes on that
walk stay for good, and only a binding made in one of them changes what is found from there. -/

namespace TableLisp

namespace Environment

/-- The scopes that are met on the way outward. The walk ends at a scope without a parent, or it
stops at a number whose scope is not live. -/
inductive Walk (env : Environment) : ScopeId → List ScopeId → (stop : Option ScopeId) → Prop where
  | stopped {id : ScopeId} : env.scope? id = none → Walk env id [] (some id)
  | outermost {id : ScopeId} {s : Scope} : env.scope? id = some s → s.parent = none →
      Walk env id [id] none
  | outward {id parent : ScopeId} {s : Scope} {path : List ScopeId} {stop : Option ScopeId} :
      env.scope? id = some s → s.parent = some parent → Walk env parent path stop →
      Walk env id (id :: path) stop

/-- What a scope itself binds a name to. -/
def binding? (env : Environment) (name : String) (id : ScopeId) : Option Datum :=
  (env.scope? id).bind fun s => Bindings.get? name s.bindings

/-- Is the scope live and not captured? -/
def isLoose (env : Environment) (id : ScopeId) : Bool := (env.scope? id).any fun s => !s.captured

/-- The environment after calls, one after the other. -/
def after (env : Environment) (ops : List ScopeOp) : Environment :=
  ops.foldl (fun env op => op.run env) env

/-- Each call is given a number that was given out before; its scope may have been released. -/
def Issued (env : Environment) : List ScopeOp → Prop
  | [] => True
  | op :: more => op.scope < env.scopes.size ∧ Issued (op.run env) more

instance decidableIssued : (env : Environment) → (ops : List ScopeOp) → Decidable (env.Issued ops)
  | _, [] => isTrue trivial
  | env, op :: more =>
    have := decidableIssued (op.run env) more
    inferInstanceAs (Decidable (op.scope < env.scopes.size ∧ (op.run env).Issued more))

/-- Only the global scope has no parent and it is captured, parents are older than their children,
and a captured scope has no live parent that is not captured. -/
structure Sealed (env : Environment) : Prop where
  root : ∃ s, env.scope? global = some s ∧ s.parent = none ∧ s.captured = true
  root_only : ∀ id s, env.scope? id = some s → s.parent = none → id = global
  parent_older : ∀ id s p, env.scope? id = some s → s.parent = some p → p < id
  parent_captured : ∀ id s p t, env.scope? id = some s → s.captured = true → s.parent = some p →
    env.scope? p = some t → t.captured = true

variable {env env' : Environment} {id parent x : ScopeId} {s t : Scope} {path : List ScopeId}
variable {stop : Option ScopeId} {name : String}

theorem Walk.live (h : Walk env id path stop) (hx : x ∈ path) : ∃ t, env.scope? x = some t := by
  induction h with
  | stopped _ => cases hx
  | outermost hs _ =>
    rw [List.mem_singleton.mp hx]
    exact ⟨_, hs⟩
  | outward hs _ _ ih =>
    rcases List.mem_cons.mp hx with rfl | hx
    · exact ⟨_, hs⟩
    · exact ih hx

theorem Walk.starts (h : Walk env id path stop) (hs : env.scope? id = some s) :
    ∃ more, path = id :: more := by
  cases h with
  | stopped hnone => rw [hs] at hnone; cases hnone
  | outermost _ _ => exact ⟨_, rfl⟩
  | outward _ _ _ => exact ⟨_, rfl⟩

theorem Walk.older (h : Walk env id path stop) (he : env.Sealed) (hx : x ∈ path) : x ≤ id := by
  induction h with
  | stopped _ => cases hx
  | outermost _ _ => exact Nat.le_of_eq (List.mem_singleton.mp hx)
  | outward hs hp _ ih =>
    rcases List.mem_cons.mp hx with rfl | hx
    · exact Nat.le_refl _
    · exact Nat.le_trans (ih hx) (Nat.le_of_lt (he.parent_older _ _ _ hs hp))

theorem Walk.length_le (h : Walk env id path stop) (he : env.Sealed) : path.length ≤ id + 1 := by
  induction h with
  | stopped _ => exact Nat.zero_le _
  | outermost _ _ => simp
  | outward hs hp _ ih =>
    exact Nat.succ_le_succ (Nat.le_trans ih (he.parent_older _ _ _ hs hp))

theorem Sealed.exists_walk (he : env.Sealed) (id : ScopeId) :
    ∃ path stop, Walk env id path stop := by
  induction id using Nat.strongRecOn with
  | ind id ih =>
    cases hs : env.scope? id with
    | none => exact ⟨[], some id, .stopped hs⟩
    | some s =>
      cases hp : s.parent with
      | none => exact ⟨[id], none, .outermost hs hp⟩
      | some p =>
        obtain ⟨path, stop, hw⟩ := ih p (he.parent_older id s p hs hp)
        exact ⟨id :: path, stop, .outward hs hp hw⟩

theorem Walk.getLast_global (h : Walk env id path none) (he : env.Sealed) :
    path.getLast? = some global := by
  generalize hstop : (none : Option ScopeId) = stop at h
  induction h with
  | stopped _ => cases hstop
  | outermost hs hp => rw [he.root_only _ _ hs hp]; rfl
  | outward hs hp hw ih =>
    have hlast := ih hstop
    rw [List.getLast?_cons, hlast]
    rfl

theorem Walk.congr (h : Walk env id path none)
    (hsame : ∀ x ∈ path, ∀ t, env.scope? x = some t →
      ∃ t', env'.scope? x = some t' ∧ t'.parent = t.parent) : Walk env' id path none := by
  generalize hstop : (none : Option ScopeId) = stop at h ⊢
  induction h with
  | stopped _ => cases hstop
  | outermost hs hp =>
    obtain ⟨t', ht', hp'⟩ := hsame _ (by simp) _ hs
    exact .outermost ht' (hp'.trans hp)
  | outward hs hp _ ih =>
    obtain ⟨t', ht', hp'⟩ := hsame _ (by simp) _ hs
    exact .outward ht' (hp'.trans hp) (ih (fun x hx => hsame x (by simp [hx])) hstop)

theorem Walk.lookupWithin (h : Walk env id path stop) {bound : Nat} (hb : path.length ≤ bound) :
    env.lookupWithin name bound id = path.findSome? (env.binding? name) := by
  induction h generalizing bound with
  | stopped hs => cases bound <;> simp [Environment.lookupWithin, hs]
  | outermost hs hp =>
    obtain _ | bound := bound
    · cases hb
    · simp only [Environment.lookupWithin, hs, hp, List.findSome?_cons, binding?, Option.bind_some]
      split <;> simp_all
  | @outward id parent s path stop hs hp _ ih =>
    obtain _ | bound := bound
    · cases hb
    · rw [List.length_cons, Nat.add_le_add_iff_right] at hb
      simp only [Environment.lookupWithin, hs, hp, ih hb, List.findSome?_cons, binding?,
        Option.bind_some]
      cases Bindings.get? name s.bindings <;> rfl

theorem findSome?_binding? (h : ∀ x ∈ path, env'.binding? name x = env.binding? name x) :
    path.findSome? (env'.binding? name) = path.findSome? (env.binding? name) := by
  have hmap := congrArg (List.findSome? fun found => found) (List.map_congr_left h)
  rwa [List.findSome?_map, List.findSome?_map] at hmap

theorem Walk.lookup (h : Walk env id path stop) (he : env.Sealed) (name : String) :
    env.lookup id name = path.findSome? (env.binding? name) :=
  h.lookupWithin (h.length_le he)

theorem Walk.ne_nil (h : Walk env id path none) : path ≠ [] := by
  cases h with
  | outermost _ _ => simp
  | outward _ _ _ => simp

theorem Walk.depthWithin (h : Walk env id path stop) {bound : Nat} (hb : path.length ≤ bound) :
    env.depthWithin bound id = path.length - if stop = none then 1 else 0 := by
  induction h generalizing bound with
  | stopped hs => cases bound <;> simp [Environment.depthWithin, hs]
  | outermost hs hp => cases bound <;> simp [Environment.depthWithin, hs, hp]
  | @outward id parent s path stop hs hp hw ih =>
    obtain _ | bound := bound
    · cases hb
    · rw [List.length_cons, Nat.add_le_add_iff_right] at hb
      simp only [Environment.depthWithin, hs, hp, Option.bind_some, ih hb, List.length_cons]
      split
      · rename_i hstop
        subst hstop
        have hpos := List.length_pos_iff.mpr hw.ne_nil
        omega
      · rfl

/-- The depth counts the scopes around a scope, and also the number at which the walk stops. -/
theorem Walk.depth (h : Walk env id path stop) (he : env.Sealed) :
    env.depth id = path.length - if stop = none then 1 else 0 :=
  h.depthWithin (h.length_le he)

theorem Walk.update (h : Walk env id path stop) (x : ScopeId) (f : Scope → Scope)
    (hf : ∀ s, (f s).parent = s.parent) : Walk (env.update x f) id path stop := by
  have hup : ∀ {i t}, env.scope? i = some t →
      ∃ t', (env.update x f).scope? i = some t' ∧ t'.parent = t.parent := by
    intro i t ht
    rw [scope?_update]
    split
    · exact ⟨f t, by simp [ht], hf t⟩
    · exact ⟨t, ht, rfl⟩
  induction h with
  | stopped hs =>
    apply Walk.stopped
    rw [scope?_update]
    split <;> simp [hs]
  | outermost hs hp =>
    obtain ⟨t', ht', hp'⟩ := hup hs
    exact .outermost ht' (hp'.trans hp)
  | outward hs hp _ ih =>
    obtain ⟨t', ht', hp'⟩ := hup hs
    exact .outward ht' (hp'.trans hp) ih

theorem Walk.nodup (h : Walk env id path stop) (he : env.Sealed) : path.Nodup := by
  induction h with
  | stopped _ => exact List.nodup_nil
  | outermost _ _ => simp
  | outward hs hp hw ih =>
    refine List.nodup_cons.mpr ⟨fun hmem => ?_, ih⟩
    exact absurd (hw.older he hmem) (Nat.not_le.mpr (he.parent_older _ _ _ hs hp))

theorem takeWhile_mark (env : Environment) (hid : id ∉ path) :
    path.takeWhile (env.update id fun s => { s with captured := true }).isLoose =
      path.takeWhile env.isLoose := by
  induction path with
  | nil => rfl
  | cons y more ih =>
    obtain ⟨hy, hmore⟩ := not_or.mp (mt List.mem_cons.mpr hid)
    have hsame :
        (env.update id fun s => { s with captured := true }).isLoose y = env.isLoose y := by
      simp only [isLoose, scope?_update, if_neg (Ne.symm hy)]
    simp only [List.takeWhile_cons, hsame, ih hmore]

theorem Walk.captureWithin (h : Walk env id path stop) (hn : path.Nodup) {bound : Nat}
    (hb : path.length ≤ bound) (i : ScopeId) :
    (captureWithin bound env id).scope? i =
      (env.scope? i).map (marked (decide (i ∈ path.takeWhile env.isLoose))) := by
  induction path generalizing env id bound with
  | nil =>
    cases h with
    | stopped hs => cases bound <;> simp [Environment.captureWithin, hs, funext marked_false]
  | cons y more ih =>
    obtain _ | bound := bound
    · cases hb
    rw [List.length_cons, Nat.add_le_add_iff_right] at hb
    obtain ⟨hy, hmore⟩ := List.nodup_cons.mp hn
    obtain ⟨s, hs⟩ := h.live List.mem_cons_self
    cases hc : s.captured with
    | true =>
      have hloose : env.isLoose y = false := by simp [isLoose, hs, hc]
      cases h <;> simp [Environment.captureWithin, hs, hc, hloose, funext marked_false]
    | false =>
      have hloose : env.isLoose y = true := by simp [isLoose, hs, hc]
      cases h with
      | outermost hs' hp =>
        rw [hs] at hs'
        cases hs'
        simp [Environment.captureWithin, hs, hc, hp, hloose, scope?_mark]
      | @outward _ parent s' _ _ hs' hp hw =>
        rw [hs] at hs'
        cases hs'
        have hrest := ih (hw.update y (fun s => { s with captured := true }) fun _ => rfl) hmore hb
        rw [takeWhile_mark env hy, scope?_mark, Option.map_map] at hrest
        simp only [Environment.captureWithin, hs, hc, hp]
        refine hrest.trans ?_
        congr 1
        funext t
        simp [marked, hloose, Bool.or_assoc]

/-- A capture marks the scopes of the walk up to the first that is captured already. -/
theorem Walk.capture (h : Walk env id path stop) (he : env.Sealed) (i : ScopeId) :
    (env.capture id).scope? i =
      (env.scope? i).map (marked (decide (i ∈ path.takeWhile env.isLoose))) :=
  h.captureWithin (h.nodup he) (h.length_le he) i

/-! ### Every environment that calls lead to is sealed -/

/-- A call that binds parameters makes a scope if they take the arguments, and else does nothing. -/
theorem run_bind (env : Environment) (parent : ScopeId) (function : String) (params : Params)
    (args : List Datum) :
    (ScopeOp.bind parent params args).run env =
      match env.bind parent function params args with
      | .ok (_, env') => env'
      | .error _ => env := by
  simp only [ScopeOp.run, bind, checkCall]
  split <;> rfl

theorem sealed_initial : initial.Sealed := by
  have hroot : ∀ id s, initial.scope? id = some s → id = global ∧ s.parent = none := by
    intro id s hs
    obtain _ | id := id
    · cases hs
      exact ⟨rfl, rfl⟩
    · simp [initial, scope?] at hs
  constructor
  · exact ⟨_, rfl, rfl, rfl⟩
  · exact fun id s hs _ => (hroot id s hs).1
  · intro id s p hs hp
    rw [(hroot id s hs).2] at hp
    cases hp
  · intro id s p t hs _ hp
    rw [(hroot id s hs).2] at hp
    cases hp

theorem Sealed.push (he : env.Sealed) (hp : parent < env.scopes.size) (bs : Bindings) :
    (env.push parent bs).2.Sealed := by
  have hold : ∀ {i u}, env.scope? i = some u → (env.push parent bs).2.scope? i = some u := by
    intro i u hu
    rw [scope?_push, if_neg (Nat.ne_of_lt (lt_size_of_live hu))]
    exact hu
  obtain ⟨r, hr, hn, hc⟩ := he.root
  constructor
  · exact ⟨r, hold hr, hn, hc⟩
  · intro i u hu hup
    rw [scope?_push] at hu
    split at hu
    · cases hu; cases hup
    · exact he.root_only i u hu hup
  · intro i u p hu hup
    rw [scope?_push] at hu
    split at hu
    · rename_i hi
      cases hu
      cases hup
      exact hi ▸ hp
    · exact he.parent_older i u p hu hup
  · intro i u p v hu hc hup hv
    rw [scope?_push] at hu
    split at hu
    · cases hu; cases hc
    · rename_i hi
      have hlt := Nat.lt_trans (he.parent_older i u p hu hup) (lt_size_of_live hu)
      rw [scope?_push, if_neg (Nat.ne_of_lt hlt)] at hv
      exact he.parent_captured i u p v hu hc hup hv

theorem Sealed.of_old (he : env.Sealed) (hkeep : Preserves (·.captured = true) env env')
    (hold : ∀ i t', env'.scope? i = some t' → ∃ t, env.scope? i = some t ∧ t'.parent = t.parent)
    (hcaptured : ∀ i t' p u', env'.scope? i = some t' → t'.captured = true → t'.parent = some p →
      env'.scope? p = some u' → u'.captured = true) : env'.Sealed := by
  obtain ⟨r, hr, hn, hc⟩ := he.root
  obtain ⟨r', hr', hn', hc'⟩ := hkeep global r hr hc
  constructor
  · exact ⟨r', hr', hn'.trans hn, hc'⟩
  · intro i t' ht' hp
    obtain ⟨t, ht, hpt⟩ := hold i t' ht'
    exact he.root_only i t ht (hpt.symm.trans hp)
  · intro i t' p ht' hp
    obtain ⟨t, ht, hpt⟩ := hold i t' ht'
    exact he.parent_older i t p ht (hpt.symm.trans hp)
  · exact hcaptured

theorem Sealed.set (he : env.Sealed) (id : ScopeId) (name : String) (value : Datum) :
    (env.set id name value).Sealed := by
  have hold : ∀ {i t'}, (env.set id name value).scope? i = some t' →
      ∃ t, env.scope? i = some t ∧ t'.parent = t.parent ∧ t'.captured = t.captured := by
    intro i t' ht'
    rw [scope?_set] at ht'
    split at ht'
    · obtain ⟨t, ht, rfl⟩ := Option.map_eq_some_iff.mp ht'
      exact ⟨t, ht, rfl, rfl⟩
    · exact ⟨t', ht', rfl, rfl⟩
  refine he.of_old (preserves_run env (.use (.set id name value))) ?_ ?_
  · intro i t' ht'
    obtain ⟨t, ht, hp, _⟩ := hold ht'
    exact ⟨t, ht, hp⟩
  · intro i t' p u' ht' hc hp hu'
    obtain ⟨t, ht, hpt, hct⟩ := hold ht'
    obtain ⟨u, hu, _, hcu⟩ := hold hu'
    exact hcu.trans (he.parent_captured i t p u ht (hct.symm.trans hc) (hpt.symm.trans hp) hu)

theorem Sealed.release (he : env.Sealed) (id : ScopeId) : (env.release id).Sealed := by
  have hold : ∀ {i t}, (env.release id).scope? i = some t → env.scope? i = some t := by
    intro i t ht
    rw [scope?_release] at ht
    split at ht
    · exact (Option.filter_eq_some_iff.mp ht).1
    · exact ht
  refine he.of_old (preserves_release env id) (fun i t ht => ⟨t, hold ht, rfl⟩) ?_
  exact fun i t p u ht hc hp hu => he.parent_captured i t p u (hold ht) hc hp (hold hu)

theorem Walk.parent_of_loose (h : Walk env id path stop) (hx : x ∈ path.takeWhile env.isLoose)
    (hs : env.scope? x = some s) (hp : s.parent = some parent) (ht : env.scope? parent = some t) :
    parent ∈ path.takeWhile env.isLoose ∨ t.captured = true := by
  induction h with
  | stopped _ => cases hx
  | outermost hs' hp' =>
    have hid := List.mem_singleton.mp ((List.takeWhile_prefix _).subset hx)
    subst hid
    rw [hs] at hs'
    cases hs'
    rw [hp] at hp'
    cases hp'
  | @outward id parent' s' path stop hs' hp' hw ih =>
    rw [List.takeWhile_cons] at hx ⊢
    split at hx
    · rename_i hloose
      rw [if_pos hloose]
      rcases List.mem_cons.mp hx with rfl | hx
      · rw [hs] at hs'
        cases hs'
        rw [hp] at hp'
        cases hp'
        obtain ⟨more, rfl⟩ := hw.starts ht
        cases hc : t.captured with
        | true => exact .inr rfl
        | false => simp [isLoose, ht, hc]
      · exact (ih hx).imp_left (List.mem_cons_of_mem _)
    · cases hx

theorem Sealed.capture (he : env.Sealed) (id : ScopeId) : (env.capture id).Sealed := by
  obtain ⟨path, stop, hw⟩ := he.exists_walk id
  have hold : ∀ {i t'}, (env.capture id).scope? i = some t' → ∃ t, env.scope? i = some t ∧
      t' = marked (decide (i ∈ path.takeWhile env.isLoose)) t := by
    intro i t' ht'
    rw [hw.capture he] at ht'
    obtain ⟨t, ht, rfl⟩ := Option.map_eq_some_iff.mp ht'
    exact ⟨t, ht, rfl⟩
  refine he.of_old (preserves_run env (.use (.capture id))) ?_ ?_
  · intro i t' ht'
    obtain ⟨t, ht, rfl⟩ := hold ht'
    exact ⟨t, ht, rfl⟩
  · intro i t' p u' ht' hc hp hu'
    obtain ⟨t, ht, rfl⟩ := hold ht'
    obtain ⟨u, hu, rfl⟩ := hold hu'
    simp only [marked, Bool.or_eq_true, decide_eq_true_eq] at hc ⊢
    rcases hc with hc | hc
    · exact .inl (he.parent_captured i t p u ht hc hp hu)
    · exact (hw.parent_of_loose hc ht hp hu).symm

/-- A call that is given a number that was given out before. -/
theorem Sealed.run (he : env.Sealed) {op : ScopeOp} (hop : op.scope < env.scopes.size) :
    (op.run env).Sealed := by
  cases op with
  | child parent => exact he.push hop []
  | set scope name value => exact he.set scope name value
  | lookup scope name => exact he
  | bind parent params args =>
    simp only [ScopeOp.run]
    split
    · exact he.push hop _
    · exact he
  | capture scope => exact he.capture scope
  | release scope => exact he.release scope

theorem Sealed.after {ops : List ScopeOp} (he : env.Sealed) (hops : env.Issued ops) :
    (env.after ops).Sealed := by
  induction ops generalizing env with
  | nil => exact he
  | cons op more ih => exact ih (he.run hops.1) hops.2

theorem Walk.kept (h : Walk env id path stop) (he : env.Sealed) (hk : env.Kept id) (hx : x ∈ path) :
    env.Kept x := by
  induction h with
  | stopped _ => cases hx
  | outermost _ _ =>
    rw [List.mem_singleton.mp hx]
    exact hk
  | @outward id parent s path stop hs hp hw ih =>
    rcases List.mem_cons.mp hx with rfl | hx
    · exact hk
    · obtain ⟨s', hs', hc⟩ := hk
      rw [hs] at hs'
      cases hs'
      have hne : path ≠ [] := List.ne_nil_of_mem hx
      cases ht : env.scope? parent with
      | none => cases hw <;> simp_all
      | some t => exact ih ⟨t, ht, he.parent_captured _ s parent t hs hc hp ht⟩ hx

/-- A capture that comes to the global scope leaves the walk as it is and captures all of it. -/
theorem Walk.capture_self (h : Walk env id path none) (he : env.Sealed) :
    (env.capture id).Walk id path none ∧ ∀ x ∈ path, (env.capture id).Kept x := by
  have hwalk : (env.capture id).Walk id path none := by
    refine h.congr fun y _ t ht => ?_
    rw [h.capture he, ht]
    exact ⟨_, rfl, rfl⟩
  have hself : (env.capture id).Kept id := by
    obtain ⟨y, more, rfl⟩ := List.exists_cons_of_ne_nil h.ne_nil
    obtain ⟨s, hs⟩ := h.live List.mem_cons_self
    have hy : y = id := by cases h <;> rfl
    subst hy
    refine ⟨_, (h.capture he y).trans (by rw [hs, Option.map_some]), ?_⟩
    cases hc : s.captured <;> simp [marked, isLoose, hs, hc]
  exact ⟨hwalk, fun x hx => hwalk.kept (he.capture id) hself hx⟩

theorem preserves_after (env : Environment) (ops : List ScopeOp) :
    Preserves (·.captured = true) env (env.after ops) := by
  induction ops generalizing env with
  | nil => exact fun i t ht hc => ⟨t, ht, rfl, hc⟩
  | cons op more ih =>
    intro i t ht hc
    obtain ⟨t', ht', hp, hc'⟩ := preserves_run env (.use op) i t ht hc
    obtain ⟨t'', ht'', hp', hc''⟩ := ih (op.run env) i t' ht' hc'
    exact ⟨t'', ht'', hp'.trans hp, hc''⟩

/-- A walk over captured scopes to the global one is the same after any calls. -/
theorem Walk.after (h : Walk env id path none) (hk : ∀ x ∈ path, env.Kept x) (ops : List ScopeOp) :
    (env.after ops).Walk id path none ∧ ∀ x ∈ path, (env.after ops).Kept x := by
  have hp := preserves_after env ops
  refine ⟨h.congr fun x hx t ht => ?_, fun x hx => hp.kept (hk x hx)⟩
  obtain ⟨t₀, ht₀, hc⟩ := hk x hx
  rw [ht] at ht₀
  cases ht₀
  obtain ⟨t', ht', hpt, _⟩ := hp x t ht hc
  exact ⟨t', ht', hpt⟩

theorem binding?_capture (env : Environment) (id : ScopeId) (name : String) (x : ScopeId) :
    (env.capture id).binding? name x = env.binding? name x := by
  obtain ⟨mark, hmark⟩ := scope?_capture env id
  rw [binding?, hmark, binding?]
  cases env.scope? x <;> rfl

theorem binding?_push (env : Environment) (parent : ScopeId) (bs : Bindings) (name : String)
    (hx : x < env.scopes.size) :
    (env.push parent bs).2.binding? name x = env.binding? name x := by
  rw [binding?, scope?_push, if_neg (Nat.ne_of_lt hx), binding?]

/-- What a captured scope binds is changed by nothing but a binding made in it. -/
theorem Kept.binding? (hk : env.Kept x) {op : ScopeOp} (hop : ∀ value, op ≠ .set x name value) :
    (op.run env).binding? name x = env.binding? name x := by
  obtain ⟨t, ht, hc⟩ := hk
  have hx : x < env.scopes.size := lt_size_of_live ht
  cases op with
  | child parent => exact binding?_push env parent [] name hx
  | set scope other value =>
    simp only [ScopeOp.run, Environment.binding?, scope?_set]
    by_cases hx : x = scope
    · subst hx
      have hname : name ≠ other := fun heq => hop value (heq ▸ rfl)
      simp [ht, Bindings.get?_set, hname]
    · rw [if_neg hx]
  | lookup scope other => rfl
  | bind parent params args =>
    simp only [ScopeOp.run]
    split
    · exact binding?_push env parent _ name hx
    · rfl
  | capture scope => exact binding?_capture env scope name x
  | release scope =>
    simp only [ScopeOp.run, Environment.binding?, scope?_release, ht]
    split
    · rw [Option.filter_some, if_pos hc]
    · rfl

/-- What is found from a scope is changed by nothing but a binding made in a scope of its walk. -/
theorem Walk.lookup_run (h : Walk env id path none) (hlen : path.length ≤ id + 1)
    (hk : ∀ x ∈ path, env.Kept x) {op : ScopeOp}
    (hop : ∀ x ∈ path, ∀ value, op ≠ .set x name value) :
    (op.run env).lookup id name = env.lookup id name := by
  have hwalk : (op.run env).Walk id path none := (h.after hk [op]).1
  have hfind := findSome?_binding? fun x hx => (hk x hx).binding? (hop x hx)
  exact (hwalk.lookupWithin hlen).trans (hfind.trans (h.lookupWithin hlen).symm)

theorem Walk.lookup_set (h : Walk env id path none) (hlen : path.length ≤ id + 1)
    (hn : path.Nodup) (hk : ∀ x ∈ path, env.Kept x) {inner outer : List ScopeId}
    (hpath : path = inner ++ x :: outer) (hinner : ∀ y ∈ inner, env.binding? name y = none)
    (value : Datum) : (env.set x name value).lookup id name = some value := by
  have hwalk : (env.set x name value).Walk id path none := (h.after hk [.set x name value]).1
  refine (hwalk.lookupWithin hlen).trans ?_
  refine List.findSome?_eq_some_iff.mpr ⟨inner, x, outer, hpath, ?_, fun y hy => ?_⟩
  · obtain ⟨t, ht, _⟩ := hk x (by simp [hpath])
    simp [binding?, scope?_set, ht, Bindings.get?_set]
  · have hne : y ≠ x := by
      rintro rfl
      rw [hpath] at hn
      exact (List.nodup_append.mp hn).2.2 y hy y List.mem_cons_self rfl
    have hsame : ((ScopeOp.set x name value).run env).binding? name y = env.binding? name y :=
      (hk y (by simp [hpath, hy])).binding? fun value' heq => hne (ScopeOp.set.inj heq).1.symm
    exact hsame.trans (hinner y hy)

theorem scope?_release_eq (env : Environment) (id i : ScopeId) :
    (env.release id).scope? i = if i = id ∧ env.isLoose id then none else env.scope? i := by
  rw [scope?_release]
  by_cases hi : i = id
  · subst hi
    simp only [isLoose, true_and, if_true]
    rcases env.scope? i with _ | s
    · rfl
    · cases hc : s.captured <;> simp [hc, Option.filter_some]
  · simp [hi]

/-- Calls on scopes, with any numbers that were given out before: parents are older than their
children, a captured scope has no live parent that is not captured, and the global scope is live. So
each walk outward ends, and it decides what is looked up, how deep a scope is and what a capture
marks. Once a scope is captured whose walk comes to the global one, the scopes of the walk are live
after any further calls, and what is found from there is changed by bindings made in one of them and
by nothing else. A release takes out a scope that is live and not captured, and nothing else. -/
theorem captured_walk_permanent {ops : List ScopeOp} (hops : initial.Issued ops) :
    let env := initial.after ops
    (∀ id s p, env.scope? id = some s → s.parent = some p →
      p < id ∧ (s.captured = true → env.Kept p ∨ env.isLive p = false)) ∧
    env.isLive global = true ∧
    (∀ id, ∃ path stop, env.Walk id path stop ∧ (stop = none → path.getLast? = some global) ∧
      (∀ name, env.lookup id name = path.findSome? (env.binding? name)) ∧
      env.depth id = path.length - (if stop = none then 1 else 0) ∧
      ∀ i, (env.capture id).scope? i =
        (env.scope? i).map (marked (decide (i ∈ path.takeWhile env.isLoose)))) ∧
    (∀ id path, env.Walk id path none → ∀ later,
      let env' := (env.capture id).after later
      (∀ name, (env.capture id).lookup id name = env.lookup id name) ∧
      env'.Walk id path none ∧ (∀ x ∈ path, env'.Kept x) ∧
      (∀ name (op : ScopeOp), (op.run env').lookup id name ≠ env'.lookup id name →
        ∃ x ∈ path, ∃ value, op = .set x name value) ∧
      ∀ name inner x outer, path = inner ++ x :: outer →
        (∀ y ∈ inner, env'.binding? name y = none) →
        ∀ value, (env'.set x name value).lookup id name = some value) ∧
    ∀ id, (env.release id).scopes.size = env.scopes.size ∧
      ∀ i, (env.release id).scope? i = if i = id ∧ env.isLoose id then none else env.scope? i := by
  intro env
  have he : env.Sealed := sealed_initial.after hops
  refine ⟨fun id s p hs hp => ⟨he.parent_older id s p hs hp, fun hc => ?_⟩, ?_, fun id => ?_,
    fun id path hw later => ?_, fun id => ⟨size_release env id, scope?_release_eq env id⟩⟩
  · cases ht : env.scope? p with
    | none => exact .inr (by simp [isLive, ht])
    | some t => exact .inl ⟨t, ht, he.parent_captured id s p t hs hc hp ht⟩
  · obtain ⟨s, hs, _⟩ := he.root
    simp [isLive, hs]
  · obtain ⟨path, stop, hw⟩ := he.exists_walk id
    refine ⟨path, stop, hw, ?_, hw.lookup he, hw.depth he, hw.capture he⟩
    rintro rfl
    exact hw.getLast_global he
  · intro env'
    have hlen := hw.length_le he
    have hfirst : ∀ name, (env.capture id).lookup id name = env.lookup id name := by
      intro name
      have hsame : (env.capture id).binding? name = env.binding? name :=
        funext (binding?_capture env id name)
      refine ((hw.capture_self he).1.lookupWithin hlen).trans ?_
      rw [hsame]
      exact (hw.lookupWithin hlen).symm
    obtain ⟨hwalk, hkept⟩ := (hw.capture_self he).1.after (hw.capture_self he).2 later
    refine ⟨hfirst, hwalk, hkept, fun name op hne => ?_, fun name inner x outer hpath hinner =>
      hwalk.lookup_set hlen (hw.nodup he) hkept hpath hinner⟩
    by_contra hnone
    exact hne (hwalk.lookup_run hlen hkept fun x hx value heq => hnone ⟨x, hx, value, heq⟩)

/-- A scope whose parent was released, so that its capture comes to nothing outward, and beside it a
chain that stays although its scopes are given to be released. -/
theorem captured_walk_permanent_stale :
    let ops : List ScopeOp :=
      [.child 0, .child 1, .release 1, .child 1, .capture 3, .child 0, .child 4]
    let env := initial.after ops
    let env' := (env.capture 5).after [.release 5, .release 4, .release 1, .child 4]
    initial.Issued ops ∧ env.Walk 3 [3] (some 1) ∧ env.Walk 5 [5, 4, 0] none ∧
      ∀ x ∈ [5, 4, 0], env'.Kept x := by
  intro ops env env'
  have hops : initial.Issued ops := by decide
  have hwalk : env.Walk 5 [5, 4, 0] none := .outward rfl rfl (.outward rfl rfl (.outermost rfl rfl))
  refine ⟨hops, .outward rfl rfl (.stopped rfl), hwalk, ?_⟩
  exact ((captured_walk_permanent hops).2.2.2.1 5 _ hwalk [.release 5, .release 4, .release 1,
    .child 4]).2.2.1

end Environment

end TableLisp

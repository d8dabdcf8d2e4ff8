import TableLisp.Environment

/-! Chains of scopes. A scope is anchored if it and all scopes around it are live, outward to the
global one, and secured if in addition all of them are captured. A new scope, a binding and a
capture keep an environment well-formed, and a capture secures the scope that it is asked for. -/

namespace TableLisp

namespace Environment

/-- A scope from which the global one is reached over live scopes that all satisfy `P`. -/
inductive Chain (env : Environment) (P : Scope → Prop) : ScopeId → Prop where
  | root {s : Scope} : env.scope? global = some s → s.parent = none → P s → Chain env P global
  | link {id parent : ScopeId} {s : Scope} : env.scope? id = some s → s.parent = some parent →
      P s → Chain env P parent → Chain env P id

def Anchored (env : Environment) : ScopeId → Prop := Chain env fun _ => True

def Secured (env : Environment) : ScopeId → Prop := Chain env fun s => s.captured = true

/-- The scope is live and captured. -/
def Kept (env : Environment) (id : ScopeId) : Prop :=
  ∃ s, env.scope? id = some s ∧ s.captured = true

/-- Each scope that satisfies `P` lives on with its parent and satisfies `P` still. -/
def Preserves (P : Scope → Prop) (env env' : Environment) : Prop :=
  ∀ id s, env.scope? id = some s → P s →
    ∃ s', env'.scope? id = some s' ∧ s'.parent = s.parent ∧ P s'

/-- Parents are older than their children, so chains end, and the scope around a captured one is
captured too; `pending` is the one scope that this may not hold for yet. -/
structure Ordered (pending : Option ScopeId) (env : Environment) : Prop where
  root : ∃ s, env.scope? global = some s ∧ s.parent = none ∧ s.captured = true
  root_only : ∀ id s, env.scope? id = some s → s.parent = none → id = global
  parent_older : ∀ id s p, env.scope? id = some s → s.parent = some p → p < id
  parent_kept : ∀ id s p, env.scope? id = some s → s.captured = true → s.parent = some p →
    some p ≠ pending → env.Kept p

abbrev WellFormed (env : Environment) : Prop := Ordered none env

variable {env env' : Environment} {P Q : Scope → Prop} {id parent : ScopeId} {s : Scope}

theorem Chain.live (h : Chain env P id) : ∃ s, env.scope? id = some s := by
  cases h with
  | root hs _ _ => exact ⟨_, hs⟩
  | link hs _ _ _ => exact ⟨_, hs⟩

theorem Chain.outward (h : Chain env P id) (hs : env.scope? id = some s)
    (hp : s.parent = some parent) : Chain env P parent := by
  cases h with
  | root hs' hn _ => rw [hs] at hs'; cases hs'; rw [hp] at hn; cases hn
  | link hs' hn _ h => rw [hs] at hs'; cases hs'; rw [hp] at hn; cases hn; exact h

theorem Chain.mono (h : Chain env P id) (hpq : ∀ s, P s → Q s) : Chain env Q id := by
  induction h with
  | root hs hp h => exact .root hs hp (hpq _ h)
  | link hs hp h _ ih => exact .link hs hp (hpq _ h) ih

theorem Chain.preserved (h : Chain env P id) (hp : Preserves P env env') : Chain env' P id := by
  induction h with
  | root hs hn h =>
    obtain ⟨s', hs', hp', h'⟩ := hp _ _ hs h
    exact .root hs' (hp'.trans hn) h'
  | link hs hn h _ ih =>
    obtain ⟨s', hs', hp', h'⟩ := hp _ _ hs h
    exact .link hs' (hp'.trans hn) h' ih

theorem Secured.anchored (h : env.Secured id) : env.Anchored id := Chain.mono h fun _ _ => trivial

theorem Secured.kept (h : env.Secured id) : env.Kept id := by
  cases h with
  | root hs _ h => exact ⟨_, hs, h⟩
  | link hs _ h _ => exact ⟨_, hs, h⟩

theorem Kept.secured (h : env.Kept id) (hw : env.WellFormed) : env.Secured id := by
  induction id using Nat.strongRecOn with
  | ind id ih =>
    obtain ⟨s, hs, hc⟩ := h
    cases hp : s.parent with
    | none =>
      have hid := hw.root_only id s hs hp
      subst hid
      exact .root hs hp hc
    | some p =>
      have hk := hw.parent_kept id s p hs hc hp (by simp)
      exact .link hs hp hc (ih p (hw.parent_older id s p hs hp) hk)

theorem lt_size_of_live (h : env.scope? id = some s) : id < env.scopes.size := by
  rcases Nat.lt_or_ge id env.scopes.size with hlt | hge
  · exact hlt
  · simp [scope?, Array.getElem?_eq_none hge] at h

@[simp] theorem size_push (env : Environment) (parent : ScopeId) (bs : Bindings) :
    (env.push parent bs).2.scopes.size = env.scopes.size + 1 := by
  simp [push]

@[simp] theorem size_update (env : Environment) (id : ScopeId) (f : Scope → Scope) :
    (env.update id f).scopes.size = env.scopes.size := by
  simp [update]

@[simp] theorem size_set (env : Environment) (id : ScopeId) (name : String) (value : Datum) :
    (env.set id name value).scopes.size = env.scopes.size := size_update ..

@[simp] theorem size_release (env : Environment) (id : ScopeId) :
    (env.release id).scopes.size = env.scopes.size := by
  unfold release
  split
  · split <;> simp
  · rfl

theorem scope?_set (env : Environment) (id id' : ScopeId) (name : String) (value : Datum) :
    (env.set id name value).scope? id' =
      if id' = id then
        (env.scope? id').map fun s => { s with bindings := Bindings.set name value s.bindings }
      else env.scope? id' :=
  scope?_update ..

/-- A scope with its mark set if `b` is. -/
def marked (b : Bool) (s : Scope) : Scope := { s with captured := s.captured || b }

@[simp] theorem marked_false (s : Scope) : marked false s = s := by simp [marked]

theorem scope?_mark (env : Environment) (id i : ScopeId) :
    (env.update id fun s => { s with captured := true }).scope? i =
      (env.scope? i).map (marked (decide (i = id))) := by
  rw [scope?_update]
  by_cases hi : i = id
  · subst hi
    simp only [↓reduceIte, decide_true]
    congr 1
    funext t
    simp [marked]
  · simp [hi, funext marked_false]

theorem scope?_captureWithin (bound : Nat) (env : Environment) (id : ScopeId) :
    (captureWithin bound env id).scopes.size = env.scopes.size ∧
      ∃ mark : ScopeId → Bool, ∀ i,
        (captureWithin bound env id).scope? i = (env.scope? i).map (marked (mark i)) := by
  induction bound generalizing env id with
  | zero => exact ⟨rfl, fun _ => false, by simp [captureWithin, funext marked_false]⟩
  | succ bound ih =>
    unfold captureWithin
    split
    · exact ⟨rfl, fun _ => false, by simp [funext marked_false]⟩
    · rename_i s hs
      split
      · exact ⟨rfl, fun _ => false, by simp [funext marked_false]⟩
      · split
        · exact ⟨size_update .., fun i => decide (i = id), scope?_mark env id⟩
        · rename_i p _
          obtain ⟨hsize, mark, hmark⟩ := ih (env.update id fun s => { s with captured := true }) p
          refine ⟨hsize.trans (size_update ..), fun i => decide (i = id) || mark i, ?_⟩
          intro i
          rw [hmark, scope?_mark, Option.map_map]
          congr 1
          funext s
          simp [marked, Bool.or_assoc]

@[simp] theorem size_capture (env : Environment) (id : ScopeId) :
    (env.capture id).scopes.size = env.scopes.size := (scope?_captureWithin ..).1

theorem scope?_capture (env : Environment) (id : ScopeId) :
    ∃ mark : ScopeId → Bool, ∀ i,
      (env.capture id).scope? i = (env.scope? i).map (marked (mark i)) :=
  (scope?_captureWithin ..).2

theorem Preserves.kept (hp : Preserves (·.captured = true) env env') (h : env.Kept id) :
    env'.Kept id := by
  obtain ⟨s, hs, hc⟩ := h
  obtain ⟨s', hs', _, hc'⟩ := hp id s hs hc
  exact ⟨s', hs', hc'⟩

theorem wellFormed_push (hw : env.WellFormed) (hlive : env.scope? parent = some s)
    (bs : Bindings) : (env.push parent bs).2.WellFormed := by
  have hlt := lt_size_of_live hlive
  have hkeep : ∀ {i}, env.Kept i → (env.push parent bs).2.Kept i := by
    rintro i ⟨t, ht, hc⟩
    refine ⟨t, ?_, hc⟩
    rw [scope?_push, if_neg (Nat.ne_of_lt (lt_size_of_live ht))]
    exact ht
  obtain ⟨r, hr, hn, hc⟩ := hw.root
  constructor
  · refine ⟨r, ?_, hn, hc⟩
    rw [scope?_push, if_neg (Nat.ne_of_lt (lt_size_of_live hr))]
    exact hr
  · intro i t ht hp
    rw [scope?_push] at ht
    split at ht
    · cases ht; cases hp
    · exact hw.root_only i t ht hp
  · intro i t p ht hp
    rw [scope?_push] at ht
    split at ht
    · rename_i hi
      cases ht
      cases hp
      exact hi ▸ hlt
    · exact hw.parent_older i t p ht hp
  · intro i t p ht hc hp _
    rw [scope?_push] at ht
    split at ht
    · cases ht; cases hc
    · exact hkeep (hw.parent_kept i t p ht hc hp (by simp))

theorem wellFormed_update (hw : env.WellFormed) (f : Scope → Scope)
    (hf : ∀ s, (f s).parent = s.parent ∧ (f s).captured = s.captured) :
    (env.update id f).WellFormed := by
  have back : ∀ {i t}, (env.update id f).scope? i = some t →
      ∃ t₀, env.scope? i = some t₀ ∧ t.parent = t₀.parent ∧ t.captured = t₀.captured := by
    intro i t ht
    rw [scope?_update] at ht
    split at ht
    · obtain ⟨t₀, ht₀, rfl⟩ := Option.map_eq_some_iff.mp ht
      exact ⟨t₀, ht₀, hf t₀⟩
    · exact ⟨t, ht, rfl, rfl⟩
  have forth : ∀ {i t₀}, env.scope? i = some t₀ →
      ∃ t, (env.update id f).scope? i = some t ∧ t.parent = t₀.parent ∧
        t.captured = t₀.captured := by
    intro i t₀ ht₀
    rw [scope?_update]
    split
    · exact ⟨f t₀, by simp [ht₀], hf t₀⟩
    · exact ⟨t₀, ht₀, rfl, rfl⟩
  obtain ⟨r, hr, hn, hc⟩ := hw.root
  obtain ⟨r', hr', hn', hc'⟩ := forth hr
  constructor
  · exact ⟨r', hr', hn'.trans hn, hc'.trans hc⟩
  · intro i t ht hp
    obtain ⟨t₀, ht₀, hp₀, _⟩ := back ht
    exact hw.root_only i t₀ ht₀ (hp₀.symm.trans hp)
  · intro i t p ht hp
    obtain ⟨t₀, ht₀, hp₀, _⟩ := back ht
    exact hw.parent_older i t₀ p ht₀ (hp₀.symm.trans hp)
  · intro i t p ht hc hp _
    obtain ⟨t₀, ht₀, hp₀, hc₀⟩ := back ht
    obtain ⟨u, hu, huc⟩ := hw.parent_kept i t₀ p ht₀ (hc₀.symm.trans hc) (hp₀.symm.trans hp)
      (by simp)
    obtain ⟨u', hu', _, huc'⟩ := forth hu
    exact ⟨u', hu', huc'.trans huc⟩

theorem wellFormed_release (hw : env.WellFormed) : (env.release id).WellFormed := by
  have back : ∀ {i t}, (env.release id).scope? i = some t → env.scope? i = some t := by
    intro i t ht
    rw [scope?_release] at ht
    split at ht
    · exact (Option.filter_eq_some_iff.mp ht).1
    · exact ht
  have keep : ∀ {i t}, env.scope? i = some t → t.captured = true →
      (env.release id).scope? i = some t := by
    intro i t ht hc
    rw [scope?_release]
    split
    · exact Option.filter_eq_some_iff.mpr ⟨ht, hc⟩
    · exact ht
  obtain ⟨r, hr, hn, hc⟩ := hw.root
  constructor
  · exact ⟨r, keep hr hc, hn, hc⟩
  · intro i t ht hp
    exact hw.root_only i t (back ht) hp
  · intro i t p ht hp
    exact hw.parent_older i t p (back ht) hp
  · intro i t p ht hc hp hne
    obtain ⟨u, hu, huc⟩ := hw.parent_kept i t p (back ht) hc hp hne
    exact ⟨u, keep hu huc, huc⟩

/-- Marking the pending scope leaves at most the one around it pending. -/
theorem Ordered.mark (hw : Ordered (some id) env) (hs : env.scope? id = some s)
    (hp : s.parent = some parent) :
    Ordered (some parent) (env.update id fun s => { s with captured := true }) := by
  have hup : ∀ i, (env.update id fun s => { s with captured := true }).scope? i =
      if i = id then some { s with captured := true } else env.scope? i := by
    intro i
    rw [scope?_update]
    by_cases hi : i = id
    · subst hi; simp [hs]
    · simp [hi]
  obtain ⟨r, hr, hn, hc⟩ := hw.root
  have hne : global ≠ id := by
    intro h
    rw [h, hs] at hr
    cases hr
    rw [hp] at hn
    cases hn
  constructor
  · exact ⟨r, by rw [hup, if_neg hne]; exact hr, hn, hc⟩
  · intro i t ht htp
    rw [hup] at ht
    split at ht
    · cases ht; simp [hp] at htp
    · exact hw.root_only i t ht htp
  · intro i t p ht htp
    rw [hup] at ht
    split at ht
    · rename_i hi
      cases ht
      subst hi
      exact hw.parent_older _ s p hs htp
    · exact hw.parent_older i t p ht htp
  · intro i t p ht htc htp hpne
    unfold Kept
    rw [hup]
    by_cases hpi : p = id
    · exact ⟨_, if_pos hpi, rfl⟩
    · rw [if_neg hpi]
      rw [hup] at ht
      split at ht
      · cases ht
        exact absurd (htp.symm.trans hp) hpne
      · exact hw.parent_kept i t p ht htc htp (by simpa using hpi)

/-- Once the pending scope is kept nothing is pending. -/
theorem Ordered.settle (hw : Ordered (some id) env) (hk : env.Kept id) : env.WellFormed where
  root := hw.root
  root_only := hw.root_only
  parent_older := hw.parent_older
  parent_kept := by
    intro i t p ht hc hp _
    by_cases hpi : p = id
    · subst hpi; exact hk
    · exact hw.parent_kept i t p ht hc hp (by simpa using hpi)

theorem Ordered.pend (hw : env.WellFormed) (id : ScopeId) : Ordered (some id) env where
  root := hw.root
  root_only := hw.root_only
  parent_older := hw.parent_older
  parent_kept i t p ht hc hp _ := hw.parent_kept i t p ht hc hp (by simp)

theorem preserves_update (f : Scope → Scope)
    (hf : ∀ s, P s → (f s).parent = s.parent ∧ P (f s)) : Preserves P env (env.update id f) := by
  intro i t ht h
  rw [scope?_update]
  split
  · exact ⟨f t, by simp [ht], hf t h⟩
  · exact ⟨t, ht, rfl, h⟩

/-- The walk of a capture: it goes outward along an anchored chain, with one scope pending, until
it meets a scope that is captured already. -/
theorem captureWithin_wellFormed {bound : Nat} (hw : Ordered (some id) env)
    (ha : env.Anchored id) (hb : id < bound) :
    (captureWithin bound env id).WellFormed ∧ (captureWithin bound env id).Kept id := by
  induction bound generalizing env id with
  | zero => exact absurd hb (Nat.not_lt_zero id)
  | succ bound ih =>
    obtain ⟨s, hs⟩ := ha.live
    unfold captureWithin
    simp only [hs]
    split
    · rename_i hc
      exact ⟨hw.settle ⟨s, hs, hc⟩, s, hs, hc⟩
    · rename_i hc
      cases hp : s.parent with
      | none =>
        have hid := hw.root_only id s hs hp
        subst hid
        obtain ⟨r, hr, _, hrc⟩ := hw.root
        rw [hs] at hr
        cases hr
        exact absurd hrc hc
      | some p =>
        have hlt := hw.parent_older id s p hs hp
        have hpa : (env.update id fun s => { s with captured := true }).Anchored p :=
          (ha.outward hs hp).preserved (preserves_update _ fun s _ => ⟨rfl, trivial⟩)
        obtain ⟨hw', hk'⟩ := ih (hw.mark hs hp) hpa
          (Nat.lt_of_lt_of_le hlt (Nat.le_of_lt_succ hb))
        refine ⟨hw', ?_⟩
        obtain ⟨_, mark, hmark⟩ := scope?_captureWithin bound
          (env.update id fun s => { s with captured := true }) p
        refine ⟨marked (mark id) { s with captured := true }, ?_, by simp [marked]⟩
        rw [hmark, scope?_update]
        simp [hs]

theorem wellFormed_capture (hw : env.WellFormed) (ha : env.Anchored id) :
    (env.capture id).WellFormed :=
  (captureWithin_wellFormed (hw.pend id) ha (Nat.lt_succ_self id)).1

theorem kept_capture (hw : env.WellFormed) (ha : env.Anchored id) : (env.capture id).Kept id :=
  (captureWithin_wellFormed (hw.pend id) ha (Nat.lt_succ_self id)).2

theorem lookup_set (h : env.scope? id = some s) (name : String) (value : Datum) :
    (env.set id name value).lookup id name = some value := by
  simp [lookup, lookupWithin, scope?_set, h, Bindings.get?_set]

/-- A name that is not found from an anchored scope is bound nowhere from there outward. -/
theorem chain_of_lookupWithin {bound : Nat} {name : String} (hw : env.WellFormed)
    (ha : env.Anchored id) (hb : id < bound) (hn : env.lookupWithin name bound id = none) :
    Chain env (fun s => Bindings.get? name s.bindings = none) id := by
  induction bound generalizing id with
  | zero => exact absurd hb (Nat.not_lt_zero id)
  | succ bound ih =>
    obtain ⟨s, hs⟩ := ha.live
    simp only [lookupWithin, hs] at hn
    split at hn
    · cases hn
    · rename_i hget
      cases hp : s.parent with
      | none =>
        have hid := hw.root_only id s hs hp
        subst hid
        exact .root hs hp hget
      | some p =>
        have hlt := hw.parent_older id s p hs hp
        rw [hp] at hn
        exact .link hs hp hget (ih (ha.outward hs hp)
          (Nat.lt_of_lt_of_le hlt (Nat.le_of_lt_succ hb)) hn)

theorem chain_of_lookup {name : String} (hw : env.WellFormed) (ha : env.Anchored id)
    (hn : env.lookup id name = none) :
    Chain env (fun s => Bindings.get? name s.bindings = none) id :=
  chain_of_lookupWithin hw ha (Nat.lt_succ_self id) hn

end Environment

end TableLisp

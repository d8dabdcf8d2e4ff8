import TableLisp.Proofs.Scopes.Chain

/-! How two environments compare. A frame says what an evaluation leaves alone in the scopes that
it found; `Within` says that one environment is another less some released scopes; `Owns` says
that the scopes not captured are exactly those that running evaluations hold. -/

namespace TableLisp

namespace Environment

/-- Every scope of `env` lives on in `env'` with its parent, no mark is cleared, and only `s`
may have other bindings. -/
structure Frame (s : ScopeId) (env env' : Environment) : Prop where
  size_le : env.scopes.size ≤ env'.scopes.size
  lives : ∀ id t, env.scope? id = some t → ∃ t', env'.scope? id = some t' ∧
    t'.parent = t.parent ∧ (t.captured = true → t'.captured = true) ∧
    (id ≠ s → t'.bindings = t.bindings)

/-- As many scopes were created in both, and each that is live in `env` is the same in `whole`. -/
structure Within (env whole : Environment) : Prop where
  size_eq : env.scopes.size = whole.scopes.size
  same : ∀ id t, env.scope? id = some t → whole.scope? id = some t

/-- The scopes in `held` are live and different, and no other scope is live without being
captured. -/
structure Owns (held : List ScopeId) (env : Environment) : Prop where
  nodup : held.Nodup
  live : ∀ id ∈ held, ∃ t, env.scope? id = some t
  all : ∀ id t, env.scope? id = some t → t.captured = false → id ∈ held

/-- Those of the scopes that are live are captured, so a release leaves them alone. -/
def Spares (env : Environment) (ids : List ScopeId) : Prop :=
  ∀ id ∈ ids, ∀ u, env.scope? id = some u → u.captured = true

variable {env env' env'' whole : Environment} {s t id parent : ScopeId} {held : List ScopeId}

theorem Frame.refl (s : ScopeId) (env : Environment) : Frame s env env where
  size_le := Nat.le_refl _
  lives _ t ht := ⟨t, ht, rfl, fun h => h, fun _ => rfl⟩

/-- A later frame may be of another scope, if that one was not there at first. -/
theorem Frame.trans (h : Frame s env env') (h' : Frame t env' env'')
    (ht : t = s ∨ env.scopes.size ≤ t) : Frame s env env'' where
  size_le := Nat.le_trans h.size_le h'.size_le
  lives := by
    intro id u hu
    obtain ⟨u', hu', hp, hc, hb⟩ := h.lives id u hu
    obtain ⟨u'', hu'', hp', hc', hb'⟩ := h'.lives id u' hu'
    refine ⟨u'', hu'', hp'.trans hp, fun k => hc' (hc k), ?_⟩
    intro hne
    rcases ht with rfl | ht
    · exact (hb' hne).trans (hb hne)
    · have hlt := lt_size_of_live hu
      exact (hb' (Nat.ne_of_lt (Nat.lt_of_lt_of_le hlt ht))).trans (hb hne)

theorem Frame.kept (h : Frame s env env') (hk : env.Kept id) : env'.Kept id := by
  obtain ⟨u, hu, hc⟩ := hk
  obtain ⟨u', hu', _, hc', _⟩ := h.lives id u hu
  exact ⟨u', hu', hc' hc⟩

theorem Frame.anchored (h : Frame s env env') (ha : env.Anchored id) : env'.Anchored id := by
  apply Chain.preserved ha
  intro i u hu _
  obtain ⟨u', hu', hp, _⟩ := h.lives i u hu
  exact ⟨u', hu', hp, trivial⟩

theorem frame_push (s : ScopeId) (env : Environment) (parent : ScopeId) (bs : Bindings) :
    Frame s env (env.push parent bs).2 where
  size_le := by simp
  lives := by
    intro i u hu
    refine ⟨u, ?_, rfl, fun h => h, fun _ => rfl⟩
    rw [scope?_push, if_neg (Nat.ne_of_lt (lt_size_of_live hu))]
    exact hu

theorem frame_set (s : ScopeId) (env : Environment) (name : String) (value : Datum) :
    Frame s env (env.set s name value) where
  size_le := by simp
  lives := by
    intro i u hu
    rw [scope?_set]
    by_cases hi : i = s
    · rw [if_pos hi, hu]
      exact ⟨_, rfl, rfl, fun h => h, fun h => absurd hi h⟩
    · rw [if_neg hi, hu]
      exact ⟨_, rfl, rfl, fun h => h, fun _ => rfl⟩

theorem frame_capture (s : ScopeId) (env : Environment) (id : ScopeId) :
    Frame s env (env.capture id) where
  size_le := by simp
  lives := by
    intro i u hu
    obtain ⟨mark, hmark⟩ := scope?_capture env id
    refine ⟨marked (mark i) u, by simp [hmark, hu], rfl, ?_, fun _ => rfl⟩
    intro hc
    simp [marked, hc]

theorem spares_of_new {ids : List ScopeId} (h : ∀ id ∈ ids, env.scopes.size ≤ id) :
    env.Spares ids := by
  intro id hid u hu
  exact absurd (lt_size_of_live hu) (Nat.not_lt.mpr (h id hid))

theorem Frame.release (h : Frame s env env')
    (hid : ∀ u, env.scope? id = some u → u.captured = true) : Frame s env (env'.release id) where
  size_le := by simpa using h.size_le
  lives := by
    intro i u hu
    obtain ⟨u', hu', hp, hc, hb⟩ := h.lives i u hu
    refine ⟨u', ?_, hp, hc, hb⟩
    rw [scope?_release]
    by_cases hi : i = id
    · subst hi
      rw [if_pos rfl]
      exact Option.filter_eq_some_iff.mpr ⟨hu', hc (hid u hu)⟩
    · rw [if_neg hi]
      exact hu'

theorem Within.refl (env : Environment) : Within env env := ⟨rfl, fun _ _ h => h⟩

theorem Within.push (h : Within env whole) (parent : ScopeId) (bs : Bindings) :
    (env.push parent bs).1 = (whole.push parent bs).1 ∧
      Within (env.push parent bs).2 (whole.push parent bs).2 := by
  refine ⟨h.size_eq, by simp [h.size_eq], ?_⟩
  intro i u hu
  rw [scope?_push] at hu ⊢
  rw [h.size_eq] at hu
  split at hu
  · rename_i hi
    rw [if_pos hi]
    exact hu
  · rename_i hi
    rw [if_neg hi]
    exact h.same i u hu

theorem Within.update (h : Within env whole) (id : ScopeId) (f : Scope → Scope) :
    Within (env.update id f) (whole.update id f) where
  size_eq := by simpa using h.size_eq
  same := by
    intro i u hu
    rw [scope?_update] at hu ⊢
    split at hu
    · rename_i hi
      obtain ⟨u₀, hu₀, rfl⟩ := Option.map_eq_some_iff.mp hu
      rw [if_pos hi, h.same i u₀ hu₀]
      rfl
    · rename_i hi
      rw [if_neg hi]
      exact h.same i u hu

theorem Within.set (h : Within env whole) (id : ScopeId) (name : String) (value : Datum) :
    Within (env.set id name value) (whole.set id name value) := h.update id _

theorem Within.release (h : Within env whole) (id : ScopeId) : Within (env.release id) whole where
  size_eq := by simpa using h.size_eq
  same := by
    intro i u hu
    rw [scope?_release] at hu
    split at hu
    · exact h.same i u (Option.filter_eq_some_iff.mp hu).1
    · exact h.same i u hu

theorem Within.lookupWithin (h : Within env whole) (name : String) {bound : Nat}
    (ha : env.Anchored id) :
    env.lookupWithin name bound id = whole.lookupWithin name bound id := by
  induction bound generalizing id with
  | zero => rfl
  | succ bound ih =>
    obtain ⟨u, hu⟩ := ha.live
    simp only [Environment.lookupWithin, hu, h.same id u hu]
    cases hp : u.parent with
    | none => rfl
    | some p => simp only [ih (ha.outward hu hp)]

theorem Within.lookup (h : Within env whole) (ha : env.Anchored id) (name : String) :
    env.lookup id name = whole.lookup id name := h.lookupWithin name ha

theorem Within.captureWithin (h : Within env whole) {bound : Nat} (ha : env.Anchored id) :
    Within (captureWithin bound env id) (captureWithin bound whole id) := by
  induction bound generalizing env whole id with
  | zero => exact h
  | succ bound ih =>
    obtain ⟨u, hu⟩ := ha.live
    simp only [Environment.captureWithin, hu, h.same id u hu]
    split
    · exact h
    · cases hp : u.parent with
      | none => exact h.update ..
      | some p =>
        apply ih (h.update ..)
        exact (ha.outward hu hp).preserved (preserves_update _ fun _ _ => ⟨rfl, trivial⟩)

theorem Within.capture (h : Within env whole) (ha : env.Anchored id) :
    Within (env.capture id) (whole.capture id) := h.captureWithin ha

theorem Owns.kept (h : Owns [] env) {u : Scope} (hu : env.scope? id = some u) : env.Kept id := by
  refine ⟨u, hu, ?_⟩
  cases hc : u.captured with
  | true => rfl
  | false => exact absurd (h.all id u hu hc) (by simp)

theorem Owns.push (h : Owns held env) (parent : ScopeId) (bs : Bindings) :
    Owns (env.scopes.size :: held) (env.push parent bs).2 where
  nodup := by
    refine List.nodup_cons.mpr ⟨?_, h.nodup⟩
    intro hm
    obtain ⟨u, hu⟩ := h.live _ hm
    exact Nat.lt_irrefl _ (lt_size_of_live hu)
  live := by
    intro i hi
    rw [scope?_push]
    split
    · exact ⟨_, rfl⟩
    · rename_i hne
      rcases List.mem_cons.mp hi with hi | hi
      · exact absurd hi hne
      · exact h.live i hi
  all := by
    intro i u hu hc
    rw [scope?_push] at hu
    split at hu
    · rename_i hi
      exact List.mem_cons.mpr (.inl hi)
    · exact List.mem_cons_of_mem _ (h.all i u hu hc)

/-- A change that neither ends scopes nor clears marks. -/
theorem Owns.frame (h : Owns held env) (hf : Frame s env env')
    (hback : ∀ i u', env'.scope? i = some u' → u'.captured = false →
      ∃ u, env.scope? i = some u ∧ u.captured = false) : Owns held env' where
  nodup := h.nodup
  live := by
    intro i hi
    obtain ⟨u, hu⟩ := h.live i hi
    obtain ⟨u', hu', _⟩ := hf.lives i u hu
    exact ⟨u', hu'⟩
  all := by
    intro i u' hu' hc'
    obtain ⟨u, hu, hc⟩ := hback i u' hu' hc'
    exact h.all i u hu hc

theorem Owns.set (h : Owns held env) (id : ScopeId) (name : String) (value : Datum) :
    Owns held (env.set id name value) := by
  apply h.frame (frame_set id env name value)
  intro i u' hu' hc'
  rw [scope?_set] at hu'
  split at hu'
  · obtain ⟨u, hu, rfl⟩ := Option.map_eq_some_iff.mp hu'
    exact ⟨u, hu, hc'⟩
  · exact ⟨u', hu', hc'⟩

theorem Owns.capture (h : Owns held env) (id : ScopeId) : Owns held (env.capture id) := by
  apply h.frame (frame_capture id env id)
  intro i u' hu' hc'
  obtain ⟨mark, hmark⟩ := scope?_capture env id
  rw [hmark] at hu'
  obtain ⟨u, hu, rfl⟩ := Option.map_eq_some_iff.mp hu'
  simp only [marked, Bool.or_eq_false_iff] at hc'
  exact ⟨u, hu, hc'.1⟩

theorem Owns.release (h : Owns (id :: held) env) : Owns held (env.release id) where
  nodup := (List.nodup_cons.mp h.nodup).2
  live := by
    intro i hi
    have hne : i ≠ id := by
      rintro rfl
      exact (List.nodup_cons.mp h.nodup).1 hi
    rw [scope?_release, if_neg hne]
    exact h.live i (List.mem_cons_of_mem _ hi)
  all := by
    intro i u hu hc
    rw [scope?_release] at hu
    split at hu
    · have hkept := (Option.filter_eq_some_iff.mp hu).2
      rw [hc] at hkept
      cases hkept
    · rename_i hne
      exact (List.mem_cons.mp (h.all i u hu hc)).resolve_left hne

theorem Owns.perm {held' : List ScopeId} (h : Owns held env) (hp : held.Perm held') :
    Owns held' env where
  nodup := hp.nodup_iff.mp h.nodup
  live i hi := h.live i (hp.mem_iff.mpr hi)
  all i u hu hc := hp.mem_iff.mp (h.all i u hu hc)

end Environment

end TableLisp

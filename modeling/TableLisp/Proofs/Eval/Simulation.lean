import TableLisp.Proofs.Eval.Fuel
import TableLisp.Proofs.Eval.Sound

/-! The rules of the evaluator beside those of the plain interpreter. `Follows` relates a run with
its record to a plain run: the record is safe, both end alike, and of the scopes that were there at
first the run changes the bindings of one at most. Each rule is shown to follow its plain
counterpart whenever the evaluations nested in it do. -/

namespace TableLisp

open Environment (Holds)

/-- Where a run and a plain one may evaluate a form in `scope`. -/
structure Ready (held : List ScopeId) (scope : ScopeId) (m n : Machine) : Prop where
  sound : m.Sound held
  within : m.Within n
  anchored : m.env.Anchored scope

/-- Where a run and a plain one stand that began with the scopes of `base` and worked in `s`. -/
structure Ends (s : ScopeId) (base : Environment) (held : List ScopeId) (m n : Machine) :
    Prop where
  sound : m.Sound held
  within : m.Within n
  frame : base.Frame s m.env

/-- A run from `start` on goes as a plain one does, and `V` holds of its value. -/
inductive Follows {α : Type} (s : ScopeId) (base : Environment) (held : List ScopeId)
    (start : Environment) (V : Environment → α → Prop) : Traced α → Outcome α → Prop where
  | done {log : Log} {value : α} {m n : Machine} : start.Safe log → m.env = start.replay log →
      Ends s base held m n → V m.env value →
      Follows s base held start V ⟨log, .done value m⟩ (.done value n)
  | failed {log : Log} {e : Error} {m n : Machine} : start.Safe log → m.env = start.replay log →
      Ends s base held m n → Follows s base held start V ⟨log, .failed e m⟩ (.failed e n)
  | brokeOff {log : Log} {need : Need} : start.Safe log →
      Follows s base held start V ⟨log, .brokeOff need⟩ (.brokeOff need)

section

variable {α β : Type} {s scope : ScopeId} {base base' start : Environment} {held : List ScopeId}
variable {V : Environment → α → Prop} {W : Environment → β → Prop}
variable {t : Traced α} {p : Outcome α} {m n m' n' : Machine} {value : Datum} {log : Log}

theorem Ready.ends (h : Ready held scope m n) : Ends scope m.env held m n :=
  ⟨h.sound, h.within, .refl scope m.env⟩

theorem Ready.next (h : Ready held scope m n) (he : Ends scope m.env held m' n') :
    Ready held scope m' n' :=
  ⟨he.sound, he.within, he.frame.anchored h.anchored⟩

theorem Ends.set (h : Ends s base held m n) (hv : m.env.Holds value) (name : String) :
    Ends s base held (Eval.setIn s name value m) (Eval.setIn s name value n) where
  sound := h.sound.set hv
  within := h.within.setEnv (h.within.env.set s name value)
  frame := h.frame.trans (Environment.frame_set s m.env name value) (.inl rfl)

theorem Follows.safe (h : Follows s base held start V t p) : start.Safe t.log := by
  cases h with
  | done hs _ _ _ => exact hs
  | failed hs _ _ => exact hs
  | brokeOff hs => exact hs

theorem Follows.of_done {v : α} (h : Follows s base held start V t p)
    (ho : t.outcome = .done v m) :
    m.env = start.replay t.log ∧ V m.env v ∧ ∃ n, p = .done v n ∧ Ends s base held m n := by
  cases h with
  | done _ hm he hv => cases ho; exact ⟨hm, hv, _, rfl, he⟩
  | failed _ _ _ => cases ho
  | brokeOff _ => cases ho

theorem Follows.of_failed {e : Error} (h : Follows s base held start V t p)
    (ho : t.outcome = .failed e m) :
    m.env = start.replay t.log ∧ ∃ n, p = .failed e n ∧ Ends s base held m n := by
  cases h with
  | done _ _ _ _ => cases ho
  | failed _ hm he => cases ho; exact ⟨hm, _, rfl, he⟩
  | brokeOff _ => cases ho

theorem Follows.return {v : α} (he : Ends s base held m n) (hv : V m.env v) :
    Follows s base held m.env V (Traced.done v m) (.done v n) := .done trivial rfl he hv

theorem Follows.fail {e : Error} (he : Ends s base held m n) :
    Follows s base held m.env V (Traced.failed e m) (.failed e n) := .failed trivial rfl he

theorem Follows.ofExcept {r : Except Error α} (he : Ends s base held m n)
    (hv : ∀ v, r = .ok v → V m.env v) :
    Follows s base held m.env V (Traced.ofExcept r m) (.ofExcept r n) := by
  cases r with
  | ok v => exact .return he (hv v rfl)
  | error e => exact .fail he

theorem Follows.after (hs : start.Safe log) (h : Follows s base held (start.replay log) V t p) :
    Follows s base held start V (t.after log) p := by
  have hsafe := Environment.safe_append.mpr ⟨hs, h.safe⟩
  cases h with
  | done _ hm he hv => exact .done hsafe (by rw [Environment.replay_append]; exact hm) he hv
  | failed _ hm he => exact .failed hsafe (by rw [Environment.replay_append]; exact hm) he
  | brokeOff _ => exact .brokeOff hsafe

theorem Follows.noting {op : ScopeOp} (ha : start.Admits (.use op))
    (h : Follows s base held (op.run start) V t p) :
    Follows s base held start V (t.noting op) p :=
  .after (show start.Safe [.use op] from ⟨ha, trivial⟩) h

/-- A run that began later, and worked in the same scope or in one that was not there yet. -/
theorem Follows.rebase {s' : ScopeId} (h : Follows s' base' held start V t p)
    (hf : base.Frame s base') (hs : s' = s ∨ base.scopes.size ≤ s') :
    Follows s base held start V t p := by
  have hends : ∀ {m n}, Ends s' base' held m n → Ends s base held m n :=
    fun he => ⟨he.sound, he.within, hf.trans he.frame hs⟩
  cases h with
  | done hsafe hm he hv => exact .done hsafe hm (hends he) hv
  | failed hsafe hm he => exact .failed hsafe hm (hends he)
  | brokeOff hsafe => exact .brokeOff hsafe

theorem Follows.andThen {f : α → Machine → Traced β} {g : α → Machine → Outcome β}
    (h : Follows s base held start V t p)
    (hf : ∀ v m n, Ends s base held m n → V m.env v →
      Follows s base held m.env W (f v m) (g v n)) :
    Follows s base held start W (t.andThen f) (p.andThen g) := by
  cases h with
  | @done log v m n hsafe hm he hv => exact .after hsafe (hm ▸ hf v m n he hv)
  | failed hsafe hm he => exact .failed hsafe hm he
  | brokeOff hsafe => exact .brokeOff hsafe

theorem Follows.releasing {t : Traced Datum} {p : Outcome Datum} {owned : List ScopeId}
    (h : Follows s base (owned ++ held) start Holds t p)
    (hnew : ∀ id ∈ owned, base.scopes.size ≤ id) :
    Follows s base held start Holds (t.releasing owned) p := by
  have hends : ∀ {m n}, Ends s base (owned ++ held) m n →
      Ends s base held { m with env := m.env.releaseAll owned } n :=
    fun he => ⟨he.sound.releaseAll, he.within.release owned,
      he.frame.releaseAll (Environment.spares_of_new hnew)⟩
  have hlog : ∀ {log} {m : Machine}, start.Safe log → m.env = start.replay log →
      start.Safe (log ++ owned.map fun id => .use (.release id)) ∧
        m.env.releaseAll owned =
          start.replay (log ++ owned.map fun id => .use (.release id)) := by
    intro log m hs hm
    rw [Environment.safe_append, Environment.replay_append, Environment.replay_releases, ← hm]
    exact ⟨⟨hs, Environment.safe_releases m.env owned⟩, rfl⟩
  cases h with
  | @done log v m n hsafe hm he hv =>
    exact .done (hlog hsafe hm).1 (hlog hsafe hm).2 (hends he)
      ((Environment.preserves_releaseAll m.env owned).holds hv)
  | failed hsafe hm he => exact .failed (hlog hsafe hm).1 (hlog hsafe hm).2 (hends he)
  | brokeOff hsafe => exact .brokeOff hsafe

end

/-- Evaluations in `scope` follow plain ones. -/
def Simulates (held : List ScopeId) (scope : ScopeId) (ev : Datum → Machine → Traced Datum)
    (ev₀ : Datum → Machine → Outcome Datum) : Prop :=
  ∀ ⦃form m n⦄, Ready held scope m n → m.env.Holds form →
    Follows scope m.env held m.env Holds (ev form m) (ev₀ form n)

namespace Simulates

variable {held : List ScopeId} {scope : ScopeId} {ev : Datum → Machine → Traced Datum}
variable {ev₀ : Datum → Machine → Outcome Datum} {m n : Machine}

theorem each (h : Simulates held scope ev ev₀) {forms : List Datum} (hr : Ready held scope m n)
    (hforms : ∀ x ∈ forms, m.env.Holds x) :
    Follows scope m.env held m.env (fun env values => ∀ v ∈ values, env.Holds v)
      (Traced.each ev forms m) (Eval.each ev₀ forms n) := by
  induction forms generalizing m n with
  | nil => exact .return hr.ends (by simp)
  | cons form more ih =>
    refine (h hr (hforms form (by simp))).andThen fun v m₁ n₁ he hv => ?_
    have hmore := ih (hr.next he) fun x hx => he.frame.holds (hforms x (by simp [hx]))
    refine Follows.rebase (hmore.andThen fun vs m₂ n₂ he₂ hvs => ?_) he.frame (.inl rfl)
    refine .return he₂ fun x hx => ?_
    rcases List.mem_cons.mp hx with rfl | hx
    · exact he₂.frame.holds hv
    · exact hvs x hx

theorem eachEntry (h : Simulates held scope ev ev₀) {entries : Entries}
    (hr : Ready held scope m n)
    (hentries : entries.EachClosure fun c => m.env.Kept c.scope) :
    Follows scope m.env held m.env (fun env es => es.EachClosure fun c => env.Kept c.scope)
      (Traced.eachEntry ev entries m) (Eval.eachEntry ev₀ entries n) := by
  induction entries generalizing m n with
  | nil => exact .return hr.ends Entries.eachClosure_nil
  | cons e more ih =>
    obtain ⟨k, v⟩ := e
    obtain ⟨⟨hk, hv⟩, hm⟩ := Entries.eachClosure_cons.mp hentries
    refine (h hr hk).andThen fun key m₁ n₁ he₁ hkey => ?_
    have hr₁ := hr.next he₁
    refine Follows.rebase ((h hr₁ (he₁.frame.holds hv)).andThen fun value m₂ n₂ he₂ hvalue => ?_)
      he₁.frame (.inl rfl)
    have hmore := ih (hr₁.next he₂) fun e hmem =>
      ⟨he₂.frame.holds (he₁.frame.holds (hm e hmem).1),
        he₂.frame.holds (he₁.frame.holds (hm e hmem).2)⟩
    refine Follows.rebase (hmore.andThen fun es m₃ n₃ he₃ hes => ?_) he₂.frame (.inl rfl)
    exact .return he₃ (Entries.eachClosure_cons.mpr
      ⟨⟨he₃.frame.holds (he₂.frame.holds hkey), he₃.frame.holds hvalue⟩, hes⟩)

theorem leading (h : Simulates held scope ev ev₀) {forms : List Datum} (hr : Ready held scope m n)
    (hforms : ∀ x ∈ forms, m.env.Holds x) :
    Follows scope m.env held m.env Holds (Traced.leading ev forms m)
      (Eval.leading ev₀ forms n) := by
  induction forms generalizing m n with
  | nil => exact .return hr.ends (by simp [Holds])
  | cons form more ih =>
    cases more with
    | nil => exact .return hr.ends (hforms form (by simp))
    | cons next more =>
      refine (h hr (hforms form (by simp))).andThen fun _ m₁ n₁ he _ => ?_
      exact (ih (hr.next he) fun x hx => he.frame.holds (hforms x (by simp [hx]))).rebase
        he.frame (.inl rfl)

theorem literal {ev₁ : Evaluator} (h : Simulates held scope ev (ev₁ scope)) {form : Datum}
    (hr : Ready held scope m n) (hform : m.env.Holds form) :
    Follows scope m.env held m.env Holds (Traced.literal ev scope form m)
      (Eval.literal ev₁ scope form n) := by
  cases form with
  | symbol x =>
    have hget : n.env.get scope x.name = m.env.get scope x.name := by
      simp only [Environment.get, hr.within.env.lookup hr.anchored]
    simp only [Traced.literal, Eval.literal, hget]
    refine .noting hr.anchored (.ofExcept hr.ends fun v hv => ?_)
    unfold Environment.get at hv
    split at hv <;> cases hv
    rename_i hl
    exact hr.sound.lookup hl
  | vector items =>
    refine (h.each hr (Datum.eachClosure_vector.mp hform)).andThen fun values m₁ n₁ he hvalues => ?_
    exact .return he (Datum.eachClosure_vector.mpr hvalues)
  | map entries =>
    refine (h.eachEntry hr (Datum.eachClosure_map.mp hform)).andThen fun pairs m₁ n₁ he hpairs => ?_
    rw [he.within.maps]
    exact .return he (Datum.eachClosure_ofPairs hpairs)
  | _ => exact .return hr.ends hform

theorem define {ev₁ : Evaluator} (h : Simulates held scope ev (ev₁ scope)) {operands : List Datum}
    (hr : Ready held scope m n) (hops : ∀ x ∈ operands, m.env.Holds x) :
    Follows scope m.env held m.env Holds (Traced.define ev scope operands m)
      (Eval.define ev₁ scope operands n) := by
  rcases operands with _ | ⟨target, _ | ⟨form, _ | ⟨x, more⟩⟩⟩
  case cons.cons.nil =>
    simp only [Traced.define, Eval.define]
    cases Eval.bindingName .define target with
    | error e => exact .fail hr.ends
    | ok name =>
      refine (h hr (hops form (by simp))).andThen fun value m₁ n₁ he hv => ?_
      have hset := Environment.frame_set scope m₁.env name value
      exact .noting (hr.next he).anchored (.return (he.set hv name) (hset.holds hv))
  all_goals exact .fail hr.ends

theorem bindPairs {ev₁ : Evaluator} (h : Simulates held scope ev (ev₁ scope)) {forms : List Datum}
    (hr : Ready held scope m n) (hforms : ∀ x ∈ forms, m.env.Holds x) :
    Follows scope m.env held m.env (fun _ _ => True) (Traced.bindPairs ev scope forms m)
      (Eval.bindPairs ev₁ scope forms n) := by
  fun_induction Eval.bindPairs ev₁ scope forms n generalizing m with
  | case1 target form more n e hname =>
    simp only [Traced.bindPairs, hname]
    exact .fail hr.ends
  | case2 target form more n name hname ih =>
    simp only [Traced.bindPairs, hname]
    refine (h hr (hforms form (by simp))).andThen fun value m₁ n₁ he hv => ?_
    have hset := he.set hv name
    refine .noting (hr.next he).anchored (Follows.rebase (ih value n₁ (hr.next hset) ?_)
      hset.frame (.inl rfl))
    exact fun x hx => hset.frame.holds (hforms x (by simp [hx]))
  | case3 forms n hne =>
    rcases forms with _ | ⟨x, _ | ⟨y, more⟩⟩
    · exact .return hr.ends trivial
    · exact .return hr.ends trivial
    · exact absurd rfl (hne x y more)

end Simulates

/-! Parts of forms hold no closure that the form does not hold. -/

section

variable {P : Closure Datum → Prop} {operands : List Datum}

theorem eachClosure_bindingForms {forms : List Datum} (h : ∀ x ∈ operands, x.EachClosure P)
    (hf : Eval.bindingForms operands = .ok forms) : ∀ x ∈ forms, x.EachClosure P := by
  have heven : ∀ {items}, Eval.evenForms items = .ok forms → items = forms := by
    intro items he
    unfold Eval.evenForms at he
    split at he <;> cases he
    rfl
  rcases operands with _ | ⟨bindings, more⟩
  · cases hf
  · have hb := h bindings (by simp)
    cases bindings with
    | vector items => exact heven hf ▸ Datum.eachClosure_vector.mp hb
    | list items => exact heven hf ▸ Datum.eachClosure_list.mp hb
    | _ => cases hf

theorem eachClosure_body (h : ∀ x ∈ operands, x.EachClosure P) :
    (Eval.body operands).EachClosure P := by
  rcases operands with _ | ⟨single, _ | ⟨x, more⟩⟩
  · exact Datum.eachClosure_nil
  · exact h single (by simp)
  · exact Datum.eachClosure_form.mpr h

theorem eachClosure_parseUnnamed {owner : SpecialForm} {name : Option String}
    {d : Eval.Definition} (h : ∀ x ∈ operands, x.EachClosure P)
    (hd : Eval.parseUnnamed owner name operands = .ok d) : d.body.EachClosure P := by
  unfold Eval.parseUnnamed at hd
  split at hd
  · obtain ⟨_, _, rfl⟩ := exists_of_map_ok hd
    exact eachClosure_body fun x hx => h x (by simp [hx])
  · obtain ⟨_, _, rfl⟩ := exists_of_map_ok hd
    exact eachClosure_body fun x hx => h x (by simp [hx])
  · cases hd

theorem eachClosure_parseDefinition {owner : SpecialForm} {d : Eval.Definition}
    (h : ∀ x ∈ operands, x.EachClosure P) (hd : Eval.parseDefinition owner operands = .ok d) :
    d.body.EachClosure P := by
  unfold Eval.parseDefinition at hd
  split at hd
  · split at hd
    · cases hd
    · exact eachClosure_parseUnnamed (fun x hx => h x (by simp [hx])) hd
  · exact eachClosure_parseUnnamed h hd

theorem eachClosure_parseAttempt {a : Eval.Attempt} (h : ∀ x ∈ operands, x.EachClosure P)
    (ha : Eval.parseAttempt operands = .ok a) :
    a.body.EachClosure P ∧ ∀ name form, a.handler = some (name, form) → form.EachClosure P := by
  have htried : (Eval.body (operands.takeWhile fun d => !d.isForm .handler)).EachClosure P :=
    eachClosure_body fun x hx => h x (List.takeWhile_prefix _ |>.subset hx)
  unfold Eval.parseAttempt at ha
  dsimp only at ha
  split at ha
  · cases ha
  · split at ha
    · rename_i clause more hc
      obtain ⟨⟨name, form⟩, hh, rfl⟩ := exists_of_map_ok ha
      refine ⟨htried, fun name' form' heq => ?_⟩
      cases heq
      have hclause : (Datum.list clause).EachClosure P :=
        h _ (List.dropWhile_suffix _ |>.subset (hc ▸ List.mem_cons_self))
      unfold Eval.parseHandler at hh
      split at hh
      · obtain ⟨_, _, heq⟩ := exists_of_map_ok hh
        cases heq
        exact eachClosure_body fun x hx => Datum.eachClosure_list.mp hclause x (by simp [hx])
      · cases hh
    · cases ha
      exact ⟨htried, fun name form heq => by cases heq⟩

end

section

variable {held : List ScopeId} {scope : ScopeId} {m n : Machine} {operands : List Datum}

theorem Simulates.enterLet {ev : Datum → Machine → Traced Datum} {ev₁ : Evaluator}
    (h : Simulates held scope ev (ev₁ scope)) (hr : Ready held scope m n)
    (hops : ∀ x ∈ operands, m.env.Holds x) :
    Follows scope m.env held m.env Holds (Traced.enterLet ev scope operands m)
      (Eval.enterLet ev₁ scope operands n) := by
  unfold Traced.enterLet Eval.enterLet
  cases hforms : Eval.bindingForms operands with
  | error e => exact .fail hr.ends
  | ok forms =>
    have hbind := h.bindPairs hr (eachClosure_bindingForms hops hforms)
    refine hbind.andThen fun _ m₁ n₁ he _ => ?_
    refine (h.leading (hr.next he) fun x hx => ?_).rebase he.frame (.inl rfl)
    exact he.frame.holds (hops x (List.mem_of_mem_drop hx))

theorem follows_close {isMacro : Bool} {d : Eval.Definition} (hr : Ready held scope m n)
    (hd : m.env.Holds d.body) :
    Follows scope m.env held m.env Holds (Traced.close scope isMacro d m)
      (Eval.close scope isMacro d n) := by
  obtain ⟨name, params, body⟩ := d
  have hframe := Environment.frame_capture scope m.env scope
  have hends : Ends scope m.env held
      { m with env := m.env.capture scope, closures := m.closures + 1 }
      { n with env := n.env.capture scope, closures := n.closures + 1 } :=
    ⟨hr.sound.capture hr.anchored _, ⟨hr.within.env.capture hr.anchored, hr.within.maps,
      hr.within.output, congrArg (· + 1) hr.within.closures⟩, hframe⟩
  have hvalue : (m.env.capture scope).Holds
      (.closure ⟨m.closures, name, params, body, scope, isMacro⟩) :=
    Datum.eachClosure_closure.mpr
      ⟨Environment.kept_capture hr.sound.wellFormed hr.anchored, hframe.holds hd⟩
  unfold Traced.close Eval.close
  have hlog : m.env.Safe [.use (.capture scope),
      .made ⟨m.closures, name, params, body, scope, isMacro⟩] :=
    ⟨hr.anchored, Environment.kept_capture hr.sound.wellFormed hr.anchored, trivial⟩
  simp only [hr.within.closures] at hends ⊢
  refine .after hlog ?_
  cases name with
  | none => exact .return hends hvalue
  | some name =>
    have hset := Environment.frame_set scope (m.env.capture scope) name
    exact .noting (hframe.anchored hr.anchored)
      (.return (hends.set hvalue name) ((hset _).holds hvalue))

theorem follows_lambda (hr : Ready held scope m n) (hops : ∀ x ∈ operands, m.env.Holds x) :
    Follows scope m.env held m.env Holds (Traced.lambda scope operands m)
      (Eval.lambda scope operands n) := by
  unfold Traced.lambda Eval.lambda
  cases hd : Eval.parseDefinition .lambda operands with
  | error e => exact .fail hr.ends
  | ok d => exact follows_close hr (eachClosure_parseDefinition hops hd)

theorem follows_defMacro (hr : Ready held scope m n) (hops : ∀ x ∈ operands, m.env.Holds x) :
    Follows scope m.env held m.env Holds (Traced.defMacro scope operands m)
      (Eval.defMacro scope operands n) := by
  rcases operands with _ | ⟨⟨⟩, more⟩
  case cons.symbol s =>
    simp only [Traced.defMacro, Eval.defMacro]
    cases hd : Eval.parseDefinition .defMacro (.symbol s :: more) with
    | error e => exact .fail hr.ends
    | ok d => exact follows_close hr (eachClosure_parseDefinition hops hd)
  all_goals exact .fail hr.ends

/-- A run and a plain one make a scope in another, and know it by the same number. -/
structure Enters (held : List ScopeId) (m m' n' : Machine) (parent call : ScopeId) : Prop where
  isNew : call = m.env.scopes.size
  made : ∃ s, m'.env.scope? call = some s ∧ s.parent = some parent
  ready : Ready (call :: held) call m' n'
  frame : ∀ s, m.env.Frame s m'.env

theorem enters_push (hs : m.Sound held) (hw : m.Within n) (ha : m.env.Anchored scope)
    {bs : Bindings} (hbs : ∀ b ∈ bs, m.env.Holds b.2) :
    (n.env.push scope bs).1 = m.env.scopes.size ∧
      Enters held m { m with env := (m.env.push scope bs).2 }
        { n with env := (n.env.push scope bs).2 } scope m.env.scopes.size := by
  obtain ⟨hsame, hwithin⟩ := hw.env.push scope bs
  obtain ⟨s, hlive⟩ := ha.live
  have hframe : ∀ t, m.env.Frame t (m.env.push scope bs).2 :=
    fun t => Environment.frame_push t m.env scope bs
  have hmade : (m.env.push scope bs).2.scope? m.env.scopes.size =
      some ⟨bs, some scope, false⟩ := by
    rw [Environment.scope?_push, if_pos rfl]
  refine ⟨hsame.symm, rfl, ⟨_, hmade, rfl⟩, ⟨hs.push hlive hbs, hw.setEnv hwithin, ?_⟩, hframe⟩
  exact .link hmade rfl trivial ((hframe scope).anchored ha)

theorem enters_child (hr : Ready held scope m n) :
    (n.env.child scope).1 = m.env.scopes.size ∧
      Enters held m { m with env := (m.env.child scope).2 }
        { n with env := (n.env.child scope).2 } scope m.env.scopes.size :=
  enters_push hr.sound hr.within hr.anchored (by simp)

/-- A call is refused in both runs, or both make the scope for it. -/
theorem enterCall_cases {c : Closure Datum} {args : List Datum} (hs : m.Sound held)
    (hw : m.Within n) (hc : m.env.Kept c.scope) (hargs : ∀ x ∈ args, m.env.Holds x) :
    (∃ e, Traced.enterCall c args m = Traced.noting (.bind c.scope c.params args) (.failed e m) ∧
        Eval.enterCall c args n = .failed e n ∧
        (ScopeOp.bind c.scope c.params args).run m.env = m.env) ∨
      ∃ m' n', Traced.enterCall c args m =
          Traced.noting (.bind c.scope c.params args) (.done m.env.scopes.size m') ∧
        Eval.enterCall c args n = .done m.env.scopes.size n' ∧
        (ScopeOp.bind c.scope c.params args).run m.env = m'.env ∧
        Enters held m m' n' c.scope m.env.scopes.size := by
  have hanchored := (hc.secured hs.wellFormed).anchored
  have hbs : ∀ b ∈ Environment.callBindings c.params args, m.env.Holds b.2 := by
    intro b hb
    rcases Environment.mem_callBindings hb with hb | hb
    · exact hargs _ hb
    · rw [hb]
      exact Datum.eachClosure_list.mpr fun x hx => hargs x (List.mem_of_mem_drop hx)
  obtain ⟨hnew, hent⟩ := enters_push hs hw hanchored hbs
  by_cases hok : c.params.accepts args.length = true
  · refine .inr ⟨{ m with env := (m.env.push c.scope (Environment.callBindings c.params args)).2 },
      { n with env := (n.env.push c.scope (Environment.callBindings c.params args)).2 },
      ?_, ?_, ?_, hent⟩
    · simp only [Traced.enterCall, Environment.checkCall, hok, if_true]
      rfl
    · simp only [Eval.enterCall, Environment.checkCall, hok, if_true]
      exact congrArg (Outcome.done · _) hnew
    · simp only [ScopeOp.run, hok, if_true]
      rfl
  · refine .inl ⟨.arguments (c.name.getD SpecialForm.lambda.name)
      (Environment.arityFault c.params args.length), ?_, ?_, ?_⟩
    · simp only [Traced.enterCall, Environment.checkCall, hok]
      rfl
    · simp only [Eval.enterCall, Environment.checkCall, hok]
      rfl
    · simp only [ScopeOp.run, hok]
      rfl

end

/-- Evaluations follow plain ones, whatever scopes are held meanwhile. -/
def Mirrors (tev : TracedEvaluator) (ev : Evaluator) : Prop :=
  ∀ frames scope, Simulates frames.flatten scope (tev frames scope) (ev scope)

section

variable {tev : TracedEvaluator} {ev : Evaluator} {frames : Frames} {scope : ScopeId}
variable {m n : Machine}

theorem Mirrors.applyClosure (h : Mirrors tev ev) {c : Closure Datum} {args : List Datum}
    (hr : Ready frames.flatten scope m n) (hc : m.env.Holds (.closure c))
    (hargs : ∀ x ∈ args, m.env.Holds x) :
    Follows scope m.env frames.flatten m.env Holds (Traced.applyClosure tev frames c args m)
      (Plain.callClosure ev c args n) := by
  obtain ⟨hkept, hbody⟩ := Datum.eachClosure_closure.mp hc
  have hbind : m.env.Admits (.use (.bind c.scope c.params args)) :=
    (hkept.secured hr.sound.wellFormed).anchored
  unfold Traced.applyClosure Plain.callClosure
  rcases enterCall_cases hr.sound hr.within hkept hargs with
    ⟨e, ht, hp, hrun⟩ | ⟨m', n', ht, hp, hrun, hent⟩
  · rw [ht, hp]
    exact .noting (t := .failed e m) hbind (by rw [hrun]; exact .fail hr.ends)
  · rw [ht, hp]
    have hcall := h ([m.env.scopes.size] :: frames) m.env.scopes.size hent.ready
      ((hent.frame scope).holds hbody)
    have hrebased := hcall.rebase (hent.frame scope) (.inr (Nat.le_refl _))
    have hnone : m'.env.Safe [] := trivial
    refine .noting hbind ?_
    rw [hrun]
    exact Follows.after hnone (Follows.releasing hrebased (by simp))

theorem macroCall?_eq (hr : Ready frames.flatten scope m n) (form : Datum) :
    Eval.macroCall? n.env scope form = Eval.macroCall? m.env scope form := by
  have hlookup := fun name => hr.within.env.lookup hr.anchored name
  unfold Eval.macroCall?
  split
  · rw [hlookup]
  · rfl

theorem holds_macroCall? {held : List ScopeId} {form : Datum} {c : Closure Datum}
    {operands : List Datum} (hs : m.Sound held) (hform : m.env.Holds form)
    (hcall : Eval.macroCall? m.env scope form = some (c, operands)) :
    m.env.Holds (.closure c) ∧ ∀ x ∈ operands, m.env.Holds x := by
  unfold Eval.macroCall? at hcall
  split at hcall
  · split at hcall
    · rename_i hl
      split at hcall <;> cases hcall
      exact ⟨hs.lookup hl, fun x hx => Datum.eachClosure_list.mp hform x (by simp [hx])⟩
    · cases hcall
  · cases hcall

theorem safe_macroUses {env : Environment} (ha : env.Anchored scope) (form : Datum) :
    env.Safe (Traced.macroUses scope form) ∧
      env.replay (Traced.macroUses scope form) = env := by
  unfold Traced.macroUses
  split
  · exact ⟨⟨ha, trivial⟩, rfl⟩
  · exact ⟨trivial, rfl⟩

theorem Mirrors.expandWithin (h : Mirrors tev ev) (frames : Frames) {limit left : Nat}
    {form : Datum}
    (hr : Ready frames.flatten scope m n) (hform : m.env.Holds form) :
    Follows scope m.env frames.flatten m.env Holds
      (Traced.expandWithin tev frames scope limit left form m)
      (Plain.expandWithin ev scope limit left form n) := by
  induction left generalizing form m n with
  | zero =>
    obtain ⟨hsafe, hsame⟩ := safe_macroUses hr.anchored form
    unfold Traced.expandWithin Plain.expandWithin
    rw [macroCall?_eq hr]
    refine .after hsafe ?_
    rw [hsame]
    cases Eval.macroCall? m.env scope form with
    | none => exact .return hr.ends hform
    | some call => exact .fail hr.ends
  | succ left ih =>
    obtain ⟨hsafe, hsame⟩ := safe_macroUses hr.anchored form
    unfold Traced.expandWithin Plain.expandWithin
    rw [macroCall?_eq hr]
    refine .after hsafe ?_
    rw [hsame]
    cases hcall : Eval.macroCall? m.env scope form with
    | none => exact .return hr.ends hform
    | some call =>
      obtain ⟨c, operands⟩ := call
      obtain ⟨hc, hops⟩ := holds_macroCall? hr.sound hform hcall
      refine (h.applyClosure hr hc hops).andThen fun form m₁ n₁ he hv => ?_
      exact (ih (hr.next he) hv).rebase he.frame (.inl rfl)

theorem follows_primitive {held : List ScopeId} {host : Host} {p : Primitive} {args : List Datum}
    (hr : Ready held scope m n) (hargs : ∀ x ∈ args, m.env.Holds x) :
    Follows scope m.env held m.env Holds ⟨[], p.apply host args m⟩ (p.apply host args n) := by
  obtain ⟨env, rfl⟩ : ∃ env, n = { m with env := env } := by
    refine ⟨n.env, ?_⟩
    cases n
    simp only [Machine.mk.injEq, true_and]
    exact ⟨hr.within.maps, hr.within.output, hr.within.closures⟩
  have hsafe : m.env.Safe [] := trivial
  rw [Primitive.apply_env host p args m env]
  cases hp : p.apply host args m with
  | brokeOff need => exact .brokeOff hsafe
  | failed e after =>
    have hafter := Primitive.apply_failed hp
    subst hafter
    exact .failed hsafe rfl hr.ends
  | done value after =>
    obtain ⟨hvalue, henv, hmaps⟩ := Primitive.apply_done hp hargs hr.sound.tables
    refine .done hsafe henv ⟨?_, ⟨?_, rfl, rfl, rfl⟩, ?_⟩ ?_
    · refine ⟨?_, ?_, ?_, ?_⟩ <;> rw [henv]
      · exact hr.sound.wellFormed
      · exact hr.sound.owns
      · exact hr.sound.bindings
      · exact hmaps
    · rw [henv]; exact hr.within.env
    · rw [henv]; exact .refl scope _
    · rw [henv]; exact hvalue

end

/-- Where a loop and a plain run begin a turn. The loop began with the scopes of `base` and a form
in `s`; the scopes it owns are newer, and so is the scope of the turn unless that is `s` still. -/
structure AtTurn (s : ScopeId) (base : Environment) (outer : List ScopeId) (scope : ScopeId)
    (owned : List ScopeId) (m n : Machine) : Prop where
  ready : Ready (owned ++ outer) scope m n
  frame : base.Frame s m.env
  near : scope = s ∨ base.scopes.size ≤ scope
  isNew : ∀ id ∈ owned, base.scopes.size ≤ id

/-- A turn goes as a plain run does: it answers as that does, or it leads to a form that the plain
run evaluates next. -/
inductive TurnFollows (s : ScopeId) (base : Environment) (outer : List ScopeId)
    (start : Environment) (ev : Evaluator) : TracedTurn → Outcome Datum → Prop where
  | answer {log : Log} {o p : Outcome Datum} {owned : List ScopeId} :
      Follows s base (owned ++ outer) start Holds ⟨log, o⟩ p →
      (∀ id ∈ owned, base.scopes.size ≤ id) →
      TurnFollows s base outer start ev ⟨log, .answer o owned⟩ p
  | onward {log : Log} {form : Datum} {scope : ScopeId} {owned : List ScopeId} {m n : Machine} :
      start.Safe log → m.env = start.replay log → AtTurn s base outer scope owned m n →
      m.env.Holds form →
      TurnFollows s base outer start ev ⟨log, .onward form scope owned m⟩ (ev scope form n)

section

variable {α : Type} {s scope : ScopeId} {base start : Environment} {outer owned : List ScopeId}
variable {tev : TracedEvaluator} {ev : Evaluator} {frames : Frames} {m n m' n' : Machine}
variable {t : TracedTurn} {p : Outcome Datum} {log : Log} {operands : List Datum}

theorem TurnFollows.after (hs : start.Safe log)
    (h : TurnFollows s base outer (start.replay log) ev t p) :
    TurnFollows s base outer start ev (t.after log) p := by
  cases h with
  | answer h hnew => exact .answer (.after hs h) hnew
  | onward hsafe hm hat hform =>
    exact .onward (Environment.safe_append.mpr ⟨hs, hsafe⟩)
      (by rw [Environment.replay_append]; exact hm) hat hform

/-- A run in the scope of the turn, told from where the loop began. -/
theorem AtTurn.follows {V : Environment → α → Prop} {t : Traced α} {p : Outcome α}
    (h : AtTurn s base outer scope owned m n)
    (hf : Follows scope m.env (owned ++ outer) m.env V t p) :
    Follows s base (owned ++ outer) m.env V t p := hf.rebase h.frame h.near

theorem AtTurn.answer {t : Traced Datum} (h : AtTurn s base outer scope owned m n)
    (hf : Follows scope m.env (owned ++ outer) m.env Holds t p) :
    TurnFollows s base outer m.env ev (.answer t owned) p := .answer (h.follows hf) h.isNew

theorem AtTurn.onward {form : Datum} (h : AtTurn s base outer scope owned m n)
    (hform : m.env.Holds form) :
    TurnFollows s base outer m.env ev (.onward form scope owned m) (ev scope form n) :=
  .onward trivial rfl h hform

/-- Takes the turn that a run in the scope of the turn leads to. -/
theorem AtTurn.orAnswer {V : Environment → α → Prop} {t : Traced α} {p : Outcome α}
    {f : α → Machine → TracedTurn} {g : α → Machine → Outcome Datum}
    (h : AtTurn s base outer scope owned m n)
    (hf : Follows scope m.env (owned ++ outer) m.env V t p)
    (hg : ∀ v m' n', AtTurn s base outer scope owned m' n' → m.env.Frame scope m'.env →
      V m'.env v → TurnFollows s base outer m'.env ev (f v m') (g v n')) :
    TurnFollows s base outer m.env ev (.orAnswer t owned f) (p.andThen g) := by
  cases hf with
  | @done log v m' n' hsafe hm he hv =>
    have hat : AtTurn s base outer scope owned m' n' :=
      ⟨h.ready.next he, h.frame.trans he.frame h.near, h.near, h.isNew⟩
    exact .after hsafe (hm ▸ hg v m' n' hat he.frame hv)
  | failed hsafe hm he => exact .answer (h.follows (.failed hsafe hm he)) h.isNew
  | brokeOff hsafe => exact .answer (.brokeOff hsafe) h.isNew

/-- The loop goes on in a scope that it has just made and owns. -/
theorem AtTurn.enter {parent call : ScopeId} (h : AtTurn s base outer scope owned m n)
    (he : Enters (owned ++ outer) m m' n' parent call) :
    AtTurn s base outer call (owned ++ [call]) m' n' := by
  have hcall : base.scopes.size ≤ call := he.isNew ▸ h.frame.size_le
  refine ⟨⟨he.ready.sound.perm ?_, he.ready.within, he.ready.anchored⟩,
    h.frame.trans (he.frame s) (.inl rfl), .inr hcall, ?_⟩
  · rw [List.append_assoc]
    exact List.perm_middle.symm
  · intro id hid
    rcases List.mem_append.mp hid with hid | hid
    · exact h.isNew id hid
    · rw [List.mem_singleton.mp hid]; exact hcall

theorem follows_turnLet (hev : Mirrors tev ev)
    (h : AtTurn s base frames.flatten scope owned m n) (hops : ∀ x ∈ operands, m.env.Holds x) :
    TurnFollows s base frames.flatten m.env ev (.turnLet tev frames operands scope owned m)
      (Plain.letStar ev scope operands n) := by
  obtain ⟨hsame, hent⟩ := enters_child h.ready
  have hat := h.enter hent
  have hsafe : m.env.Safe [.use (.child scope)] := ⟨h.ready.anchored, trivial⟩
  rw [Plain.letStar_eq, hsame]
  refine .after hsafe (hat.orAnswer ?_ fun form m₂ n₂ hat₂ _ hform => hat₂.onward hform)
  refine (hev ((owned ++ [m.env.scopes.size]) :: frames) _).enterLet hat.ready fun x hx => ?_
  exact (hent.frame scope).holds (hops x hx)

theorem follows_turnBranch {tev : Datum → Machine → Traced Datum}
    (hev : Simulates (owned ++ outer) scope tev (ev scope))
    (h : AtTurn s base outer scope owned m n) (hops : ∀ x ∈ operands, m.env.Holds x) :
    TurnFollows s base outer m.env ev (.turnBranch tev operands scope owned m)
      (Plain.branch ev scope operands n) := by
  have choose : ∀ test yes no : Datum, m.env.Holds test → m.env.Holds yes → m.env.Holds no →
      TurnFollows s base outer m.env ev
        (.orAnswer (tev test m) owned fun value m =>
          .onward (if value.isTruthy then yes else no) scope owned m)
        ((ev scope test n).andThen fun value n =>
          ev scope (if value.isTruthy then yes else no) n) := by
    intro test yes no htest hyes hno
    refine h.orAnswer (hev h.ready htest) fun value m₁ n₁ hat hframe _ => hat.onward ?_
    split
    · exact hframe.holds hyes
    · exact hframe.holds hno
  rcases operands with _ | ⟨test, _ | ⟨yes, _ | ⟨no, _ | ⟨x, more⟩⟩⟩⟩
  · exact h.answer (.fail h.ready.ends)
  · exact h.answer (.fail h.ready.ends)
  · exact choose test yes .nil (hops test (by simp)) (hops yes (by simp)) Datum.eachClosure_nil
  · exact choose test yes no (hops test (by simp)) (hops yes (by simp)) (hops no (by simp))
  · exact h.answer (.fail h.ready.ends)

theorem follows_turnAttempt {tev : Datum → Machine → Traced Datum}
    (hev : Simulates (owned ++ outer) scope tev (ev scope))
    (h : AtTurn s base outer scope owned m n) (hops : ∀ x ∈ operands, m.env.Holds x) :
    TurnFollows s base outer m.env ev (.turnAttempt tev operands scope owned m)
      (Plain.attempt ev scope operands n) := by
  unfold TracedTurn.turnAttempt Plain.attempt
  cases hparse : Eval.parseAttempt operands with
  | error e => exact h.answer (.fail h.ready.ends)
  | ok attempt =>
    obtain ⟨hbody, hhandler⟩ := eachClosure_parseAttempt hops hparse
    have htried := hev h.ready hbody
    dsimp only
    generalize tev attempt.body m = tried at htried ⊢
    generalize ev scope attempt.body n = plain at htried ⊢
    cases htried with
    | done hsafe hm he hv => exact .answer (h.follows (.done hsafe hm he hv)) h.isNew
    | brokeOff hsafe => exact .answer (.brokeOff hsafe) h.isNew
    | @failed log e m₁ n₁ hsafe hm he =>
      cases hcase : attempt.handler with
      | none => exact .answer (h.follows (.failed hsafe hm he)) h.isNew
      | some handler =>
        obtain ⟨name, form⟩ := handler
        have hform := he.frame.holds (hhandler name form hcase)
        have hat : AtTurn s base outer scope owned m₁ n₁ :=
          ⟨h.ready.next he, h.frame.trans he.frame h.near, h.near, h.isNew⟩
        obtain ⟨hsame, hent⟩ := enters_child hat.ready
        have hin := hat.enter hent
        have hmessage : (m₁.env.child scope).2.Holds (.string e.message) := by simp [Holds]
        have hset := hin.ready.ends.set hmessage name
        have hat' : AtTurn s base outer m₁.env.scopes.size (owned ++ [m₁.env.scopes.size]) _ _ :=
          ⟨hin.ready.next hset, hin.frame.trans hset.frame hin.near, hin.near, hin.isNew⟩
        have hlog : m.env.Safe (log ++ [.use (.child scope),
            .use (.set m₁.env.scopes.size name (.string e.message))]) := by
          refine Environment.safe_append.mpr ⟨hsafe, ?_, ?_, trivial⟩
          · rw [← hm]; exact hat.ready.anchored
          · rw [← hm]; exact hin.ready.anchored
        dsimp only
        rw [hsame]
        refine .after hlog ?_
        rw [Environment.replay_append, ← hm]
        exact hat'.onward (hset.frame.holds ((hent.frame scope).holds hform))

theorem follows_turnSpecial (hev : Mirrors tev ev) {host : Host} {head : SpecialForm}
    (h : AtTurn s base frames.flatten scope owned m n) (hops : ∀ x ∈ operands, m.env.Holds x) :
    TurnFollows s base frames.flatten m.env ev
      (.turnSpecial host tev frames head operands scope owned m)
      (Plain.special host ev head operands scope n) := by
  have hin := hev (owned :: frames) scope
  have hfail : ∀ e, TurnFollows s base frames.flatten m.env ev (.answer (.failed e m) owned)
      (.failed e n) := fun e => h.answer (.fail h.ready.ends)
  cases head with
  | define => exact h.answer (hin.define h.ready hops)
  | letStar => exact follows_turnLet hev h hops
  | sequence =>
    simp only [Plain.special, Plain.sequence_eq]
    exact h.orAnswer (hin.leading h.ready hops) fun form m₁ n₁ hat _ hform => hat.onward hform
  | branch => exact follows_turnBranch hin h hops
  | lambda => exact h.answer (follows_lambda h.ready hops)
  | quote =>
    rcases operands with _ | ⟨x, _ | ⟨y, more⟩⟩
    · exact hfail _
    · exact h.answer (.return h.ready.ends (hops x (by simp)))
    · exact hfail _
  | quasiquote =>
    rcases operands with _ | ⟨x, _ | ⟨y, more⟩⟩
    · exact hfail _
    · refine h.orAnswer (.ofExcept h.ready.ends fun built hb => ?_)
        fun form m₁ n₁ hat _ hform => hat.onward hform
      exact Template.eachClosure_expand (hops x (by simp)) hb
    · exact hfail _
  | quasiquoteExpand =>
    rcases operands with _ | ⟨x, _ | ⟨y, more⟩⟩
    · exact hfail _
    · refine h.answer (.ofExcept h.ready.ends fun built hb => ?_)
      exact Template.eachClosure_expand (hops x (by simp)) hb
    · exact hfail _
  | macroexpand =>
    rcases operands with _ | ⟨x, _ | ⟨y, more⟩⟩
    · exact hfail _
    · exact h.answer (hev.expandWithin (owned :: frames) h.ready (hops x (by simp)))
    · exact hfail _
  | defMacro => exact h.answer (follows_defMacro h.ready hops)
  | attempt => exact follows_turnAttempt hin h hops
  | unquote => exact hfail _
  | spliceUnquote => exact hfail _
  | handler => exact hfail _

/-- At a tail call the scopes of the caller are released before the body is evaluated. The scope of
the call is not one of them, and those around it are kept. -/
theorem AtTurn.tailCall {parent call : ScopeId} (h : AtTurn s base outer scope owned m n)
    (hk : m.env.Kept parent) (he : Enters (owned ++ outer) m m' n' parent call) :
    AtTurn s base outer call [call] { m' with env := m'.env.releaseAll owned } n' := by
  have hcall : base.scopes.size ≤ call := he.isNew ▸ h.frame.size_le
  have hnot : call ∉ owned := by
    intro hmem
    obtain ⟨t, ht⟩ := h.ready.sound.owns.live call (List.mem_append_left _ hmem)
    exact Nat.lt_irrefl _ (he.isNew ▸ Environment.lt_size_of_live ht)
  have hsecured := ((he.frame s).kept hk).secured he.ready.sound.wellFormed
  have hparent := hsecured.preserved (Environment.preserves_releaseAll m'.env owned)
  obtain ⟨t, ht, hp⟩ := he.made
  refine ⟨⟨?_, he.ready.within.release owned, ?_⟩, ?_, .inr hcall, ?_⟩
  · exact (he.ready.sound.perm List.perm_middle.symm).releaseAll
  · refine .link (s := t) ?_ hp trivial (Environment.Secured.anchored hparent)
    rw [Environment.scope?_releaseAll hnot]
    exact ht
  · exact (h.frame.trans (he.frame s) (.inl rfl)).releaseAll (Environment.spares_of_new h.isNew)
  · intro id hid
    rw [List.mem_singleton.mp hid]
    exact hcall

theorem follows_turnCall {tev : Datum → Machine → Traced Datum} {host : Host} {head : Datum}
    (hev : Simulates (owned ++ outer) scope tev (ev scope))
    (h : AtTurn s base outer scope owned m n) (hhead : m.env.Holds head)
    (hops : ∀ x ∈ operands, m.env.Holds x) :
    TurnFollows s base outer m.env ev (.turnCall host tev head operands owned m)
      (Plain.call host ev head operands scope n) := by
  refine h.orAnswer (hev.each h.ready hops) fun args m₁ n₁ h₁ hframe hargs => ?_
  refine h₁.orAnswer (hev h₁.ready (hframe.holds hhead)) fun function m₂ n₂ h₂ hframe₂ hfun => ?_
  have hargs₂ : ∀ x ∈ args, m₂.env.Holds x := fun x hx => hframe₂.holds (hargs x hx)
  cases function with
  | primitive p => exact h₂.answer (follows_primitive h₂.ready hargs₂)
  | closure c =>
    obtain ⟨hkept, hbody⟩ := Datum.eachClosure_closure.mp hfun
    have hbind : m₂.env.Safe [.use (.bind c.scope c.params args)] :=
      ⟨(hkept.secured h₂.ready.sound.wellFormed).anchored, trivial⟩
    dsimp only
    unfold Plain.callClosure
    rcases enterCall_cases h₂.ready.sound h₂.ready.within hkept hargs₂ with
      ⟨e, ht, hp, hrun⟩ | ⟨m', n', ht, hp, hrun, hent⟩
    · have hfail : Follows scope m₂.env (owned ++ outer) m₂.env Holds
          (.noting (.bind c.scope c.params args) (.failed e m₂)) (.failed e n₂) :=
        .noting hbind.1 (by rw [hrun]; exact .fail h₂.ready.ends)
      rw [ht, hp]
      exact .answer (h₂.follows hfail) h₂.isNew
    · have hat := h₂.tailCall hkept hent
      have hform := (Environment.preserves_releaseAll m'.env owned).holds
        ((hent.frame scope).holds hbody)
      have hlog : m'.env.Safe (owned.map (fun id => .use (.release id)) ++
          [.tailCall m₂.env.scopes.size]) :=
        Environment.safe_append.mpr ⟨Environment.safe_releases .., trivial, trivial⟩
      rw [ht, hp]
      refine .after hbind ?_
      change TurnFollows s base outer ((ScopeOp.bind c.scope c.params args).run m₂.env) ev _ _
      rw [hrun]
      refine .after hlog ?_
      rw [Environment.replay_append, Environment.replay_releases]
      exact hat.onward hform
  | _ => exact h₂.answer (.fail h₂.ready.ends)

theorem follows_turn (hev : Mirrors tev ev) (host : Host) {form : Datum}
    (h : AtTurn s base frames.flatten scope owned m n) (hform : m.env.Holds form) :
    TurnFollows s base frames.flatten m.env ev (.turn host tev frames form scope owned m)
      (Plain.step host ev scope form n) := by
  have hin := hev (owned :: frames) scope
  refine h.orAnswer (hev.expandWithin (owned :: frames) h.ready hform)
    fun form m₁ n₁ h₁ _ hform₁ => ?_
  have hatom : TurnFollows s base frames.flatten m₁.env ev
      (.answer (Traced.literal (tev (owned :: frames) scope) scope form m₁) owned)
      (Eval.literal ev scope form n₁) := h₁.answer (hin.literal h₁.ready hform₁)
  rcases form with _ | _ | _ | _ | _ | _ | _ | _ | _ | (_ | ⟨head, operands⟩) | _ | _ | _ | _ | _
  case list.cons =>
    obtain ⟨hhead, hops⟩ := List.forall_mem_cons.mp (Datum.eachClosure_list.mp hform₁)
    rcases head with _ | _ | _ | _ | _ | _ | _ | (_ | head) | _ | _ | _ | _ | _ | _ | _
    case symbol.special => exact follows_turnSpecial hev h₁ hops
    all_goals exact follows_turnCall hin h₁ hhead hops
  all_goals exact hatom

end

/-- From a turn on, the loop goes as the plain interpreter does with the same bound. -/
theorem follows_loop (host : Host) (fuel : Nat) {s scope : ScopeId} {base : Environment}
    {frames : Frames} {owned : List ScopeId} {form : Datum} {m n : Machine}
    (h : AtTurn s base frames.flatten scope owned m n) (hform : m.env.Holds form) :
    Follows s base frames.flatten m.env Holds
      (Traced.loop host fuel frames form scope owned m) (Plain.eval host fuel scope form n) := by
  induction fuel generalizing s scope base frames owned form m n with
  | zero => exact .brokeOff trivial
  | succ fuel ih =>
    have hev : Mirrors (fun frames scope form m => Traced.loop host fuel frames form scope [] m)
        (Plain.eval host fuel) := by
      intro frames scope form m n hr hform
      exact ih ⟨hr, .refl scope m.env, .inl rfl, by simp⟩ hform
    have hturn := follows_turn hev host h hform
    have hstart : m.env.Safe [.turn (owned :: frames)] := ⟨h.ready.sound.owns, trivial⟩
    unfold Traced.loop Plain.eval
    refine .after hstart ?_
    generalize TracedTurn.turn host _ frames form scope owned m = step at hturn ⊢
    generalize Plain.step host _ scope form n = plain at hturn ⊢
    cases hturn with
    | answer hf hnew => exact hf.releasing hnew
    | onward hsafe hm hat hform' =>
      exact .after hsafe (hm ▸ ih hat hform')

theorem mirrors_evalIn (host : Host) (fuel : Nat) :
    Mirrors (Traced.evalIn host fuel) (Plain.eval host fuel) := by
  intro frames scope form m n hr hform
  exact follows_loop host fuel ⟨hr, .refl scope m.env, .inl rfl, by simp⟩ hform

end TableLisp

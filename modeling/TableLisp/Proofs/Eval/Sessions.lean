import TableLisp.Proofs.Eval.Simulation
import TableLisp.Proofs.Reader.Forms

/-! Sessions. A session begins with a new machine and is asked to evaluate forms and texts, to
expand macros and to bind names; closures come in only if an earlier answer held them. The machine
of such a session is sound at every point, evaluation in it goes as the plain interpreter does, and
no scope is handed over that was released or has a released one around it. -/

namespace TableLisp

open Environment (Holds global)

/-- What a session is asked for. -/
inductive Request where
  | eval (form : Datum)
  | evalText (text : String)
  | macroexpand (form : Datum)
  | define (name : String) (value : Datum)

namespace Request

def run (host : Host) (fuel : Nat) : Request → Machine → Outcome Datum
  | eval form, m => Session.evalForm host fuel form m
  | evalText text, m => Session.evalText host fuel text m
  | macroexpand form, m => Session.macroexpand host fuel form m
  | define name value, m => .done value (Session.define name value m)

/-- The run with the record of what it does to scopes. -/
def trace (host : Host) (fuel : Nat) : Request → Machine → Traced Datum
  | eval form, m => Traced.evalIn host fuel [] global form m
  | evalText text, m => Traced.evalText host fuel text m
  | macroexpand form, m => Traced.macroexpand host fuel form m
  | define name value, m =>
    .noting (.set global name value) (.done value (Session.define name value m))

/-- The run of the plain interpreter. -/
def plain (host : Host) (fuel : Nat) : Request → Machine → Outcome Datum
  | eval form, m => Plain.eval host fuel global form m
  | evalText text, m => Plain.evalText host fuel text m
  | macroexpand form, m => Plain.macroexpand host fuel form m
  | define name value, m => .done value (Session.define name value m)

/-- What is handed over as data. -/
def data : Request → List Datum
  | eval form => [form]
  | evalText _ => []
  | macroexpand form => [form]
  | define _ value => [value]

@[simp] theorem outcome_trace (host : Host) (fuel : Nat) (r : Request) (m : Machine) :
    (r.trace host fuel m).outcome = r.run host fuel m := by
  cases r with
  | eval form => exact Traced.outcome_evalIn ..
  | evalText text => exact Traced.outcome_evalText ..
  | macroexpand form => exact Traced.outcome_macroexpand ..
  | define name value => rfl

end Request

/-- Every closure in the datum occurs in a known one. -/
def Datum.MadeFrom (known : List Datum) (d : Datum) : Prop :=
  d.EachClosure fun c => ∃ k ∈ known, c ∈ k.closures

/-- The machines of a session, with all that is on record of it and the values it gave out. -/
inductive Reached (host : Host) : Log → List Datum → Machine → Prop where
  | initial : Reached host [] [] .initial
  | done {log : Log} {known : List Datum} {m m' : Machine} {r : Request} {fuel : Nat}
      {value : Datum} : Reached host log known m → (∀ d ∈ r.data, d.MadeFrom known) →
      r.run host fuel m = .done value m' →
      Reached host (log ++ (r.trace host fuel m).log) (value :: known) m'
  | failed {log : Log} {known : List Datum} {m m' : Machine} {r : Request} {fuel : Nat}
      {e : Error} : Reached host log known m → (∀ d ∈ r.data, d.MadeFrom known) →
      r.run host fuel m = .failed e m' →
      Reached host (log ++ (r.trace host fuel m).log) known m'
  | found {log : Log} {known : List Datum} {m : Machine} {name : String} {value : Datum} :
      Reached host log known m → Session.lookup name m = some value →
      Reached host (log ++ [.use (.lookup global name)]) (value :: known) m

section

variable {host : Host} {log : Log} {known : List Datum} {m n : Machine} {r : Request}

theorem follows_evalForms {fuel bound : Nat} {src : Source} {last : Datum}
    (hr : Ready [] global m n) (hlast : m.env.Holds last) :
    Follows global m.env [] m.env Holds (Traced.evalForms host fuel bound src last m)
      (Plain.evalForms host fuel bound src last n) := by
  induction bound generalizing src last m n with
  | zero => exact .return hr.ends hlast
  | succ bound ih =>
    unfold Traced.evalForms Plain.evalForms
    rcases hread : Reader.read host.dialect src with ⟨e | (_ | form), after⟩
    · exact .fail hr.ends
    · exact .return hr.ends hlast
    · have hform : m.env.Holds form := Reader.read_eachClosure _ hread
      refine (mirrors_evalIn host fuel [] global hr hform).andThen fun value m₁ n₁ he hv => ?_
      exact (ih (hr.next he) hv).rebase he.frame (.inl rfl)

theorem follows_request (fuel : Nat) (hr : Ready [] global m n)
    (hdata : ∀ d ∈ r.data, m.env.Holds d) :
    Follows global m.env [] m.env Holds (r.trace host fuel m) (r.plain host fuel n) := by
  cases r with
  | eval form => exact mirrors_evalIn host fuel [] global hr (hdata form (by simp [Request.data]))
  | evalText text => exact follows_evalForms hr Datum.eachClosure_nil
  | macroexpand form =>
    exact (mirrors_evalIn host fuel).expandWithin [] hr (hdata form (by simp [Request.data]))
  | define name value =>
    have hv := hdata value (by simp [Request.data])
    have hset := hr.ends.set hv name
    exact .noting hr.anchored (.return hset (hset.frame.holds hv))

theorem Machine.sound_blank : Machine.blank.Sound [] := by
  have hscope : ∀ id s, Machine.blank.env.scope? id = some s →
      id = global ∧ s = ⟨[], none, true⟩ := by
    intro id s hs
    rcases Nat.lt_or_ge 0 id with hpos | hzero
    · have hnone : (#[some (⟨[], none, true⟩ : Scope)])[id]? = none :=
        Array.getElem?_eq_none (Nat.succ_le_of_lt hpos)
      simp [Machine.blank, Environment.initial, Environment.scope?, hnone] at hs
    · obtain rfl := Nat.le_zero.mp hzero
      cases hs
      exact ⟨rfl, rfl⟩
  refine ⟨⟨⟨_, rfl, rfl, rfl⟩, ?_, ?_, ?_⟩, ⟨by simp, by simp, ?_⟩, ?_, ?_⟩
  · exact fun id s hs _ => (hscope id s hs).1
  · intro id s p hs hp
    rw [(hscope id s hs).2] at hp
    cases hp
  · intro id s p hs _ hp
    rw [(hscope id s hs).2] at hp
    cases hp
  · intro id s hs hc
    rw [(hscope id s hs).2] at hc
    cases hc
  · intro id s hs b hb
    rw [(hscope id s hs).2] at hb
    cases hb
  · intro id e he
    cases he

theorem Machine.sound_withPrimitives (primitives : List Primitive) :
    (Machine.withPrimitives primitives).Sound [] := by
  have hfold : ∀ (ps : List Primitive) (m : Machine), m.Sound [] →
      Machine.Sound [] { m with
        env := ps.foldl (fun env p => env.set global p.name (.primitive p)) m.env } := by
    intro ps
    induction ps with
    | nil => exact fun m hm => hm
    | cons p more ih => exact fun m hm => ih _ (hm.set (Datum.eachClosure_primitive p))
  exact hfold primitives _ sound_blank

/-- What is known of a session at every point. -/
structure Settled (log : Log) (known : List Datum) (m : Machine) : Prop where
  sound : m.Sound []
  safe : Machine.initial.env.Safe log
  replays : m.env = Machine.initial.env.replay log
  holds : ∀ k ∈ known, m.env.Holds k

theorem Settled.holds_of (h : Settled log known m) {d : Datum} (hd : d.MadeFrom known) :
    m.env.Holds d := by
  intro c hc
  obtain ⟨k, hk, hck⟩ := hd c hc
  exact h.holds k hk c hck

theorem Settled.ready (h : Settled log known m) (hn : m.Within n) {scope : ScopeId} {s : Scope}
    (hs : m.env.scope? scope = some s) : Ready [] scope m n :=
  ⟨h.sound, hn, ((h.sound.owns.kept hs).secured h.sound.wellFormed).anchored⟩

theorem Settled.ready_global (h : Settled log known m) : Ready [] global m m := by
  obtain ⟨s, hs, _⟩ := h.sound.wellFormed.root
  exact h.ready ⟨.refl m.env, rfl, rfl, rfl⟩ hs

/-- A request that a settled session is given goes as the plain interpreter does. -/
theorem Settled.follows (h : Settled log known m) (host : Host)
    (hdata : ∀ d ∈ r.data, d.MadeFrom known) (fuel : Nat) :
    Follows global m.env [] m.env Holds (r.trace host fuel m) (r.plain host fuel m) :=
  follows_request fuel h.ready_global fun d hd => h.holds_of (hdata d hd)

theorem Settled.extend (h : Settled log known m) {m' : Machine} {more : Log}
    (hsafe : m.env.Safe more) (hm : m'.env = m.env.replay more)
    (he : Ends global m.env [] m' n) : Settled (log ++ more) known m' where
  sound := he.sound
  safe := Environment.safe_append.mpr ⟨h.safe, h.replays ▸ hsafe⟩
  replays := by rw [Environment.replay_append, ← h.replays]; exact hm
  holds k hk := he.frame.holds (h.holds k hk)

theorem Settled.learn (h : Settled log known m) {value : Datum} (hv : m.env.Holds value) :
    Settled log (value :: known) m where
  sound := h.sound
  safe := h.safe
  replays := h.replays
  holds := List.forall_mem_cons.mpr ⟨hv, h.holds⟩

theorem Reached.settled (h : Reached host log known m) : Settled log known m := by
  induction h with
  | initial => exact ⟨Machine.sound_withPrimitives _, trivial, rfl, by simp⟩
  | @done log known m m' r fuel value _ hdata hrun ih =>
    have hf := ih.follows host hdata fuel
    obtain ⟨hm, hv, n, _, he⟩ := hf.of_done ((Request.outcome_trace host fuel r m).trans hrun)
    exact (ih.extend hf.safe hm he).learn hv
  | @failed log known m m' r fuel e _ hdata hrun ih =>
    have hf := ih.follows host hdata fuel
    obtain ⟨hm, n, _, he⟩ := hf.of_failed ((Request.outcome_trace host fuel r m).trans hrun)
    exact ih.extend hf.safe hm he
  | @found log known m name value _ hlookup ih =>
    have hr := ih.ready_global
    have hsafe : m.env.Safe [.use (.lookup global name)] := ⟨hr.anchored, trivial⟩
    exact (ih.extend hsafe rfl hr.ends).learn (ih.sound.lookup hlookup)

/-- The run ends with a value or an error if it is given enough steps. -/
def Returns (run : Nat → Outcome Datum) (o : Outcome Datum) : Prop :=
  (∃ fuel, run fuel = o) ∧ ∀ need, o ≠ .brokeOff need

/-- Both runs ended with the same value or the same error, the same output and the same tables, and
each scope that the first machine still has is the same in the second. -/
inductive Agrees : Outcome Datum → Outcome Datum → Prop where
  | done {value : Datum} {m n : Machine} : m.Within n → Agrees (.done value m) (.done value n)
  | failed {e : Error} {m n : Machine} : m.Within n → Agrees (.failed e m) (.failed e n)

theorem Agrees.returned {o p : Outcome Datum} (h : Agrees o p) :
    (∀ need, o ≠ .brokeOff need) ∧ ∀ need, p ≠ .brokeOff need := by
  cases h with
  | done _ => constructor <;> intro need hneed <;> cases hneed
  | failed _ => constructor <;> intro need hneed <;> cases hneed

theorem Follows.agrees {s : ScopeId} {base start : Environment} {held : List ScopeId}
    {t : Traced Datum} {p : Outcome Datum} (h : Follows s base held start Holds t p) :
    Agrees t.outcome p ∨ ∃ need, t.outcome = .brokeOff need ∧ p = .brokeOff need := by
  cases h with
  | done _ _ he _ => exact .inl (.done he.within)
  | failed _ _ he => exact .inl (.failed he.within)
  | brokeOff _ => exact .inr ⟨_, rfl, rfl⟩

theorem Settled.evalIn (h : Settled log known m) (host : Host) {form : Datum}
    (hform : form.MadeFrom known) {scope : ScopeId} {s : Scope}
    (hs : m.env.scope? scope = some s) (hn : m.Within n) (fuel : Nat) :
    Agrees (Eval.evalIn host fuel scope form m) (Plain.eval host fuel scope form n) ∨
      ∃ need, Eval.evalIn host fuel scope form m = .brokeOff need ∧
        Plain.eval host fuel scope form n = .brokeOff need := by
  have hf := mirrors_evalIn host fuel [] scope (h.ready hn hs) (h.holds_of hform)
  simpa using hf.agrees

theorem Outcome.Upto.eq_of_returned {o o' : Outcome Datum} (h : o.Upto o')
    (hr : ∀ need, o ≠ .brokeOff need) : o' = o := h.resolve_left (hr _)

/-- The loop, which goes on with forms in tail position and releases scopes on the way, returns
exactly when the plain interpreter does, and then alike. The plain one may begin with the same
machine, or with one that still has what the loop has released. -/
theorem evalIn_refines_plain {host : Host} {log : Log} {known : List Datum} {m n : Machine}
    {scope : ScopeId} {form : Datum} (h : Reached host log known m)
    (hform : form.MadeFrom known) (hlive : m.env.isLive scope = true) (hn : m.Within n) :
    ((∃ o, Returns (fun fuel => Eval.evalIn host fuel scope form m) o) ↔
        ∃ o, Returns (fun fuel => Plain.eval host fuel scope form n) o) ∧
      ∀ o p, Returns (fun fuel => Eval.evalIn host fuel scope form m) o →
        Returns (fun fuel => Plain.eval host fuel scope form n) p → Agrees o p := by
  obtain ⟨s, hs⟩ := Option.isSome_iff_exists.mp hlive
  have hsame := h.settled.evalIn host hform hs hn
  refine ⟨⟨?_, ?_⟩, ?_⟩
  · rintro ⟨o, ⟨fuel, rfl⟩, hret⟩
    rcases hsame fuel with ha | ⟨need, ho, _⟩
    · exact ⟨_, ⟨fuel, rfl⟩, ha.returned.2⟩
    · exact absurd ho (hret need)
  · rintro ⟨p, ⟨fuel, rfl⟩, hret⟩
    rcases hsame fuel with ha | ⟨need, _, hp⟩
    · exact ⟨_, ⟨fuel, rfl⟩, ha.returned.1⟩
    · exact absurd hp (hret need)
  · rintro o p ⟨⟨fuel, rfl⟩, hret⟩ ⟨⟨fuel', rfl⟩, hret'⟩
    -- both runs are compared within the greater of the two numbers of steps
    have ho := (Eval.upto_evalIn host (Nat.le_max_left fuel fuel') scope form m).eq_of_returned hret
    have hp := (Plain.upto_eval host (Nat.le_max_right fuel fuel') scope form n).eq_of_returned
      hret'
    rcases hsame (max fuel fuel') with ha | ⟨need, hb, _⟩
    · dsimp only
      rw [ho, hp] at ha
      exact ha
    · exact absurd (ho.symm.trans hb) (hret need)

/-- A function over a scope of its own: the loop and the plain interpreter both return it. -/
theorem evalIn_refines_plain_closure :
    let host : Host := ⟨.initial, fun _ => .unreadable⟩
    let form := Datum.form .letStar
      [.vector [.var "x", .int 1], .form .lambda [.vector [], .var "x"]]
    (∃ p, Returns (fun fuel => Plain.eval host fuel global form .initial) p) ∧
      ∀ o p, Returns (fun fuel => Eval.evalIn host fuel global form .initial) o →
        Returns (fun fuel => Plain.eval host fuel global form .initial) p → Agrees o p := by
  intro host form
  have hform : form.MadeFrom [] := Datum.eachClosure_of_none rfl
  have hstart : Reached host [] [] .initial := .initial
  have hlive : Machine.initial.env.isLive global = true := by
    obtain ⟨s, hs, _⟩ := hstart.settled.sound.wellFormed.root
    simp [Environment.isLive, hs]
  have hsame : Machine.initial.Within Machine.initial := ⟨.refl _, rfl, rfl, rfl⟩
  have hboth := evalIn_refines_plain hstart hform hlive hsame
  refine ⟨hboth.1.mp ⟨_, ⟨3, rfl⟩, ?_⟩, hboth.2⟩
  intro need hneed
  cases hneed

/-- Of a session and whatever it is asked for next, also while that runs: a scope that is handed
over is anchored, so that a binding is always made and a name is found if any scope outward binds
it; and from where a closure is made on, its scope and all around it are live and captured. The
record tells all that happens to scopes. -/
theorem no_dangling_scope {host : Host} {log : Log} {known : List Datum} {m : Machine}
    (h : Reached host log known m) {r : Request} (hr : ∀ d ∈ r.data, d.MadeFrom known)
    (fuel : Nat) {before after : Log} {event : Event}
    (hlog : log ++ (r.trace host fuel m).log = before ++ event :: after) :
    let env := Machine.initial.env.replay before
    m.env = Machine.initial.env.replay log ∧
      (∀ op, event = .use op → (∀ id, op ≠ .release id) → env.Anchored op.scope) ∧
      (∀ scope name value, event = .use (.set scope name value) →
        (event.run env).lookup scope name = some value) ∧
      (∀ scope name, event = .use (.lookup scope name) → env.lookup scope name = none →
        env.Chain (fun s => Bindings.get? name s.bindings = none) scope) ∧
      ∀ c, event = .made c → ∀ middle rest, after = middle ++ rest →
        (env.replay middle).Secured c.scope := by
  intro env
  have hs := h.settled
  have hinitial : Machine.initial.env.WellFormed := (Machine.sound_withPrimitives _).wellFormed
  have hsafe : Machine.initial.env.Safe (before ++ event :: after) := by
    rw [← hlog]
    exact Environment.safe_append.mpr ⟨hs.safe, hs.replays ▸ (hs.follows host hr fuel).safe⟩
  have hbefore := (Environment.safe_append.mp hsafe).1.wellFormed hinitial
  have hevent := hsafe.admits
  refine ⟨hs.replays, ?_, ?_, ?_, ?_⟩
  · rintro op rfl hop
    exact hevent.anchored hop
  · rintro scope name value rfl
    obtain ⟨s, hlive⟩ := Environment.Chain.live hevent
    exact Environment.lookup_set hlive name value
  · rintro scope name rfl hnone
    exact Environment.chain_of_lookup hbefore hevent hnone
  · rintro c rfl middle rest rfl
    have hpart : Machine.initial.env.Safe (before ++ .made c :: middle) := by
      rw [← List.cons_append, ← List.append_assoc] at hsafe
      exact (Environment.safe_append.mp hsafe).1
    have hsecured := hpart.secured_after hinitial
    rw [Environment.replay_append] at hsecured
    exact hsecured

set_option maxRecDepth 4000 in
/-- The scope of a function that is made in `let*` is still there, and captured, after the loop has
released what it owns. -/
theorem no_dangling_scope_closure :
    let c : Closure Datum := ⟨0, none, ⟨[], none⟩, .var "x", 1, false⟩
    (Machine.initial.env.replay [.turn [[]], .use (.child global), .turn [[], [1]],
      .use (.set 1 "x" (.int 1)), .turn [[1]], .use (.capture 1), .made c,
      .use (.release 1)]).Secured c.scope := by
  intro c
  let host : Host := ⟨.initial, fun _ => .unreadable⟩
  let r := Request.eval (.form .letStar
    [.vector [.var "x", .int 1], .form .lambda [.vector [], .var "x"]])
  have hr : ∀ d ∈ r.data, d.MadeFrom [] := by
    intro d hd
    rw [List.mem_singleton.mp hd]
    exact Datum.eachClosure_of_none rfl
  have hstart : Reached host [] [] .initial := .initial
  have hlog : [] ++ (r.trace host 2 .initial).log = [.turn [[]], .use (.child global),
      .turn [[], [1]], .use (.set 1 "x" (.int 1)), .turn [[1]], .use (.capture 1)] ++
      .made c :: [.use (.release 1)] := rfl
  exact (no_dangling_scope hstart hr 2 hlog).2.2.2.2 c rfl [.use (.release 1)] [] rfl

end

end TableLisp

import TableLisp.Proofs.Eval.Record
import TableLisp.Proofs.Eval.Sessions

/-! No scope is leaked. At the start of every turn the scopes that are live and not captured are
those that the evaluations and macro calls under way hold, each held once. A request that has ended
leaves captured scopes only, and as many scopes as there were if it made no closure. -/

namespace TableLisp

open Environment (global)

theorem countP_isSome_of_none {α : Type} {xs : List (Option α)}
    (h : ∀ i : Nat, xs[i]?.join.isSome = false) : xs.countP Option.isSome = 0 := by
  rw [List.countP_eq_zero]
  intro x hx
  obtain ⟨i, hi, rfl⟩ := List.mem_iff_getElem.mp hx
  have hat := h i
  rw [List.getElem?_eq_getElem hi] at hat
  simpa using hat

theorem countP_isSome_congr {α : Type} {xs ys : List (Option α)}
    (h : ∀ i : Nat, xs[i]?.join.isSome = ys[i]?.join.isSome) :
    xs.countP Option.isSome = ys.countP Option.isSome := by
  induction xs generalizing ys with
  | nil => exact (countP_isSome_of_none fun i => by simpa using (h i).symm).symm
  | cons x more ih =>
    cases ys with
    | nil => exact countP_isSome_of_none fun i => by simpa using h i
    | cons y rest =>
      have hhead : x.isSome = y.isSome := by simpa using h 0
      have htail := ih fun i => by simpa using h (i + 1)
      rw [List.countP_cons, List.countP_cons, htail, hhead]

theorem Environment.liveCount_congr {env env' : Environment}
    (h : ∀ id, (env.scope? id).isSome = (env'.scope? id).isSome) :
    env.liveCount = env'.liveCount := by
  simp only [liveCount, ← Array.countP_toList]
  refine countP_isSome_congr fun i => ?_
  rw [Array.getElem?_toList, Array.getElem?_toList]
  exact h i

section

variable {host : Host} {log : Log} {known : List Datum} {m m' : Machine} {r : Request} {fuel : Nat}

theorem recorded_evalForms {bound : Nat} {src : Source} {last : Datum} {base : Environment}
    (hf : base.Frame global m.env) :
    Recorded host global base m.env (Traced.evalForms host fuel bound src last m) := by
  induction bound generalizing src last m with
  | zero => exact .return hf
  | succ bound ih =>
    unfold Traced.evalForms
    rcases Reader.read host.dialect src with ⟨e | (_ | form), after⟩
    · exact .fail hf
    · exact .return hf
    · exact ((kept_evalIn host fuel).keeps [] (.inl rfl) hf).andThen fun value m₁ hf₁ => ih hf₁

theorem recorded_request (host : Host) (r : Request) (fuel : Nat) (m : Machine) :
    Recorded host global m.env m.env (r.trace host fuel m) := by
  cases r with
  | eval form => exact kept_evalIn host fuel [] global form m
  | evalText text => exact recorded_evalForms (.refl global m.env)
  | macroexpand form =>
    exact (kept_evalIn host fuel).expandWithin [] global _ _ form (.refl global m.env)
  | define name value =>
    exact .noting (by simp) (.return (m := Session.define name value m)
      (Environment.frame_set global m.env name value))

theorem Reached.orderly (h : Reached host log known m) :
    Orderly host true Machine.initial.env log := by
  induction h with
  | initial => exact .nil
  | @done log known m m' r fuel value hm hdata hrun ih =>
    have hend : (r.trace host fuel m).outcome.EndsIn m' := .inl ⟨value, by simpa using hrun⟩
    exact ih.append (hm.settled.replays ▸ ((recorded_request host r fuel m).of_ends hend).1)
  | @failed log known m m' r fuel e hm hdata hrun ih =>
    have hend : (r.trace host fuel m).outcome.EndsIn m' := .inr ⟨e, by simpa using hrun⟩
    exact ih.append (hm.settled.replays ▸ ((recorded_request host r fuel m).of_ends hend).1)
  | found _ _ ih => exact ih.append (.use (by simp) .nil)

/-- What the record of a session is like while a further request runs. -/
theorem Reached.orderly_trace (h : Reached host log known m) (r : Request) (fuel : Nat) :
    Orderly host false Machine.initial.env (log ++ (r.trace host fuel m).log) :=
  h.orderly.append (h.settled.replays ▸ (recorded_request host r fuel m).orderly)

theorem Reached.orderly_ended (h : Reached host log known m)
    (hend : (r.run host fuel m).EndsIn m') :
    Orderly host true Machine.initial.env (log ++ (r.trace host fuel m).log) := by
  rw [← Request.outcome_trace] at hend
  exact h.orderly.append (h.settled.replays ▸ ((recorded_request host r fuel m).of_ends hend).1)

theorem Reached.sound_end (h : Reached host log known m) (hr : ∀ d ∈ r.data, d.MadeFrom known)
    (hend : (r.run host fuel m).EndsIn m') : m'.Sound [] := by
  have hf := h.settled.follows host hr fuel
  rw [← Request.outcome_trace] at hend
  rcases hend with ⟨_, ho⟩ | ⟨_, ho⟩
  · obtain ⟨_, _, n, _, he⟩ := hf.of_done ho
    exact he.sound
  · obtain ⟨_, n, _, he⟩ := hf.of_failed ho
    exact he.sound

theorem Reached.liveCount_eq (h : Reached host log known m) (hr : ∀ d ∈ r.data, d.MadeFrom known)
    (hend : (r.run host fuel m).EndsIn m') (hnone : ∀ c, .made c ∉ (r.trace host fuel m).log) :
    m'.env.liveCount = m.env.liveCount := by
  have howns := (h.sound_end hr hend).owns
  rw [← Request.outcome_trace] at hend
  obtain ⟨horderly, hreplay, hframe⟩ := (recorded_request host r fuel m).of_ends hend
  refine Environment.liveCount_congr fun id => ?_
  rw [Bool.eq_iff_iff, Option.isSome_iff_exists, Option.isSome_iff_exists]
  constructor
  · rintro ⟨u, hu⟩
    have hkept := howns.kept hu
    rw [hreplay] at hkept
    obtain ⟨u₀, hu₀, _⟩ := horderly.kept_of_kept hnone hkept
    exact ⟨u₀, hu₀⟩
  · rintro ⟨u, hu⟩
    obtain ⟨u', hu', _⟩ := hframe.lives id u hu
    exact ⟨u', hu'⟩

/-- Of a session and whatever it is asked for next, also while that runs. At the start of each turn,
which is one that the loop takes with the scopes of that moment and with the first of the lists as
its own, the scopes that are live and not captured are in one of the lists held, and in one only.
After a tail call the loop owns the scope of the call and no other. When the request has ended, all
live scopes are captured, and if no closure was made, there are as many as before. -/
theorem no_scope_leak {host : Host} {log : Log} {known : List Datum} {m : Machine}
    (h : Reached host log known m) {r : Request} (hr : ∀ d ∈ r.data, d.MadeFrom known)
    (fuel : Nat) :
    let trace := r.trace host fuel m
    (∀ before after frames, log ++ trace.log = before ++ .turn frames :: after →
      (Machine.initial.env.replay before).Owns frames.flatten ∧
        ∃ steps outer form scope owned n, frames = owned :: outer ∧
          n.env = Machine.initial.env.replay before ∧
          (Traced.loop host steps outer form scope owned n).log <+: .turn frames :: after) ∧
      (∀ before after call, log ++ trace.log = before ++ .tailCall call :: after →
        (∃ outer rest, after = .turn ([call] :: outer) :: rest) ∨
          after = [] ∧ ∃ need, r.run host fuel m = .brokeOff need) ∧
      ∀ m', (r.run host fuel m).EndsIn m' →
        (∀ id s, m'.env.scope? id = some s → s.captured = true) ∧
          ((∀ c, .made c ∉ trace.log) → m'.env.liveCount = m.env.liveCount) := by
  intro trace
  refine ⟨?_, ?_, ?_⟩
  · intro before after frames hlog
    have hsafe : Machine.initial.env.Safe (log ++ trace.log) :=
      Environment.safe_append.mpr ⟨h.settled.safe,
        h.settled.replays ▸ (h.settled.follows host hr fuel).safe⟩
    have horderly := h.orderly_trace r fuel
    rw [hlog] at hsafe
    rw [hlog] at horderly
    exact ⟨hsafe.admits, horderly.turn_taken⟩
  · intro before after call hlog
    have hended : ∀ m', (r.run host fuel m).EndsIn m' →
        ∃ outer rest, after = .turn ([call] :: outer) :: rest := by
      intro m' hend
      have horderly := h.orderly_ended hend
      rw [hlog] at horderly
      exact horderly.tailCall_next.resolve_left fun hcut => Bool.noConfusion hcut.2
    cases hrun : r.run host fuel m with
    | done value m' => exact .inl (hended m' (.inl ⟨value, hrun⟩))
    | failed e m' => exact .inl (hended m' (.inr ⟨e, hrun⟩))
    | brokeOff need =>
      have horderly := h.orderly_trace r fuel
      rw [hlog] at horderly
      rcases horderly.tailCall_next with ⟨hnil, _⟩ | hnext
      · exact .inr ⟨hnil, need, rfl⟩
      · exact .inl hnext
  · intro m' hend
    constructor
    · intro id u hu
      obtain ⟨u', hu', hc⟩ := (h.sound_end hr hend).owns.kept hu
      rw [hu] at hu'
      cases hu'
      exact hc
    · exact h.liveCount_eq hr hend

set_option maxRecDepth 4000 in
/-- In `((fn* [x] x) 1)` the loop owns the scope of the call when it goes on with the body, and
`(let* [x 1] x)` leaves as many scopes as it found. -/
theorem no_scope_leak_call :
    let host : Host := ⟨.initial, fun _ => .unreadable⟩
    let c : Closure Datum := ⟨0, none, ⟨["x"], none⟩, .var "x", global, false⟩
    (Machine.initial.env.replay [.turn [[]], .turn [[], []], .turn [[], []],
        .use (.capture global), .made c, .use (.bind global c.params [.int 1]),
        .tailCall 1]).Owns [1] ∧
      ∃ m', Session.evalForm host 3
          (.form .letStar [.vector [.var "x", .int 1], .var "x"]) .initial = .done (.int 1) m' ∧
        (∀ id s, m'.env.scope? id = some s → s.captured = true) ∧
        m'.env.liveCount = Machine.initial.env.liveCount := by
  intro host c
  let call := Request.eval (.list [.form .lambda [.vector [.var "x"], .var "x"], .int 1])
  let bound := Request.eval (.form .letStar [.vector [.var "x", .int 1], .var "x"])
  have hstart : Reached host [] [] .initial := .initial
  have hcall : ∀ d ∈ call.data, d.MadeFrom [] := by
    intro d hd
    rw [List.mem_singleton.mp hd]
    exact Datum.eachClosure_of_none rfl
  have hbound : ∀ d ∈ bound.data, d.MadeFrom [] := by
    intro d hd
    rw [List.mem_singleton.mp hd]
    exact Datum.eachClosure_of_none rfl
  refine ⟨((no_scope_leak hstart hcall 3).1 _ [.use (.lookup 1 "x"), .use (.release 1)] [[1]] rfl).1,
    _, rfl, ?_⟩
  obtain ⟨hcaptured, hcount⟩ := (no_scope_leak hstart hbound 3).2.2 _ (.inl ⟨.int 1, rfl⟩)
  refine ⟨hcaptured, hcount fun made hmade => ?_⟩
  have hlog : (bound.trace host 3 .initial).log = [.turn [[]], .use (.child global),
      .turn [[], [1]], .use (.set 1 "x" (.int 1)), .turn [[1]], .use (.lookup 1 "x"),
      .use (.release 1)] := rfl
  rw [hlog] at hmade
  simp at hmade

end

end TableLisp

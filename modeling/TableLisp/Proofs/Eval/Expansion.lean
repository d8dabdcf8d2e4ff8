import TableLisp.Proofs.Eval.Rules
import TableLisp.Proofs.Eval.Sessions

/-! Expansion of macro calls. `Expands` counts the applications of macros that lead from a form to
another one, each in the machine that the one before left. Expansion ends with the first form that
is no macro call, if the settings allow as many applications; a form to be evaluated is expanded
first and evaluation goes on with what comes out, so to expand it beforehand changes nothing. -/

namespace TableLisp

variable {host : Host} {scope : ScopeId} {form mid last : Datum} {m m' n : Machine}
variable {c : Closure Datum} {operands : List Datum} {fuel limit left j k : Nat} {e : Error}
variable {o o' : Outcome Datum} {run : Nat → Outcome Datum}

/-- More steps change no answer. -/
def Steady (run : Nat → Outcome Datum) : Prop := ∀ ⦃k k'⦄, k ≤ k' → (run k).Upto (run k')

theorem Returns.unique (h : Returns run o) (h' : Returns run o') (hs : Steady run) : o = o' := by
  obtain ⟨⟨k, rfl⟩, hret⟩ := h
  obtain ⟨⟨k', rfl⟩, hret'⟩ := h'
  rw [← (hs (Nat.le_max_left k k')).eq_of_returned hret,
    (hs (Nat.le_max_right k k')).eq_of_returned hret']

theorem returns_done (value : Datum) (m : Machine) :
    Returns (fun _ => .done value m) (.done value m) :=
  ⟨⟨0, rfl⟩, fun _ h => by cases h⟩

theorem returns_failed (e : Error) (m : Machine) : Returns (fun _ => .failed e m) (.failed e m) :=
  ⟨⟨0, rfl⟩, fun _ h => by cases h⟩

theorem returns_andThen {next : Nat → Datum → Machine → Outcome Datum} (hs : Steady run)
    (hn : ∀ value m, Steady fun fuel => next fuel value m) :
    Returns (fun fuel => (run fuel).andThen (next fuel)) o ↔
      (∃ value m, Returns run (.done value m) ∧ Returns (fun fuel => next fuel value m) o) ∨
        ∃ e m, Returns run (.failed e m) ∧ o = .failed e m := by
  constructor
  · rintro ⟨⟨k, rfl⟩, hret⟩
    dsimp only at hret ⊢
    cases hrun : run k with
    | done value m =>
      rw [hrun] at hret
      exact .inl ⟨value, m, ⟨⟨k, hrun⟩, fun _ h => by cases h⟩, ⟨k, rfl⟩, hret⟩
    | failed e m => exact .inr ⟨e, m, ⟨⟨k, hrun⟩, fun _ h => by cases h⟩, rfl⟩
    | brokeOff need =>
      rw [hrun] at hret
      exact absurd rfl (hret need)
  · rintro (⟨value, m, ⟨⟨k, hrun⟩, hdone⟩, ⟨k', rfl⟩, hret⟩ | ⟨e, m, ⟨⟨k, hrun⟩, hfailed⟩, rfl⟩)
    · refine ⟨⟨max k k', ?_⟩, hret⟩
      have hfirst := (hs (Nat.le_max_left k k')).eq_of_returned (hrun ▸ hdone)
      have hsecond := (hn value m (Nat.le_max_right k k')).eq_of_returned hret
      dsimp only
      rw [hfirst, hrun]
      exact hsecond
    · refine ⟨⟨k, ?_⟩, hfailed⟩
      dsimp only
      rw [hrun]
      rfl

namespace Eval

theorem steady_evalIn (host : Host) (scope : ScopeId) (form : Datum) (m : Machine) :
    Steady fun fuel => evalIn host fuel scope form m :=
  fun _ _ hle => upto_evalIn host hle scope form m

theorem steady_applyClosure (host : Host) (c : Closure Datum) (operands : List Datum)
    (m : Machine) : Steady fun fuel => applyClosure (evalIn host fuel) c operands m :=
  fun _ _ hle => upto_applyClosure (upto_evalIn host hle) c operands m

theorem steady_expandWithin (host : Host) (scope : ScopeId) (limit left : Nat) (form : Datum)
    (m : Machine) : Steady fun fuel => expandWithin (evalIn host fuel) scope limit left form m :=
  fun _ _ hle => upto_expandWithin (upto_evalIn host hle) scope limit left form m

/-- Does the form call a macro? -/
def IsMacroCall (m : Machine) (scope : ScopeId) (form : Datum) : Prop :=
  (macroCall? m.env scope form).isSome = true

/-- So many applications of macros lead from the first form to the second. -/
inductive Expands (host : Host) (scope : ScopeId) :
    (count : Nat) → Datum → Machine → Datum → Machine → Prop where
  | refl {form : Datum} {m : Machine} : Expands host scope 0 form m form m
  | step {count : Nat} {form mid last : Datum} {m m' n : Machine} {c : Closure Datum}
      {operands : List Datum} : macroCall? m.env scope form = some (c, operands) →
      Returns (fun fuel => applyClosure (evalIn host fuel) c operands m) (.done mid m') →
      Expands host scope count mid m' last n → Expands host scope (count + 1) form m last n

/-- Fewer than so many applications lead to a macro call of which the application fails. -/
def Breaks (host : Host) (scope : ScopeId) (limit : Nat) (form : Datum) (m : Machine) (e : Error)
    (n : Machine) : Prop :=
  ∃ k mid m' c operands, k < limit ∧ Expands host scope k form m mid m' ∧
    macroCall? m'.env scope mid = some (c, operands) ∧
    Returns (fun fuel => applyClosure (evalIn host fuel) c operands m') (.failed e n)

theorem Expands.rest (h : Expands host scope j form m mid m')
    (h' : Expands host scope k form m last n) (hle : j ≤ k) :
    Expands host scope (k - j) mid m' last n := by
  induction h generalizing k with
  | refl => exact h'
  | step hcall hrun _ ih =>
    cases h' with
    | refl => cases hle
    | step hcall' hrun' hrest =>
      rw [hcall] at hcall'
      cases hcall'
      cases hrun.unique hrun' (steady_applyClosure ..)
      rw [Nat.add_sub_add_right]
      exact ih hrest (Nat.le_of_succ_le_succ hle)

/-- Where as many applications as allowed succeed, none of them fails. -/
theorem Expands.not_breaks (h : Expands host scope limit form m last n) (e : Error) (n' : Machine) :
    ¬ Breaks host scope limit form m e n' := by
  rintro ⟨k, mid, m', c, operands, hlt, hexpands, hcall, hfails⟩
  have hrest := hexpands.rest h (Nat.le_of_lt hlt)
  obtain ⟨d, hd⟩ := Nat.exists_eq_add_of_lt hlt
  rw [show limit - k = d + 1 by omega] at hrest
  cases hrest with
  | step hcall' hrun _ =>
    rw [hcall] at hcall'
    cases hcall'
    cases hrun.unique hfails (steady_applyClosure ..)

theorem expandWithin_settled (ev : Evaluator) (limit left : Nat) (h : ¬ IsMacroCall m scope form) :
    expandWithin ev scope limit left form m = .done form m := by
  have hnone : macroCall? m.env scope form = none := Option.not_isSome_iff_eq_none.mp h
  cases left <;> simp only [expandWithin, hnone]

theorem expandWithin_unsettled (ev : Evaluator) (limit : Nat) (h : IsMacroCall m scope form) :
    expandWithin ev scope limit 0 form m =
      .failed (.malformed SpecialForm.macroexpand.name (.unsettled limit)) m := by
  obtain ⟨call, hcall⟩ := Option.isSome_iff_exists.mp h
  simp only [expandWithin, hcall]

theorem expandWithin_succ (ev : Evaluator) (limit left : Nat)
    (h : macroCall? m.env scope form = some (c, operands)) :
    expandWithin ev scope limit (left + 1) form m =
      (applyClosure ev c operands m).andThen (expandWithin ev scope limit left) := by
  simp only [expandWithin, h]

/-- What comes of an expansion comes of what is left to do after some applications. -/
theorem Expands.returns (h : Expands host scope k form m last n) (hle : k ≤ left)
    (hrest : Returns
      (fun fuel => expandWithin (evalIn host fuel) scope limit (left - k) last n) o) :
    Returns (fun fuel => expandWithin (evalIn host fuel) scope limit left form m) o := by
  induction h generalizing left with
  | refl => exact hrest
  | step hcall hrun _ ih =>
    obtain _ | left := left
    · cases hle
    rw [Nat.add_sub_add_right] at hrest
    simp only [expandWithin_succ _ limit left hcall]
    exact (returns_andThen (steady_applyClosure ..) fun _ _ => steady_expandWithin ..).mpr
      (.inl ⟨_, _, hrun, ih (Nat.le_of_succ_le_succ hle) hrest⟩)

/-- An expansion ends with a form that is no macro call, or where the allowed applications are used
up, or with an application that fails. -/
theorem returns_expandWithin_iff :
    Returns (fun fuel => expandWithin (evalIn host fuel) scope limit left form m) o ↔
      (∃ k last n, k ≤ left ∧ Expands host scope k form m last n ∧ ¬ IsMacroCall n scope last ∧
        o = .done last n) ∨
      (∃ last n, Expands host scope left form m last n ∧ IsMacroCall n scope last ∧
        o = .failed (.malformed SpecialForm.macroexpand.name (.unsettled limit)) n) ∨
      ∃ e n, Breaks host scope left form m e n ∧ o = .failed e n := by
  constructor
  · intro h
    induction left generalizing form m with
    | zero =>
      by_cases hcall : IsMacroCall m scope form
      · simp only [expandWithin_unsettled _ limit hcall] at h
        obtain ⟨⟨_, rfl⟩, _⟩ := h
        exact .inr (.inl ⟨form, m, .refl, hcall, rfl⟩)
      · simp only [expandWithin_settled _ limit 0 hcall] at h
        obtain ⟨⟨_, rfl⟩, _⟩ := h
        exact .inl ⟨0, form, m, Nat.le_refl 0, .refl, hcall, rfl⟩
    | succ left ih =>
      cases hcall : macroCall? m.env scope form with
      | none =>
        have hno : ¬ IsMacroCall m scope form := Option.not_isSome_iff_eq_none.mpr hcall
        simp only [expandWithin_settled _ limit (left + 1) hno] at h
        obtain ⟨⟨_, rfl⟩, _⟩ := h
        exact .inl ⟨0, form, m, Nat.zero_le _, .refl, hno, rfl⟩
      | some call =>
        obtain ⟨c, operands⟩ := call
        simp only [expandWithin_succ _ limit left hcall] at h
        have hboth := (returns_andThen (steady_applyClosure ..)
          fun _ _ => steady_expandWithin ..).mp h
        rcases hboth with ⟨mid, m', hrun, hrest⟩ | ⟨e, n, hfails, rfl⟩
        · rcases ih hrest with ⟨k, last, n, hle, hexp, hno, rfl⟩ | ⟨last, n, hexp, hyes, rfl⟩ |
            ⟨e, n, ⟨k, last, m'', c', operands', hlt, hexp, hcall', hfails⟩, rfl⟩
          · exact .inl ⟨k + 1, last, n, Nat.succ_le_succ hle, .step hcall hrun hexp, hno, rfl⟩
          · exact .inr (.inl ⟨last, n, .step hcall hrun hexp, hyes, rfl⟩)
          · exact .inr (.inr ⟨e, n, ⟨k + 1, last, m'', c', operands', Nat.succ_lt_succ hlt,
              .step hcall hrun hexp, hcall', hfails⟩, rfl⟩)
        · have hbreaks : Breaks host scope (left + 1) form m e n :=
            ⟨0, form, m, c, operands, Nat.succ_pos left, .refl, hcall, hfails⟩
          exact .inr (.inr ⟨e, n, hbreaks, rfl⟩)
  · rintro (⟨k, last, n, hle, hexp, hno, rfl⟩ | ⟨last, n, hexp, hyes, rfl⟩ |
      ⟨e, n, ⟨k, last, m', c, operands, hlt, hexp, hcall, hfails⟩, rfl⟩)
    · refine hexp.returns hle ?_
      simp only [expandWithin_settled _ limit (left - k) hno]
      exact returns_done last n
    · refine hexp.returns (Nat.le_refl left) ?_
      simp only [Nat.sub_self, expandWithin_unsettled _ limit hyes]
      exact returns_failed _ n
    · refine hexp.returns (Nat.le_of_lt hlt) ?_
      obtain ⟨d, hd⟩ := Nat.exists_eq_add_of_lt hlt
      simp only [show left - k = d + 1 by omega, expandWithin_succ _ limit d hcall]
      exact (returns_andThen (steady_applyClosure ..) fun _ _ => steady_expandWithin ..).mpr
        (.inr ⟨e, n, hfails, rfl⟩)

theorem not_isMacroCall_of_expandWithin {ev : Evaluator}
    (h : expandWithin ev scope limit left form m = .done last n) : ¬ IsMacroCall n scope last := by
  induction left generalizing form m with
  | zero =>
    by_cases hcall : IsMacroCall m scope form
    · rw [expandWithin_unsettled ev limit hcall] at h
      cases h
    · rw [expandWithin_settled ev limit 0 hcall] at h
      cases h
      exact hcall
  | succ left ih =>
    cases hcall : macroCall? m.env scope form with
    | none =>
      have hno : ¬ IsMacroCall m scope form := Option.not_isSome_iff_eq_none.mpr hcall
      rw [expandWithin_settled ev limit (left + 1) hno] at h
      cases h
      exact hno
    | some call =>
      rw [expandWithin_succ ev limit left hcall] at h
      cases hrun : applyClosure ev call.1 call.2 m with
      | done mid m' =>
        rw [hrun] at h
        exact ih h
      | failed e m' =>
        rw [hrun] at h
        cases h
      | brokeOff need =>
        rw [hrun] at h
        cases h

theorem evalIn_succ (host : Host) (fuel : Nat) (scope : ScopeId) (form : Datum) (m : Machine) :
    evalIn host (fuel + 1) scope form m =
      (expand host (evalIn host fuel) scope form m).andThen (evalIn host (fuel + 1) scope) := by
  cases hx : expand host (evalIn host fuel) scope form m with
  | done last n =>
    have hsame : turn host (evalIn host fuel) form scope [] m =
        turn host (evalIn host fuel) last scope [] n := by
      have hlast : expand host (evalIn host fuel) scope last n = .done last n :=
        expandWithin_settled _ _ _ (not_isMacroCall_of_expandWithin hx)
      simp only [turn, hx, hlast]
    have hnested : (fun scope form m => loop host fuel form scope [] m) = evalIn host fuel := rfl
    simp only [Outcome.andThen, evalIn, loop]
    rw [hnested, hsame]
  | failed e n =>
    apply evalIn_answer
    simp only [turn, hx, orAnswer, Outcome.andThen]
  | brokeOff need =>
    apply evalIn_answer
    simp only [turn, hx, orAnswer, Outcome.andThen]

end Eval

namespace Session

open Eval (Expands IsMacroCall Breaks)
open Environment (global)

theorem steady_evalForm (host : Host) (form : Datum) (m : Machine) :
    Steady fun fuel => evalForm host fuel form m := Eval.steady_evalIn host global form m

theorem steady_macroexpand (host : Host) (form : Datum) (m : Machine) :
    Steady fun fuel => macroexpand host fuel form m := Eval.steady_expandWithin ..

/-- To evaluate a form is to expand it and to evaluate what comes out. -/
theorem returns_evalForm_iff :
    Returns (fun fuel => evalForm host fuel form m) o ↔
      Returns (fun fuel => (macroexpand host fuel form m).andThen (evalForm host fuel)) o := by
  constructor
  · rintro ⟨⟨fuel, hrun⟩, hret⟩
    obtain _ | fuel := fuel
    · exact absurd hrun.symm (hret _)
    have hrun' : (macroexpand host fuel form m).andThen (evalForm host (fuel + 1)) = o :=
      (Eval.evalIn_succ host fuel global form m).symm.trans hrun
    have hmore := (steady_macroexpand host form m (Nat.le_succ fuel)).andThen
      fun last n => Outcome.Upto.refl (evalForm host (fuel + 1) last n)
    exact ⟨⟨fuel + 1, (hmore.eq_of_returned (hrun' ▸ hret)).trans hrun'⟩, hret⟩
  · rintro ⟨⟨fuel, rfl⟩, hret⟩
    have hmore := (Outcome.Upto.refl (macroexpand host fuel form m)).andThen
      fun last n => steady_evalForm host last n (Nat.le_succ fuel)
    exact ⟨⟨fuel + 1, (Eval.evalIn_succ host fuel global form m).trans
      (hmore.eq_of_returned hret)⟩, hret⟩

/-- In whatever state, to expand a form and to evaluate what comes out is to evaluate the form: the
value or the error, the output and the state are the same. An expansion succeeds if at most as many
applications as allowed lead to a form that is no macro call, which a further expansion leaves as it
is. It fails with an application that fails; and with an error of its own, exactly if all that is
allowed leads to a macro call still. -/
theorem macroexpand_then_eval (host : Host) (form : Datum) (m : Machine) :
    let limit := host.settings.maxExpansions
    (∀ o, Returns (fun fuel => evalForm host fuel form m) o ↔
      Returns (fun fuel => (macroexpand host fuel form m).andThen (evalForm host fuel)) o) ∧
    (∀ e n, Returns (fun fuel => macroexpand host fuel form m) (.failed e n) →
      Returns (fun fuel => evalForm host fuel form m) (.failed e n)) ∧
    (∀ last n, Returns (fun fuel => macroexpand host fuel form m) (.done last n) ↔
      ∃ k, k ≤ limit ∧ Expands host global k form m last n ∧ ¬ IsMacroCall n global last) ∧
    (∀ last n, Returns (fun fuel => macroexpand host fuel form m) (.done last n) →
      ∀ fuel, macroexpand host fuel last n = .done last n) ∧
    (∀ e n, Breaks host global limit form m e n →
      Returns (fun fuel => macroexpand host fuel form m) (.failed e n)) ∧
    ∀ e n, (Returns (fun fuel => macroexpand host fuel form m) (.failed e n) ∧
        ¬ Breaks host global limit form m e n) ↔
      e = .malformed "macroexpand" (.unsettled limit) ∧
        ∃ last, Expands host global limit form m last n ∧ IsMacroCall n global last := by
  intro limit
  have hexpand : ∀ {o}, Returns (fun fuel => macroexpand host fuel form m) o ↔ _ :=
    Eval.returns_expandWithin_iff
  have hdone : ∀ last n, Returns (fun fuel => macroexpand host fuel form m) (.done last n) ↔
      ∃ k, k ≤ limit ∧ Expands host global k form m last n ∧ ¬ IsMacroCall n global last := by
    intro last n
    rw [hexpand]
    constructor
    · rintro (⟨k, last', n', hle, hexp, hno, heq⟩ | ⟨_, _, _, _, heq⟩ | ⟨_, _, _, heq⟩)
      · cases heq
        exact ⟨k, hle, hexp, hno⟩
      · cases heq
      · cases heq
    · rintro ⟨k, hle, hexp, hno⟩
      exact .inl ⟨k, last, n, hle, hexp, hno, rfl⟩
  refine ⟨fun o => returns_evalForm_iff, fun e n hfails => ?_, hdone, fun last n hret fuel => ?_,
    fun e n hbreaks => hexpand.mpr (.inr (.inr ⟨e, n, hbreaks, rfl⟩)), fun e n => ⟨?_, ?_⟩⟩
  · exact returns_evalForm_iff.mpr ((returns_andThen (steady_macroexpand host form m)
      (steady_evalForm host)).mpr (.inr ⟨e, n, hfails, rfl⟩))
  · obtain ⟨_, _, _, hno⟩ := (hdone last n).mp hret
    exact Eval.expandWithin_settled _ _ _ hno
  · rintro ⟨hfails, hbreaks⟩
    rcases hexpand.mp hfails with ⟨_, _, _, _, _, _, heq⟩ | ⟨last, n', hexp, hyes, heq⟩ |
      ⟨e', n', hbreaks', heq⟩
    · cases heq
    · cases heq
      exact ⟨rfl, last, hexp, hyes⟩
    · cases heq
      exact absurd hbreaks' hbreaks
  · rintro ⟨rfl, last, hexp, hyes⟩
    exact ⟨hexpand.mpr (.inr (.inl ⟨last, n, hexp, hyes, rfl⟩)), hexp.not_breaks _ n⟩

/-- A macro that expands to a call of itself: the evaluation of such a call ends with the error of
its expansion, once the allowed applications are used up. -/
theorem macroexpand_then_eval_runaway :
    let host : Host := ⟨⟨false, 2⟩, fun _ => .unreadable⟩
    let call := Datum.list [.var "again"]
    let again := Datum.closure ⟨0, some "again", ⟨[], none⟩, .form .quote [call], global, true⟩
    ∃ n, Returns (fun fuel => evalForm host fuel call (define "again" again .blank))
      (.failed (.malformed "macroexpand" (.unsettled 2)) n) := by
  intro host call again
  refine ⟨_, (macroexpand_then_eval host call _).2.1 _ _ ⟨⟨1, rfl⟩, ?_⟩⟩
  intro need hneed
  cases hneed

end Session

end TableLisp

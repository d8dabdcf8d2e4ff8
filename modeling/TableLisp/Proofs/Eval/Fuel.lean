import TableLisp.Proofs.Eval.Plain

/-! More steps change no answer. `Upto` says that an outcome is another one unless it ran out of
steps; every rule passes this on from the evaluations nested in it, and so an evaluation that ends
within some number of steps ends alike within any greater number. -/

namespace TableLisp

/-- The first outcome ran out of steps, or it is the second. -/
def Outcome.Upto {α : Type} (o o' : Outcome α) : Prop := o = .brokeOff .steps ∨ o' = o

/-- The evaluations of `ev` are those of `ev'`, as far as its steps last. -/
def Evaluator.Upto (ev ev' : Evaluator) : Prop :=
  ∀ scope form m, (ev scope form m).Upto (ev' scope form m)

namespace Outcome

variable {α β : Type} {o o' : Outcome α}

theorem Upto.refl (o : Outcome α) : o.Upto o := .inr rfl

theorem Upto.trans {o'' : Outcome α} (h : o.Upto o') (h' : o'.Upto o'') : o.Upto o'' := by
  rcases h with h | rfl
  · exact .inl h
  · exact h'

theorem Upto.andThen {f g : α → Machine → Outcome β} (h : o.Upto o')
    (hf : ∀ value m, (f value m).Upto (g value m)) : (o.andThen f).Upto (o'.andThen g) := by
  rcases h with rfl | rfl
  · exact .inl rfl
  · cases o' with
    | done value m => exact hf value m
    | failed e m => exact .refl _
    | brokeOff need => exact .refl _

theorem Upto.mapMachine (h : o.Upto o') (f : Machine → Machine) :
    (o.mapMachine f).Upto (o'.mapMachine f) := by
  rcases h with rfl | rfl
  · exact .inl rfl
  · exact .refl _

end Outcome

namespace Eval

open Outcome (Upto)

section

variable {ev ev' : Datum → Machine → Outcome Datum}

theorem upto_each (h : ∀ form m, (ev form m).Upto (ev' form m)) (forms : List Datum)
    (m : Machine) : (each ev forms m).Upto (each ev' forms m) := by
  induction forms generalizing m with
  | nil => exact .refl _
  | cons form more ih =>
    exact (h form m).andThen fun value m => (ih m).andThen fun values m => .refl _

theorem upto_eachEntry (h : ∀ form m, (ev form m).Upto (ev' form m)) (entries : Entries)
    (m : Machine) : (eachEntry ev entries m).Upto (eachEntry ev' entries m) := by
  induction entries generalizing m with
  | nil => exact .refl _
  | cons e more ih =>
    exact (h _ m).andThen fun key m => (h _ m).andThen fun value m =>
      (ih m).andThen fun entries m => .refl _

theorem upto_leading (h : ∀ form m, (ev form m).Upto (ev' form m)) (forms : List Datum)
    (m : Machine) : (leading ev forms m).Upto (leading ev' forms m) := by
  induction forms generalizing m with
  | nil => exact .refl _
  | cons form more ih =>
    cases more with
    | nil => exact .refl _
    | cons next more => exact (h form m).andThen fun _ m => ih m

end

variable {ev ev' : Evaluator}

theorem upto_literal (h : ev.Upto ev') (scope : ScopeId) (form : Datum) (m : Machine) :
    (literal ev scope form m).Upto (literal ev' scope form m) := by
  cases form with
  | vector items => exact (upto_each (h scope) items m).andThen fun values m => .refl _
  | map entries => exact (upto_eachEntry (h scope) entries m).andThen fun pairs m => .refl _
  | _ => exact .refl _

theorem upto_define (h : ev.Upto ev') (scope : ScopeId) (operands : List Datum) (m : Machine) :
    (define ev scope operands m).Upto (define ev' scope operands m) := by
  rcases operands with _ | ⟨target, _ | ⟨form, _ | ⟨x, more⟩⟩⟩
  case cons.cons.nil =>
    simp only [define]
    cases bindingName .define target with
    | error e => exact .refl _
    | ok name => exact (h scope form m).andThen fun value m => .refl _
  all_goals exact .refl _

theorem upto_bindPairs (h : ev.Upto ev') (scope : ScopeId) (forms : List Datum) (m : Machine) :
    (bindPairs ev scope forms m).Upto (bindPairs ev' scope forms m) := by
  fun_induction bindPairs ev scope forms m with
  | case1 target form more m e hname =>
    simp only [bindPairs, hname]
    exact .refl _
  | case2 target form more m name hname ih =>
    simp only [bindPairs, hname]
    exact (h scope form m).andThen fun value m => ih value m
  | case3 forms m hne =>
    rcases forms with _ | ⟨x, _ | ⟨y, more⟩⟩
    · exact .refl _
    · exact .refl _
    · exact absurd rfl (hne x y more)

theorem upto_enterLet (h : ev.Upto ev') (scope : ScopeId) (operands : List Datum) (m : Machine) :
    (enterLet ev scope operands m).Upto (enterLet ev' scope operands m) := by
  unfold enterLet
  cases bindingForms operands with
  | error e => exact .refl _
  | ok forms =>
    exact (upto_bindPairs h scope forms m).andThen fun _ m => upto_leading (h scope) _ m

theorem upto_applyClosure (h : ev.Upto ev') (c : Closure Datum) (args : List Datum)
    (m : Machine) : (applyClosure ev c args m).Upto (applyClosure ev' c args m) :=
  (Upto.refl _).andThen fun scope m => (h scope c.body m).mapMachine _

theorem upto_expandWithin (h : ev.Upto ev') (scope : ScopeId) (limit left : Nat) (form : Datum)
    (m : Machine) :
    (expandWithin ev scope limit left form m).Upto (expandWithin ev' scope limit left form m) := by
  induction left generalizing form m with
  | zero => exact .refl _
  | succ left ih =>
    unfold expandWithin
    cases macroCall? m.env scope form with
    | none => exact .refl _
    | some call => exact (upto_applyClosure h call.1 call.2 m).andThen fun form m => ih form m

/-- The first turn ran out of steps, or it is the second. -/
def Turn.Upto (t t' : Turn) : Prop := (∃ owned, t = .answer (.brokeOff .steps) owned) ∨ t' = t

theorem Turn.Upto.refl (t : Turn) : t.Upto t := .inr rfl

theorem upto_answer {o o' : Outcome Datum} (h : o.Upto o') (owned : List ScopeId) :
    (Turn.answer o owned).Upto (.answer o' owned) := by
  rcases h with rfl | rfl
  · exact .inl ⟨owned, rfl⟩
  · exact .refl _

theorem upto_orAnswer {α : Type} {o o' : Outcome α} {f g : α → Machine → Turn}
    (h : o.Upto o') (hf : ∀ value m, (f value m).Upto (g value m)) (owned : List ScopeId) :
    (orAnswer o owned f).Upto (orAnswer o' owned g) := by
  rcases h with rfl | rfl
  · exact .inl ⟨owned, rfl⟩
  · cases o' with
    | done value m => exact hf value m
    | failed e m => exact .refl _
    | brokeOff need => exact .refl _

theorem upto_turnAttempt (h : ev.Upto ev') (operands : List Datum) (scope : ScopeId)
    (owned : List ScopeId) (m : Machine) :
    (turnAttempt ev operands scope owned m).Upto (turnAttempt ev' operands scope owned m) := by
  unfold turnAttempt
  cases parseAttempt operands with
  | error e => exact .refl _
  | ok attempt =>
    dsimp only
    rcases h scope attempt.body m with ho | ho
    · rw [ho]
      exact .inl ⟨owned, rfl⟩
    · rw [ho]
      exact .refl _

theorem upto_turnSpecial (h : ev.Upto ev') (host : Host) (head : SpecialForm)
    (operands : List Datum) (scope : ScopeId) (owned : List ScopeId) (m : Machine) :
    (turnSpecial host ev head operands scope owned m).Upto
      (turnSpecial host ev' head operands scope owned m) := by
  cases head with
  | define => exact upto_answer (upto_define h ..) owned
  | letStar => exact upto_orAnswer (upto_enterLet h ..) (fun form m => .refl _) _
  | sequence => exact upto_orAnswer (upto_leading (h scope) ..) (fun form m => .refl _) owned
  | branch =>
    rcases operands with _ | ⟨test, _ | ⟨yes, _ | ⟨no, _ | ⟨x, more⟩⟩⟩⟩
    · exact .refl _
    · exact .refl _
    · exact upto_orAnswer (h scope test m) (fun value m => .refl _) owned
    · exact upto_orAnswer (h scope test m) (fun value m => .refl _) owned
    · exact .refl _
  | macroexpand =>
    rcases operands with _ | ⟨x, _ | ⟨y, more⟩⟩
    · exact .refl _
    · exact upto_answer (upto_expandWithin h ..) owned
    · exact .refl _
  | attempt => exact upto_turnAttempt h ..
  | _ => exact .refl _

theorem upto_turnCall (h : ev.Upto ev') (host : Host) (head : Datum) (operands : List Datum)
    (scope : ScopeId) (owned : List ScopeId) (m : Machine) :
    (turnCall host ev head operands scope owned m).Upto
      (turnCall host ev' head operands scope owned m) :=
  upto_orAnswer (upto_each (h scope) operands m) (fun _ m =>
    upto_orAnswer (h scope head m) (fun _ _ => .refl _) owned) owned

theorem upto_turn (h : ev.Upto ev') (host : Host) (form : Datum) (scope : ScopeId)
    (owned : List ScopeId) (m : Machine) :
    (turn host ev form scope owned m).Upto (turn host ev' form scope owned m) := by
  refine upto_orAnswer (upto_expandWithin h ..) (fun form m => ?_) owned
  rcases form with _ | _ | _ | _ | _ | _ | _ | _ | _ | (_ | ⟨head, operands⟩) | _ | _ | _ | _ | _
  case list.cons =>
    rcases head with _ | _ | _ | _ | _ | _ | _ | (_ | head) | _ | _ | _ | _ | _ | _ | _
    case symbol.special => exact upto_turnSpecial h ..
    all_goals exact upto_turnCall h ..
  all_goals exact upto_answer (upto_literal h ..) owned

theorem upto_loop (host : Host) (fuel : Nat) (form : Datum) (scope : ScopeId)
    (owned : List ScopeId) (m : Machine) :
    (loop host fuel form scope owned m).Upto (loop host (fuel + 1) form scope owned m) := by
  induction fuel generalizing form scope owned m with
  | zero => exact .inl rfl
  | succ fuel ih =>
    have hev : Evaluator.Upto (fun scope form m => loop host fuel form scope [] m)
        (fun scope form m => loop host (fuel + 1) form scope [] m) :=
      fun scope form m => ih form scope [] m
    rw [loop, loop]
    rcases upto_turn hev host form scope owned m with ⟨owned', ht⟩ | ht
    · rw [ht]
      exact .inl rfl
    · rw [ht]
      cases turn host _ form scope owned m with
      | answer o owned => exact .refl _
      | onward form scope owned m => exact ih form scope owned m

theorem upto_evalIn (host : Host) {fuel fuel' : Nat} (hle : fuel ≤ fuel') :
    Evaluator.Upto (evalIn host fuel) (evalIn host fuel') := by
  intro scope form m
  induction hle with
  | refl => exact .refl _
  | step _ ih => exact ih.trans (upto_loop ..)

end Eval

namespace Plain

variable {ev ev' : Evaluator}

theorem upto_callClosure (h : ev.Upto ev') (c : Closure Datum) (args : List Datum) (m : Machine) :
    (callClosure ev c args m).Upto (callClosure ev' c args m) :=
  (Outcome.Upto.refl _).andThen fun scope m => h scope c.body m

theorem upto_expandWithin (h : ev.Upto ev') (scope : ScopeId) (limit left : Nat) (form : Datum)
    (m : Machine) :
    (expandWithin ev scope limit left form m).Upto (expandWithin ev' scope limit left form m) := by
  induction left generalizing form m with
  | zero => exact .refl _
  | succ left ih =>
    unfold expandWithin
    cases Eval.macroCall? m.env scope form with
    | none => exact .refl _
    | some call => exact (upto_callClosure h call.1 call.2 m).andThen fun form m => ih form m

theorem upto_attempt (h : ev.Upto ev') (scope : ScopeId) (operands : List Datum) (m : Machine) :
    (attempt ev scope operands m).Upto (attempt ev' scope operands m) := by
  unfold attempt
  cases Eval.parseAttempt operands with
  | error e => exact .refl _
  | ok attempt =>
    dsimp only
    rcases h scope attempt.body m with ho | ho
    · rw [ho]
      exact .inl rfl
    · rw [ho]
      cases ev scope attempt.body m with
      | done value m => exact .refl _
      | brokeOff need => exact .refl _
      | failed e m =>
        cases attempt.handler with
        | none => exact .refl _
        | some handler => exact h _ handler.2 _

theorem upto_special (h : ev.Upto ev') (host : Host) (head : SpecialForm) (operands : List Datum)
    (scope : ScopeId) (m : Machine) :
    (special host ev head operands scope m).Upto (special host ev' head operands scope m) := by
  cases head with
  | define => exact Eval.upto_define h ..
  | letStar =>
    simp only [special, letStar_eq]
    exact (Eval.upto_enterLet h ..).andThen (h _)
  | sequence =>
    simp only [special, sequence_eq]
    exact (Eval.upto_leading (h scope) ..).andThen (h scope)
  | branch =>
    rcases operands with _ | ⟨test, _ | ⟨yes, _ | ⟨no, _ | ⟨x, more⟩⟩⟩⟩
    · exact .refl _
    · exact .refl _
    · exact (h scope test m).andThen fun value m => h scope _ m
    · exact (h scope test m).andThen fun value m => h scope _ m
    · exact .refl _
  | quasiquote =>
    rcases operands with _ | ⟨x, _ | ⟨y, more⟩⟩
    · exact .refl _
    · exact (Outcome.Upto.refl _).andThen fun form m => h scope form m
    · exact .refl _
  | macroexpand =>
    rcases operands with _ | ⟨x, _ | ⟨y, more⟩⟩
    · exact .refl _
    · exact upto_expandWithin h ..
    · exact .refl _
  | attempt => exact upto_attempt h ..
  | _ => exact .refl _

theorem upto_call (h : ev.Upto ev') (host : Host) (head : Datum) (operands : List Datum)
    (scope : ScopeId) (m : Machine) :
    (call host ev head operands scope m).Upto (call host ev' head operands scope m) := by
  refine (Eval.upto_each (h scope) operands m).andThen fun args m => ?_
  refine (h scope head m).andThen fun function m => ?_
  cases function with
  | closure c => exact upto_callClosure h c args m
  | _ => exact .refl _

theorem upto_step (h : ev.Upto ev') (host : Host) : (step host ev).Upto (step host ev') := by
  intro scope form m
  refine (upto_expandWithin h ..).andThen fun form m => ?_
  rcases form with _ | _ | _ | _ | _ | _ | _ | _ | _ | (_ | ⟨head, operands⟩) | _ | _ | _ | _ | _
  case list.cons =>
    rcases head with _ | _ | _ | _ | _ | _ | _ | (_ | head) | _ | _ | _ | _ | _ | _ | _
    case symbol.special => exact upto_special h ..
    all_goals exact upto_call h ..
  all_goals exact Eval.upto_literal h ..

theorem upto_succ (host : Host) (fuel : Nat) : (eval host fuel).Upto (eval host (fuel + 1)) := by
  induction fuel with
  | zero => exact fun scope form m => .inl rfl
  | succ fuel ih => exact upto_step ih host

theorem upto_eval (host : Host) {fuel fuel' : Nat} (hle : fuel ≤ fuel') :
    Evaluator.Upto (eval host fuel) (eval host fuel') := by
  intro scope form m
  induction hle with
  | refl => exact .refl _
  | step _ ih => exact ih.trans (upto_succ host _ scope form m)

end Plain

end TableLisp

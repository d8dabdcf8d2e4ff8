import TableLisp.Session

/-! Evaluation one turn at a time: which turn a form leads to, and what the loop makes of it. With
these equations the loop itself need not be opened to say how a given form evaluates. -/

namespace TableLisp.Eval

variable {host : Host} {ev : Evaluator} {scope : ScopeId} {owned : List ScopeId} {m : Machine}

theorem expand_of_none {form : Datum} (h : macroCall? m.env scope form = none) :
    expand host ev scope form m = .done form m := by
  simp only [expand]
  cases host.settings.maxExpansions with
  | zero => simp only [expandWithin, h]
  | succ limit => simp only [expandWithin, h]

theorem turn_form (head : SpecialForm) (operands : List Datum) :
    turn host ev (.form head operands) scope owned m =
      turnSpecial host ev head operands scope owned m := by
  have hnone : macroCall? m.env scope (.form head operands) = none := rfl
  simp only [turn, expand_of_none hnone]
  rfl

theorem turn_call {head : Datum} (operands : List Datum)
    (hhead : ∀ form, head ≠ .symbol (.special form))
    (hnone : macroCall? m.env scope (.list (head :: operands)) = none) :
    turn host ev (.list (head :: operands)) scope owned m =
      turnCall host ev head operands scope owned m := by
  simp only [turn, expand_of_none hnone, orAnswer]

variable {fuel : Nat} {form : Datum}

theorem loop_answer {o : Outcome Datum} {owned' : List ScopeId}
    (h : turn host (evalIn host fuel) form scope owned m = .answer o owned') :
    loop host (fuel + 1) form scope owned m =
      o.mapMachine fun m => { m with env := m.env.releaseAll owned' } := by
  have hnested : (fun scope form m => loop host fuel form scope [] m) = evalIn host fuel := rfl
  rw [loop, hnested, h]

theorem loop_onward {next : Datum} {scope' : ScopeId} {owned' : List ScopeId} {m' : Machine}
    (h : turn host (evalIn host fuel) form scope owned m = .onward next scope' owned' m') :
    loop host (fuel + 1) form scope owned m = loop host fuel next scope' owned' m' := by
  have hnested : (fun scope form m => loop host fuel form scope [] m) = evalIn host fuel := rfl
  rw [loop, hnested, h]

/-- An evaluation that ends with its first turn owns no scope to release. -/
theorem evalIn_answer {o : Outcome Datum}
    (h : turn host (evalIn host fuel) form scope [] m = .answer o []) :
    evalIn host (fuel + 1) scope form m = o := by
  rw [evalIn, loop_answer h]
  cases o <;> rfl

theorem evalIn_literal (h : ∀ head operands, form ≠ .list (head :: operands)) :
    evalIn host (fuel + 1) scope form m = literal (evalIn host fuel) scope form m := by
  apply evalIn_answer
  rcases form with _ | _ | _ | _ | _ | _ | _ | _ | _ | (_ | ⟨head, operands⟩) | _ | _ | _ | _ | _
  case list.cons => exact absurd rfl (h head operands)
  all_goals
    rw [turn, expand_of_none rfl]
    rfl

theorem evalIn_quote (d : Datum) :
    evalIn host (fuel + 1) scope (.form .quote [d]) m = .done d m := by
  apply evalIn_answer
  rw [turn_form]
  rfl

theorem evalIn_quasiquote {t : Datum} (h : Template.expand t = .ok form) :
    evalIn host (fuel + 1) scope (.form .quasiquote [t]) m = evalIn host fuel scope form m := by
  apply loop_onward
  rw [turn_form]
  simp only [turnSpecial, h, Outcome.ofExcept, orAnswer]

theorem evalIn_primitive {name : String} {operands args : List Datum} {p : Primitive} {m' : Machine}
    (hcall : macroCall? m.env scope (.list (.var name :: operands)) = none)
    (hargs : each (evalIn host (fuel + 1) scope) operands m = .done args m')
    (hp : m'.env.lookup scope name = some (.primitive p)) :
    evalIn host (fuel + 2) scope (.list (.var name :: operands)) m = p.apply host args m' := by
  have hname : evalIn host (fuel + 1) scope (.var name) m' = .done (.primitive p) m' := by
    rw [evalIn_literal (by simp [Datum.var])]
    simp only [Datum.var, literal, Symbol.name, Environment.get, hp, Outcome.ofExcept]
  apply evalIn_answer
  rw [turn_call operands (by simp [Datum.var]) hcall]
  simp only [turnCall, hargs, hname, orAnswer]

end TableLisp.Eval

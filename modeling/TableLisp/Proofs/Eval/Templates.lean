import TableLisp.Proofs.Eval.Fuel
import TableLisp.Proofs.Eval.Rules

/-! Templates mean what they say. A template has holes, the forms that are unquoted or spliced in it,
from left to right; to instantiate it is to put values in their place. The form that a template
expands to evaluates the holes in their order and then gives the template instantiated with their
values. A template has no expansion exactly if in one of its holes there is not one form alone. -/

namespace TableLisp.Template

/-- A part of a template that is itself taken as a template. -/
inductive Covers : Datum → Datum → Prop where
  | whole {t : Datum} : Covers t t
  | ofList {items : List Datum} {item d : Datum} : Datum.isForm .unquote (.list items) = false →
      item ∈ items → item.isForm .spliceUnquote = false → Covers item d → Covers (.list items) d
  | ofVector {items : List Datum} {item d : Datum} : item ∈ items →
      item.isForm .spliceUnquote = false → Covers item d → Covers (.vector items) d

/-- An element of a list or vector that is taken as a template. -/
def Element (t d : Datum) : Prop :=
  ∃ items, d ∈ items ∧ (Covers t (.vector items) ∨
    Covers t (.list items) ∧ Datum.isForm .unquote (.list items) = false)

/-- An unquoted part, or a spliced element, does not have one operand. -/
def Malformed (t : Datum) : Prop :=
  (∃ operands, Covers t (.form .unquote operands) ∧ operands.length ≠ 1) ∨
    ∃ operands, Element t (.form .spliceUnquote operands) ∧ operands.length ≠ 1

/-- A place in a template for the value of a form, or for the elements of it. -/
structure Hole where
  spliced : Bool
  form : Datum

/-- What stands after the head of a list. -/
def operandsOf : Datum → List Datum
  | .list (_ :: operands) => operands
  | _ => []

mutual

/-- The holes of a template from left to right. -/
def holes : Datum → List Hole
  | .list items =>
    if Datum.isForm .unquote (.list items) then (operandsOf (.list items)).map (⟨false, ·⟩)
    else itemHoles items
  | .vector items => itemHoles items
  | _ => []

def itemHoles : List Datum → List Hole
  | [] => []
  | item :: more =>
    (if item.isForm .spliceUnquote then (operandsOf item).map (⟨true, ·⟩) else holes item) ++
      itemHoles more

end

/-- The elements of a list or vector; nil has none. -/
def elements? : Datum → Option (List Datum)
  | .nil => some []
  | .list items => some items
  | .vector items => some items
  | _ => none

mutual

/-- The template with values in its holes. -/
def instantiate : Datum → List Datum → Datum
  | .list items, values =>
    if Datum.isForm .unquote (.list items) then values.headD .nil
    else .list (instantiateItems items values)
  | .vector items, values => .vector (instantiateItems items values)
  | other, _ => other

def instantiateItems : List Datum → List Datum → List Datum
  | [], _ => []
  | item :: more, values =>
    if item.isForm .spliceUnquote then
      (elements? (values.headD .nil)).getD [] ++ instantiateItems more (values.drop 1)
    else
      instantiate item (values.take (holes item).length) ::
        instantiateItems more (values.drop (holes item).length)

end

/-- The holes are evaluated one after the other, the spliced ones to what has elements, and `P`
holds before and after each of them. -/
inductive Filled (E : Datum → Machine → Datum → Machine → Prop) (P : Machine → Prop) :
    List Hole → Machine → List Datum → Machine → Prop where
  | nil {m : Machine} : P m → Filled E P [] m [] m
  | cons {hole : Hole} {more : List Hole} {m n m' : Machine} {value : Datum} {values : List Datum} :
      P m → E hole.form m value n → (hole.spliced = true → (elements? value).isSome = true) →
      Filled E P more n values m' → Filled E P (hole :: more) m (value :: values) m'

/-- The form has this value in the scope, given enough steps. -/
def Evaluates (host : Host) (scope : ScopeId) (form : Datum) (m : Machine) (value : Datum)
    (m' : Machine) : Prop :=
  ∃ steps, Eval.evalIn host steps scope form m = .done value m'

/-- The functions that templates are built with have their usual names. -/
def Standard (scope : ScopeId) (m : Machine) : Prop :=
  ∀ op ∈ [SequenceOp.cons, .concat, .list, .toVector],
    m.env.lookup scope op.name = some (.primitive (.sequence op))

theorem isForm_iff {head : SpecialForm} {d : Datum} :
    d.isForm head = true ↔ ∃ operands, d = .form head operands := by
  constructor
  · intro h
    unfold Datum.isForm at h
    split at h
    · rename_i operands
      exact ⟨operands, by rw [Datum.form, eq_of_beq h]⟩
    · cases h
  · rintro ⟨operands, rfl⟩
    simp [Datum.form, Datum.isForm]

theorem isForm_eq_false {head : SpecialForm} {d : Datum} (h : ∀ operands, d ≠ .form head operands) :
    d.isForm head = false := by
  rw [← Bool.not_eq_true, isForm_iff]
  rintro ⟨operands, hform⟩
  exact h operands hform

theorem splice?_of_not {item : Datum} (h : item.isForm .spliceUnquote = false) :
    splice? item = none := by
  unfold splice?
  split
  · simp [Datum.isForm] at h
  · rfl

theorem splice?_eq_ok {operands : List Datum} {x : Datum}
    (h : splice? (.form .spliceUnquote operands) = some (.ok x)) : operands = [x] := by
  rcases operands with _ | ⟨y, _ | ⟨z, more⟩⟩
  · cases h
  · cases h
    rfl
  · cases h

theorem splice?_eq_error {operands : List Datum} {e : Error}
    (h : splice? (.form .spliceUnquote operands) = some (.error e)) :
    e = .malformed "splice-unquote" .oneOperand ∧ operands.length ≠ 1 := by
  rcases operands with _ | ⟨y, _ | ⟨z, more⟩⟩
  · cases h
    exact ⟨rfl, by simp⟩
  · cases h
  · cases h
    exact ⟨rfl, by simp⟩

/-- An expansion of items takes the first of them in one of two ways. -/
theorem expandItems_cons_ok {item form : Datum} {more : List Datum}
    (h : expandItems (item :: more) = .ok form) :
    ∃ tail, expandItems more = .ok tail ∧
      ((∃ x, item = .form .spliceUnquote [x] ∧ form = .list [.named "concat", x, tail]) ∨
        item.isForm .spliceUnquote = false ∧
          ∃ x, expand item = .ok x ∧ form = .list [.named "cons", x, tail]) := by
  rw [expandItems] at h
  split at h
  · cases h
  · rename_i tail htail
    refine ⟨tail, htail, ?_⟩
    by_cases hsplice : item.isForm .spliceUnquote = true
    · obtain ⟨operands, rfl⟩ := isForm_iff.mp hsplice
      split at h
      · cases h
      · rename_i x hx
        cases h
        exact .inl ⟨x, by rw [splice?_eq_ok hx], rfl⟩
      · rename_i hx
        rcases operands with _ | ⟨y, _ | ⟨z, more⟩⟩ <;> cases hx
    · rw [Bool.not_eq_true] at hsplice
      rw [splice?_of_not hsplice] at h
      dsimp only at h
      split at h
      · cases h
      · rename_i x hx
        cases h
        exact .inr ⟨hsplice, x, hx, rfl⟩

theorem expand_unquote_ok {operands : List Datum} {form : Datum}
    (h : expand (.form .unquote operands) = .ok form) : operands = [form] := by
  rcases operands with _ | ⟨x, _ | ⟨y, more⟩⟩
  · cases h
  · cases h
    rfl
  · cases h

theorem expand_list_ok {items : List Datum} {form : Datum}
    (hnot : Datum.isForm .unquote (.list items) = false) (h : expand (.list items) = .ok form) :
    items = [] ∧ form = quoted (.list []) ∨ expandItems items = .ok form := by
  unfold expand at h
  split at h
  · rename_i hempty
    obtain rfl := List.isEmpty_iff.mp hempty
    cases h
    exact .inl ⟨rfl, rfl⟩
  · rw [hnot, if_neg Bool.false_ne_true] at h
    exact .inr h

theorem expand_vector_ok {items : List Datum} {form : Datum}
    (h : expand (.vector items) = .ok form) :
    items = [] ∧ form = quoted (.vector []) ∨
      ∃ built, expandItems items = .ok built ∧ form = .list [.named "vec", built] := by
  rw [expand] at h
  split at h
  · rename_i hempty
    obtain rfl := List.isEmpty_iff.mp hempty
    cases h
    exact .inl ⟨rfl, rfl⟩
  · split at h
    · rename_i built hbuilt
      cases h
      exact .inr ⟨built, hbuilt, rfl⟩
    · cases h

theorem Element.ofList {items : List Datum} {item d : Datum} (h : Element item d)
    (hnot : Datum.isForm .unquote (.list items) = false) (hmem : item ∈ items)
    (hplain : item.isForm .spliceUnquote = false) : Element (.list items) d := by
  obtain ⟨inner, hin, hvector | ⟨hlist, hinner⟩⟩ := h
  · exact ⟨inner, hin, .inl (.ofList hnot hmem hplain hvector)⟩
  · exact ⟨inner, hin, .inr ⟨.ofList hnot hmem hplain hlist, hinner⟩⟩

theorem Element.ofVector {items : List Datum} {item d : Datum} (h : Element item d)
    (hmem : item ∈ items) (hplain : item.isForm .spliceUnquote = false) :
    Element (.vector items) d := by
  obtain ⟨inner, hin, hvector | ⟨hlist, hinner⟩⟩ := h
  · exact ⟨inner, hin, .inl (.ofVector hmem hplain hvector)⟩
  · exact ⟨inner, hin, .inr ⟨.ofVector hmem hplain hlist, hinner⟩⟩

/-- What is wrong with an element. -/
def BadItem (item : Datum) : Prop :=
  (∃ operands, item = .form .spliceUnquote operands ∧ operands.length ≠ 1) ∨
    item.isForm .spliceUnquote = false ∧ Malformed item

theorem BadItem.ofList {items : List Datum} {item : Datum} (hbad : BadItem item)
    (hnot : Datum.isForm .unquote (.list items) = false) (hmem : item ∈ items) :
    Malformed (.list items) := by
  rcases hbad with ⟨operands, rfl, hlength⟩ | ⟨hplain, ⟨operands, hcovers, hlength⟩ |
    ⟨operands, helement, hlength⟩⟩
  · exact .inr ⟨operands, ⟨items, hmem, .inr ⟨.whole, hnot⟩⟩, hlength⟩
  · exact .inl ⟨operands, .ofList hnot hmem hplain hcovers, hlength⟩
  · exact .inr ⟨operands, helement.ofList hnot hmem hplain, hlength⟩

theorem BadItem.ofVector {items : List Datum} {item : Datum} (hbad : BadItem item)
    (hmem : item ∈ items) : Malformed (.vector items) := by
  rcases hbad with ⟨operands, rfl, hlength⟩ | ⟨hplain, ⟨operands, hcovers, hlength⟩ |
    ⟨operands, helement, hlength⟩⟩
  · exact .inr ⟨operands, ⟨items, hmem, .inl .whole⟩, hlength⟩
  · exact .inl ⟨operands, .ofVector hmem hplain hcovers, hlength⟩
  · exact .inr ⟨operands, helement.ofVector hmem hplain, hlength⟩

mutual

theorem malformed_of_error {t : Datum} {e : Error} (h : expand t = .error e) :
    (∃ name, e = .malformed name .oneOperand) ∧ Malformed t := by
  cases t with
  | list items =>
    by_cases hunquote : Datum.isForm .unquote (.list items) = true
    · obtain ⟨operands, hform⟩ := isForm_iff.mp hunquote
      rw [hform] at h ⊢
      rcases operands with _ | ⟨x, _ | ⟨y, more⟩⟩
      · cases h
        exact ⟨⟨_, rfl⟩, .inl ⟨[], .whole, by simp⟩⟩
      · cases h
      · cases h
        exact ⟨⟨_, rfl⟩, .inl ⟨x :: y :: more, .whole, by simp⟩⟩
    · rw [Bool.not_eq_true] at hunquote
      unfold expand at h
      split at h
      · cases h
      · rw [hunquote, if_neg Bool.false_ne_true] at h
        obtain ⟨hname, item, hmem, hbad⟩ := bad_of_error h
        exact ⟨hname, hbad.ofList hunquote hmem⟩
  | vector items =>
    rw [expand] at h
    split at h
    · cases h
    · split at h
      · cases h
      · rename_i hitems
        cases h
        obtain ⟨hname, item, hmem, hbad⟩ := bad_of_error hitems
        exact ⟨hname, hbad.ofVector hmem⟩
  | _ => cases h

theorem bad_of_error {items : List Datum} {e : Error} (h : expandItems items = .error e) :
    (∃ name, e = .malformed name .oneOperand) ∧ ∃ item ∈ items, BadItem item := by
  cases items with
  | nil => cases h
  | cons item more =>
    rw [expandItems] at h
    split at h
    · rename_i htail
      cases h
      obtain ⟨hname, bad, hmem, hbad⟩ := bad_of_error htail
      exact ⟨hname, bad, List.mem_cons_of_mem _ hmem, hbad⟩
    · by_cases hsplice : item.isForm .spliceUnquote = true
      · obtain ⟨operands, rfl⟩ := isForm_iff.mp hsplice
        split at h
        · rename_i e' he
          cases h
          obtain ⟨rfl, hlength⟩ := splice?_eq_error he
          exact ⟨⟨_, rfl⟩, _, List.mem_cons_self, .inl ⟨operands, rfl, hlength⟩⟩
        · cases h
        · rename_i hx
          rcases operands with _ | ⟨y, _ | ⟨z, more⟩⟩ <;> cases hx
      · rw [Bool.not_eq_true] at hsplice
        rw [splice?_of_not hsplice] at h
        dsimp only at h
        split at h
        · rename_i hx
          cases h
          obtain ⟨hname, hbad⟩ := malformed_of_error hx
          exact ⟨hname, item, List.mem_cons_self, .inr ⟨hsplice, hbad⟩⟩
        · cases h

end

theorem ok_of_mem {items : List Datum} {item form : Datum} (h : expandItems items = .ok form)
    (hmem : item ∈ items) :
    (∃ x, item = .form .spliceUnquote [x]) ∨
      item.isForm .spliceUnquote = false ∧ ∃ x, expand item = .ok x := by
  induction items generalizing form with
  | nil => cases hmem
  | cons first more ih =>
    obtain ⟨tail, htail, hfirst⟩ := expandItems_cons_ok h
    rcases List.mem_cons.mp hmem with rfl | hmem
    · rcases hfirst with ⟨x, hx, _⟩ | ⟨hplain, x, hx, _⟩
      · exact .inl ⟨x, hx⟩
      · exact .inr ⟨hplain, x, hx⟩
    · exact ih htail hmem

/-- With a template every part of it that is taken as a template has an expansion. -/
theorem ok_of_covers {t d : Datum} (hcovers : Covers t d) (h : ∃ form, expand t = .ok form) :
    ∃ form, expand d = .ok form := by
  induction hcovers with
  | whole => exact h
  | ofList hnot hmem hplain _ ih =>
    obtain ⟨form, h⟩ := h
    apply ih
    rcases expand_list_ok hnot h with ⟨rfl, _⟩ | hitems
    · cases hmem
    · rcases ok_of_mem hitems hmem with ⟨x, rfl⟩ | ⟨_, hitem⟩
      · cases hplain
      · exact hitem
  | ofVector hmem hplain _ ih =>
    obtain ⟨form, h⟩ := h
    apply ih
    rcases expand_vector_ok h with ⟨rfl, _⟩ | ⟨built, hitems, _⟩
    · cases hmem
    · rcases ok_of_mem hitems hmem with ⟨x, rfl⟩ | ⟨_, hitem⟩
      · cases hplain
      · exact hitem

theorem not_malformed_of_ok {t form : Datum} (h : expand t = .ok form) : ¬ Malformed t := by
  rintro (⟨operands, hcovers, hlength⟩ | ⟨operands, ⟨items, hmem, hat⟩, hlength⟩)
  · obtain ⟨x, hx⟩ := ok_of_covers hcovers ⟨form, h⟩
    rw [expand_unquote_ok hx] at hlength
    exact hlength rfl
  · have hitems : ∃ built, expandItems items = .ok built := by
      rcases hat with hcovers | ⟨hcovers, hnot⟩
      · obtain ⟨x, hx⟩ := ok_of_covers hcovers ⟨form, h⟩
        rcases expand_vector_ok hx with ⟨rfl, _⟩ | ⟨built, hbuilt, _⟩
        · cases hmem
        · exact ⟨built, hbuilt⟩
      · obtain ⟨x, hx⟩ := ok_of_covers hcovers ⟨form, h⟩
        rcases expand_list_ok hnot hx with ⟨rfl, _⟩ | hbuilt
        · cases hmem
        · exact ⟨x, hbuilt⟩
    obtain ⟨built, hbuilt⟩ := hitems
    rcases ok_of_mem hbuilt hmem with ⟨x, hx⟩ | ⟨hplain, _⟩
    · cases hx
      exact hlength rfl
    · cases hplain

section

variable {host : Host} {scope : ScopeId} {m n m' : Machine} {form value : Datum}
variable {E : Datum → Machine → Datum → Machine → Prop} {P : Machine → Prop}

theorem Filled.first {hs : List Hole} {values : List Datum} (h : Filled E P hs m values m') :
    P m := by
  cases h with
  | nil hP => exact hP
  | cons hP _ _ _ => exact hP

theorem Filled.last {hs : List Hole} {values : List Datum} (h : Filled E P hs m values m') :
    P m' := by
  induction h with
  | nil hP => exact hP
  | cons _ _ _ _ ih => exact ih

theorem Filled.split {hs ks : List Hole} {values : List Datum}
    (h : Filled E P (hs ++ ks) m values m') :
    ∃ n, Filled E P hs m (values.take hs.length) n ∧
      Filled E P ks n (values.drop hs.length) m' := by
  induction hs generalizing m values with
  | nil => exact ⟨m, .nil h.first, h⟩
  | cons hole more ih =>
    cases h with
    | cons hP hE hsome hrest =>
      obtain ⟨n, hleft, hright⟩ := ih hrest
      exact ⟨n, .cons hP hE hsome hleft, hright⟩

/-- Forms that have their values one after the other. -/
def EvaluatesAll (host : Host) (scope : ScopeId) (forms : List Datum) (m : Machine)
    (values : List Datum) (m' : Machine) : Prop :=
  ∃ steps, Eval.each (Eval.evalIn host steps scope) forms m = .done values m'

theorem Evaluates.more {steps : Nat} (h : Eval.evalIn host steps scope form m = .done value m')
    {steps' : Nat} (hle : steps ≤ steps') :
    Eval.evalIn host steps' scope form m = .done value m' := by
  rcases Eval.upto_evalIn host hle scope form m with hbroke | hsame
  · rw [h] at hbroke
    cases hbroke
  · rw [hsame, h]

theorem EvaluatesAll.more {forms values : List Datum} {steps : Nat}
    (h : Eval.each (Eval.evalIn host steps scope) forms m = .done values m') {steps' : Nat}
    (hle : steps ≤ steps') :
    Eval.each (Eval.evalIn host steps' scope) forms m = .done values m' := by
  have hupto := Eval.upto_each (Eval.upto_evalIn host hle scope) forms m
  rcases hupto with hbroke | hsame
  · rw [h] at hbroke
    cases hbroke
  · rw [hsame, h]

theorem EvaluatesAll.cons {forms values : List Datum} (h : Evaluates host scope form m value n)
    (hall : EvaluatesAll host scope forms n values m') :
    EvaluatesAll host scope (form :: forms) m (value :: values) m' := by
  obtain ⟨steps, h⟩ := h
  obtain ⟨steps', hall⟩ := hall
  refine ⟨max steps steps', ?_⟩
  simp only [Eval.each, Evaluates.more h (Nat.le_max_left ..), Outcome.andThen,
    EvaluatesAll.more hall (Nat.le_max_right ..)]

theorem evaluates_quoted (host : Host) (scope : ScopeId) (d : Datum) (m : Machine) :
    Evaluates host scope (quoted d) m d m := ⟨1, Eval.evalIn_quote d⟩

theorem evaluates_operation (op : SequenceOp) {forms args : List Datum}
    (hop : op ∈ [SequenceOp.cons, .concat, .list, .toVector]) (hstandard : Standard scope m)
    (hstandard' : Standard scope m') (hargs : EvaluatesAll host scope forms m args m')
    (hvalue : op.apply m'.maps.entries args = .ok value) :
    Evaluates host scope (.list (.named op.name :: forms)) m value m' := by
  obtain ⟨steps, hargs⟩ := hargs
  have hname : Datum.named op.name = .var op.name := by cases op <;> rfl
  have hcall : Eval.macroCall? m.env scope (.list (.var op.name :: forms)) = none := by
    simp only [Eval.macroCall?, Datum.var, hstandard op hop]
  have hmore := EvaluatesAll.more hargs (Nat.le_add_right steps 1)
  refine ⟨steps + 2, ?_⟩
  rw [hname, Eval.evalIn_primitive hcall hmore (hstandard' op hop)]
  simp only [Primitive.apply, hvalue, Outcome.ofExcept]

theorem itemsOf_eq_ok {function : String} {items : List Datum} (h : elements? value = some items) :
    Primitive.itemsOf function value = .ok items := by
  cases value with
  | nil => cases h; rfl
  | list xs => cases h; rfl
  | vector xs => cases h; rfl
  | _ => cases h

theorem concat_pair {tables : Tables} {items more : List Datum} (h : elements? value = some items) :
    SequenceOp.concat.apply tables [value, .list more] = .ok (.list (items ++ more)) := by
  simp only [SequenceOp.apply, SequenceOp.concatOf, itemsOf_eq_ok h]
  simp [Primitive.itemsOf, Except.map]

mutual

theorem evaluates_expand {t form : Datum} {m m' : Machine} {values : List Datum} (h : expand t = .ok form)
    (hfilled : Filled (Evaluates host scope) (Standard scope) (holes t) m values m') :
    Evaluates host scope form m (instantiate t values) m' := by
  cases t with
  | list items =>
    by_cases hunquote : Datum.isForm .unquote (.list items) = true
    · obtain ⟨operands, hform⟩ := isForm_iff.mp hunquote
      rw [hform] at h hfilled ⊢
      obtain rfl := expand_unquote_ok h
      cases hfilled with
      | cons _ heval _ hrest =>
        cases hrest
        exact heval
    · rw [Bool.not_eq_true] at hunquote
      have hvalue : instantiate (.list items) values = .list (instantiateItems items values) := by
        rw [instantiate, hunquote, if_neg Bool.false_ne_true]
      rw [holes, hunquote, if_neg Bool.false_ne_true] at hfilled
      rw [hvalue]
      rcases expand_list_ok hunquote h with ⟨rfl, rfl⟩ | hitems
      · cases hfilled
        exact evaluates_quoted ..
      · exact evaluates_expandItems hitems hfilled
  | vector items =>
    rw [holes] at hfilled
    rw [instantiate]
    rcases expand_vector_ok h with ⟨rfl, rfl⟩ | ⟨built, hitems, rfl⟩
    · cases hfilled
      exact evaluates_quoted ..
    · have hbuilt := evaluates_expandItems hitems hfilled
      have hargs : EvaluatesAll host scope [built] m [.list (instantiateItems items values)] m' :=
        .cons hbuilt ⟨0, rfl⟩
      exact evaluates_operation .toVector (by simp) hfilled.first hfilled.last hargs rfl
  | symbol s =>
    cases h
    cases hfilled
    exact evaluates_quoted ..
  | map entries =>
    cases h
    cases hfilled
    exact evaluates_quoted ..
  | table id =>
    cases h
    cases hfilled
    exact evaluates_quoted ..
  | _ =>
    cases h
    cases hfilled
    exact ⟨1, Eval.evalIn_literal (by simp)⟩

theorem evaluates_expandItems {items values : List Datum} {form : Datum} {m m' : Machine}
    (h : expandItems items = .ok form)
    (hfilled : Filled (Evaluates host scope) (Standard scope) (itemHoles items) m values m') :
    Evaluates host scope form m (.list (instantiateItems items values)) m' := by
  cases items with
  | nil =>
    cases h
    cases hfilled with
    | nil hstandard =>
      exact evaluates_operation .list (by simp) hstandard hstandard ⟨0, rfl⟩ rfl
  | cons item more =>
    obtain ⟨tail, htail, ⟨x, rfl, rfl⟩ | ⟨hplain, x, hx, rfl⟩⟩ := expandItems_cons_ok h
    · cases hfilled with
      | cons hstandard heval hsome hrest =>
        obtain ⟨items, hv⟩ := Option.isSome_iff_exists.mp (hsome rfl)
        have hmore := evaluates_expandItems htail hrest
        refine evaluates_operation .concat (by simp) hstandard hrest.last
          (.cons heval (.cons hmore ⟨0, rfl⟩)) ?_
        rw [concat_pair hv, instantiateItems, if_pos (isForm_iff.mpr ⟨[x], rfl⟩)]
        simp only [List.headD_cons, hv, Option.getD_some, List.drop_succ_cons, List.drop_zero]
    · rw [itemHoles, hplain, if_neg Bool.false_ne_true] at hfilled
      obtain ⟨n, hitem, hrest⟩ := hfilled.split
      have hfirst := evaluates_expand hx hitem
      have hmore := evaluates_expandItems htail hrest
      rw [instantiateItems, hplain, if_neg Bool.false_ne_true]
      exact evaluates_operation .cons (by simp) hfilled.first hfilled.last
        (.cons hfirst (.cons hmore ⟨0, rfl⟩)) rfl

end

end

/-- Nothing in the template is unquoted or spliced. -/
def Free (t : Datum) : Prop :=
  (∀ operands, ¬ Covers t (.form .unquote operands)) ∧
    ∀ operands, ¬ Element t (.form .spliceUnquote operands)

theorem Free.not_malformed {t : Datum} (h : Free t) : ¬ Malformed t := by
  rintro (⟨operands, hcovers, _⟩ | ⟨operands, helement, _⟩)
  · exact h.1 operands hcovers
  · exact h.2 operands helement

theorem Free.not_unquote {t : Datum} (h : Free t) : t.isForm .unquote = false := by
  apply isForm_eq_false
  rintro operands rfl
  exact h.1 operands .whole

theorem Free.ofList {items : List Datum} (h : Free (.list items)) {item : Datum}
    (hmem : item ∈ items) : item.isForm .spliceUnquote = false ∧ Free item := by
  have hnot := h.not_unquote
  have hplain : item.isForm .spliceUnquote = false := by
    apply isForm_eq_false
    rintro operands rfl
    exact h.2 operands ⟨items, hmem, .inr ⟨.whole, hnot⟩⟩
  refine ⟨hplain, ?_, ?_⟩
  · intro operands hcovers
    exact h.1 operands (.ofList hnot hmem hplain hcovers)
  · intro operands helement
    exact h.2 operands (helement.ofList hnot hmem hplain)

theorem Free.ofVector {items : List Datum} (h : Free (.vector items)) {item : Datum}
    (hmem : item ∈ items) : item.isForm .spliceUnquote = false ∧ Free item := by
  have hplain : item.isForm .spliceUnquote = false := by
    apply isForm_eq_false
    rintro operands rfl
    exact h.2 operands ⟨items, hmem, .inl .whole⟩
  refine ⟨hplain, ?_, ?_⟩
  · intro operands hcovers
    exact h.1 operands (.ofVector hmem hplain hcovers)
  · intro operands helement
    exact h.2 operands (helement.ofVector hmem hplain)

mutual

theorem instantiate_free {t : Datum} (h : Free t) : holes t = [] ∧ instantiate t [] = t := by
  cases t with
  | list items =>
    obtain ⟨hholes, hitems⟩ := instantiateItems_free fun item hmem => h.ofList hmem
    rw [holes, instantiate, h.not_unquote]
    exact ⟨hholes, congrArg Datum.list hitems⟩
  | vector items =>
    obtain ⟨hholes, hitems⟩ := instantiateItems_free fun item hmem => h.ofVector hmem
    rw [holes, instantiate]
    exact ⟨hholes, congrArg Datum.vector hitems⟩
  | _ => exact ⟨rfl, rfl⟩

theorem instantiateItems_free {items : List Datum}
    (h : ∀ item ∈ items, item.isForm .spliceUnquote = false ∧ Free item) :
    itemHoles items = [] ∧ instantiateItems items [] = items := by
  cases items with
  | nil => exact ⟨rfl, rfl⟩
  | cons item more =>
    obtain ⟨hplain, hfree⟩ := h item List.mem_cons_self
    obtain ⟨hholes, hitem⟩ := instantiate_free hfree
    obtain ⟨hmore, hitems⟩ := instantiateItems_free fun x hx => h x (List.mem_cons_of_mem _ hx)
    rw [itemHoles, instantiateItems, hplain]
    simp [hholes, hmore, hitem, hitems]

end

/-- A template has no expansion, which is a fault of a special form, exactly if an unquoted part or
a spliced element of it does not have one operand. Otherwise, where the functions that templates
are built with keep their names, evaluation of the template evaluates its holes from left to right
and does nothing else, and its value is the template with their values in place. A template without
holes is its own value. -/
theorem quasiquote_instantiates (t : Datum) :
    ((∃ name, expand t = .error (.malformed name .oneOperand)) ↔ Malformed t) ∧
      ((∃ form, expand t = .ok form) ↔ ¬ Malformed t) ∧
      (∀ host scope m values m', ¬ Malformed t →
        Filled (Evaluates host scope) (Standard scope) (holes t) m values m' →
        Evaluates host scope (.form .quasiquote [t]) m (instantiate t values) m') ∧
      (Free t → ∀ host scope m, Standard scope m →
        Evaluates host scope (.form .quasiquote [t]) m t m) := by
  have hok : ¬ Malformed t → ∃ form, expand t = .ok form := by
    intro hgood
    cases h : expand t with
    | ok form => exact ⟨form, rfl⟩
    | error e => exact absurd (malformed_of_error h).2 hgood
  have hvalue : ∀ host scope m values m', ¬ Malformed t →
      Filled (Evaluates host scope) (Standard scope) (holes t) m values m' →
      Evaluates host scope (.form .quasiquote [t]) m (instantiate t values) m' := by
    intro host scope m values m' hgood hfilled
    obtain ⟨form, hform⟩ := hok hgood
    obtain ⟨steps, hsteps⟩ := evaluates_expand hform hfilled
    exact ⟨steps + 1, (Eval.evalIn_quasiquote hform).trans hsteps⟩
  refine ⟨⟨?_, ?_⟩, ⟨?_, hok⟩, hvalue, ?_⟩
  · rintro ⟨name, h⟩
    exact (malformed_of_error h).2
  · intro hbad
    cases h : expand t with
    | ok form => exact absurd hbad (not_malformed_of_ok h)
    | error e =>
      obtain ⟨⟨name, rfl⟩, _⟩ := malformed_of_error h
      exact ⟨name, rfl⟩
  · rintro ⟨form, h⟩
    exact not_malformed_of_ok h
  · intro hfree host scope m hstandard
    obtain ⟨hholes, hsame⟩ := instantiate_free hfree
    have hfilled : Filled (Evaluates host scope) (Standard scope) (holes t) m [] m := by
      rw [hholes]
      exact .nil hstandard
    have heval := hvalue host scope m [] m hfree.not_malformed hfilled
    rwa [hsame] at heval

set_option maxRecDepth 4000 in
/-- The template `(a ~(+ 1 2) [~@(list 4 5) b])`. -/
theorem quasiquote_instantiates_splice :
    let host : Host := ⟨.initial, fun _ => .unreadable⟩
    let sum := Datum.list [.var "+", .int 1, .int 2]
    let four := Datum.list [.var "list", .int 4, .int 5]
    let t := Datum.list [.var "a", .form .unquote [sum],
      .vector [.form .spliceUnquote [four], .var "b"]]
    Evaluates host Environment.global (.form .quasiquote [t]) .initial
      (.list [.var "a", .int 3, .vector [.int 4, .int 5, .var "b"]]) .initial := by
  intro host sum four t
  have hstandard : Standard Environment.global .initial := by
    simp only [Standard, List.forall_mem_cons]
    exact ⟨rfl, rfl, rfl, rfl, by simp⟩
  have hgood : ¬ Malformed t := not_malformed_of_ok rfl
  have hfilled : Filled (Evaluates host Environment.global) (Standard Environment.global) (holes t)
      .initial [.int 3, .list [.int 4, .int 5]] .initial :=
    .cons hstandard ⟨3, rfl⟩ (by simp)
      (.cons hstandard ⟨3, rfl⟩ (fun _ => rfl) (.nil hstandard))
  exact (quasiquote_instantiates t).2.2.1 host Environment.global .initial _ .initial hgood hfilled

end TableLisp.Template

import TableLisp.Proofs.Data.Closures
import TableLisp.Reader.Form

/-! What every form that is read has in common. A property of data that holds of literals and
names and that collections inherit from their items holds of each form that the reader answers;
that no closure occurs in a form is one such property. -/

namespace TableLisp.Reader

/-- A property that each way in which the reader makes a form gives to it. -/
structure Inherited (d : Dialect) (P : Datum → Prop) : Prop where
  list : ∀ items, (∀ x ∈ items, P x) → P (.list items)
  vector : ∀ items, (∀ x ∈ items, P x) → P (.vector items)
  map : ∀ items, (∀ x ∈ items, P x) → P (.ofPairs Datum.equalFixed (Entries.pairUp items))
  keyword : ∀ name, P (.keyword name)
  char : ∀ c, P (.char c)
  string : ∀ text, P (.string text)
  numeral : ∀ n, P (.ofNumeral n)
  token : ∀ token, P (ofToken token)
  named : ∀ name, P (.named name)
  constant : ∀ c form, d.table c = some (.constant form) → P form

/-- Each form that a step answers satisfies `P`. -/
def Answers (P : Datum → Prop) (outcome : Except Error Reading × Source) : Prop :=
  ∀ e after, outcome = (.ok (.form e), after) → P e

variable {d : Dialect} {P : Datum → Prop} {next : ReadStep}

theorem Inherited.reduce (hp : Inherited d P) {kind : Collection} {start : Position}
    {items : List Datum} {e : Datum} (hi : ∀ x ∈ items, P x)
    (h : reduce kind start items = .ok (.form e)) : P e := by
  cases kind with
  | list => cases h; exact hp.list _ hi
  | vector => cases h; exact hp.vector _ hi
  | map =>
    simp only [Reader.reduce] at h
    split at h
    · cases h; exact hp.map _ hi
    · cases h

theorem Inherited.collect (hp : Inherited d P) (hn : ∀ src, Answers P (next src))
    {kind : Collection} {start : Position} {bound : Nat} {items : List Datum} {src : Source}
    (hi : ∀ x ∈ items, P x) : Answers P (collect next kind start bound items src) := by
  intro e after h
  induction bound generalizing items src with
  | zero => cases h
  | succ bound ih =>
    unfold Reader.collect at h
    split at h
    · cases h
    · rename_i x src' hx
      refine ih ?_ h
      intro y hy
      rcases List.mem_cons.mp hy with rfl | hy
      · exact hn src _ _ hx
      · exact hi y hy
    · exact ih hi h
    · split at h
      · obtain ⟨hr, _⟩ := Prod.mk.inj h
        exact hp.reduce (fun x hx => hi x (List.mem_reverse.mp hx)) hr
      · cases h
    · cases h
    · cases h

theorem answers_withOperand (hn : ∀ src, Answers P (next src)) {context : String}
    {make : Datum → Except Error Reading} {src : Source}
    (hm : ∀ x e, P x → make x = .ok (.form e) → P e) :
    Answers P (withOperand next context make src) := by
  have hop : Answers P (operand next context src) := by
    intro e after h
    unfold operand at h
    split at h <;> first | cases h | exact hn src e after h
  intro e after h
  unfold withOperand at h
  split at h
  · rename_i x src' hx
    obtain ⟨hr, _⟩ := Prod.mk.inj h
    exact hm x e (hop x src' hx) hr
  · exact hop e after h

theorem Inherited.keywordOf (hp : Inherited d P) {start : Position} {x e : Datum}
    (h : keywordOf start x = .ok (.form e)) : P e := by
  unfold Reader.keywordOf at h
  split at h
  · cases h; exact hp.keyword _
  · split at h
    · cases h; exact hp.keyword _
    · cases h
  · cases h; exact hp.keyword _
  · cases h; exact hp.keyword _
  · cases h

theorem Inherited.handle (hp : Inherited d P) (hn : ∀ src, Answers P (next src)) {bound : Nat}
    {trigger : Char} {src : Source} {handler : Handler} (ht : d.table trigger = some handler) :
    Answers P (handle d next bound trigger src handler) := by
  have hwrap : ∀ (head : String) (x e : Datum), P x → wrapped head x = .ok (.form e) → P e := by
    intro head x e hx h
    cases h
    refine hp.list _ ?_
    intro y hy
    rcases List.mem_cons.mp hy with rfl | hy
    · exact hp.named head
    · exact List.mem_singleton.mp hy ▸ hx
  cases handler with
  | collect kind => exact hp.collect hn (by simp)
  | close => intro e after h; cases h
  | wrap head => exact answers_withOperand hn (hwrap head)
  | unquote =>
    simp only [Reader.handle]
    split
    · exact answers_withOperand hn (hwrap _)
    · exact answers_withOperand hn (hwrap _)
  | keyword => exact answers_withOperand hn fun x e _ h => hp.keywordOf h
  | character =>
    intro e after h
    simp only [Reader.handle, readCharacter] at h
    split at h
    · cases h
    · split at h
      · cases h; exact hp.char _
      · cases h
  | string =>
    intro e after h
    simp only [Reader.handle, readString] at h
    split at h
    · cases h; exact hp.string _
    · cases h
  | comment => intro e after h; cases h
  | newline => intro e after h; cases h
  | constant form => intro e after h; cases h; exact hp.constant _ _ ht
  | discard => exact answers_withOperand hn fun x e _ h => by cases h

theorem Inherited.formWithin (hp : Inherited d P) (bound : Nat) (src : Source) :
    Answers P (formWithin d bound src) := by
  induction bound generalizing src with
  | zero => intro e after h; cases h
  | succ bound ih =>
    intro e after h
    unfold Reader.formWithin at h
    split at h
    · cases h
    · split at h
      · rename_i handler ht
        split at h
        · exact ih _ e after h
        · exact hp.handle ih ht e after h
      · split at h
        · exact ih _ e after h
        · split at h
          · unfold readNumeral at h
            split at h
            · cases h; exact hp.numeral _
            · cases h
          · cases h; exact hp.token _

theorem Inherited.read (hp : Inherited d P) {src after : Source} {e : Datum}
    (h : read d src = (.ok (some e), after)) : P e := by
  unfold Reader.read at h
  split at h <;> cases h
  rename_i hf
  exact hp.formWithin _ src _ _ hf

/-! No closure is read. -/

theorem closures_ofToken (token : List Char) : (ofToken token).closures = [] := by
  unfold ofToken
  split <;> rfl

theorem inherited_closures (preferFloats : Bool) (P : Closure Datum → Prop) :
    Inherited (.standard preferFloats) (Datum.EachClosure P) where
  list items h := by simpa using h
  vector items h := by simpa using h
  map items h := Datum.eachClosure_ofPairs (Entries.eachClosure_pairUp h)
  keyword := by simp
  char := by simp
  string := by simp
  numeral := by simp
  token token := Datum.eachClosure_of_none (closures_ofToken token)
  named := by simp
  constant := by
    intro c form h
    simp only [Dialect.standard] at h
    unfold ReadTable.standard at h
    split at h <;> cases h

theorem read_eachClosure {preferFloats : Bool} {src after : Source} {e : Datum}
    (P : Closure Datum → Prop) (h : read (.standard preferFloats) src = (.ok (some e), after)) :
    e.EachClosure P :=
  (inherited_closures preferFloats P).read h

end TableLisp.Reader

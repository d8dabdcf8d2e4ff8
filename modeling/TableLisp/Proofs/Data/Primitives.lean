import TableLisp.Primitive.Apply
import TableLisp.Proofs.Reader.Forms

/-! What primitive functions leave alone. They neither see nor change scopes, a failed one changes
nothing at all, and no closure is in what they answer or put into a table but those that were in
their arguments and in tables before. -/

namespace TableLisp

open Datum

variable {P : Closure Datum → Prop} {args : List Datum} {value : Datum}

/-- Every closure in the tables satisfies `P`. -/
def MapStore.EachClosure (P : Closure Datum → Prop) (store : MapStore) : Prop :=
  ∀ id, Entries.EachClosure P (store.entries id)

namespace MapStore

variable {store : MapStore} {entries : Entries}

theorem EachClosure.make (h : store.EachClosure P) (he : Entries.EachClosure P entries)
    (isMutable : Bool) : (store.make isMutable entries).2.EachClosure P := by
  intro id
  rw [entries_make]
  split
  · exact he
  · exact h id

theorem EachClosure.write (h : store.EachClosure P) (he : Entries.EachClosure P entries)
    (id : TableId) : (store.write id entries).EachClosure P := by
  intro id'
  rw [entries_write]
  split
  · exact he
  · exact h id'

end MapStore

theorem eachClosure_itemsOf {function : String} {d : Datum} {items : List Datum}
    (h : d.EachClosure P) (hi : Primitive.itemsOf function d = .ok items) :
    ∀ x ∈ items, x.EachClosure P := by
  unfold Primitive.itemsOf at hi
  split at hi <;> cases hi
  · simp
  · exact eachClosure_list.mp h
  · exact eachClosure_vector.mp h

theorem eachClosure_entries? {tables : Tables} {d : Datum} {entries : Entries}
    (h : d.EachClosure P) (ht : ∀ id, Entries.EachClosure P (tables id))
    (he : d.entries? tables = some entries) : Entries.EachClosure P entries := by
  unfold Datum.entries? at he
  split at he <;> cases he
  · exact eachClosure_map.mp h
  · exact ht _

theorem exists_of_map_ok {ε α β : Type} {f : α → β} {x : Except ε α} {b : β}
    (h : x.map f = .ok b) : ∃ a, x = .ok a ∧ f a = b := by
  cases x with
  | error e => cases h
  | ok a => cases h; exact ⟨a, rfl, rfl⟩

theorem exists_of_bind_ok {ε α β : Type} {x : Except ε α} {f : α → Except ε β} {b : β}
    (h : (x >>= f) = .ok b) : ∃ a, x = .ok a ∧ f a = .ok b := by
  cases x with
  | error e => cases h
  | ok a => exact ⟨a, rfl, h⟩

theorem eachClosure_arithmetic {op : Arithmetic} (h : op.apply args = .ok value) :
    value.EachClosure P := by
  unfold Arithmetic.apply at h
  split at h
  · split at h <;> cases h
    simp
  · split at h
    · cases h
    · obtain ⟨n, _, rfl⟩ := exists_of_map_ok h
      simp
  · split at h
    · cases h
    · obtain ⟨n, _, rfl⟩ := exists_of_map_ok h
      simp

theorem eachClosure_equal {eq : Datum → Datum → Bool}
    (h : Primitive.applyEqual eq args = .ok value) : value.EachClosure P := by
  unfold Primitive.applyEqual at h
  split at h <;> cases h
  simp

theorem eachClosure_order {op : OrderOp} (h : op.apply args = .ok value) :
    value.EachClosure P := by
  unfold OrderOp.apply at h
  split at h
  · cases h
  · obtain ⟨b, _, rfl⟩ := exists_of_map_ok h
    simp

theorem eachClosure_predicate {p : Predicate} (h : p.apply args = .ok value) :
    value.EachClosure P := by
  unfold Predicate.apply at h
  split at h <;> cases h
  simp

theorem eachClosure_naming {op : NamingOp} (h : op.apply args = .ok value) :
    value.EachClosure P := by
  unfold NamingOp.apply at h
  split at h
  · unfold NamingOp.symbolOf at h
    split at h <;> cases h <;> simp
  · unfold NamingOp.keywordOf at h
    split at h
    · cases h; simp
    · cases h; simp
    · split at h <;> cases h
      simp
    · cases h
  · cases h

theorem eachClosure_readText {host : Host} {d : Datum}
    (h : Primitive.readText host d = .ok value) : value.EachClosure P := by
  unfold Primitive.readText at h
  split at h
  · obtain ⟨read, hread, rfl⟩ := exists_of_map_ok h
    cases read with
    | none => simp
    | some e =>
      have hr : Reader.read host.dialect (.ofText _) = (.ok (some e), _) := Prod.ext hread rfl
      exact Reader.read_eachClosure P hr
  · cases h

theorem eachClosure_elements {op : SequenceOp} {tables : Tables} {d : Datum} {items : List Datum}
    (h : d.EachClosure P) (ht : ∀ id, Entries.EachClosure P (tables id))
    (hi : op.elements tables d = .ok items) : ∀ x ∈ items, x.EachClosure P := by
  unfold SequenceOp.elements at hi
  split at hi
  · cases hi
    intro x hx
    obtain ⟨c, _, rfl⟩ := List.mem_map.mp hx
    simp
  · split at hi
    · rename_i entries he
      cases hi
      intro x hx
      obtain ⟨e, hm, rfl⟩ := List.mem_map.mp hx
      have := eachClosure_entries? h ht he e hm
      simpa using this
    · exact eachClosure_itemsOf h hi

theorem eachClosure_concatOf {op : SequenceOp} {items : List Datum}
    (h : ∀ x ∈ args, x.EachClosure P) (hi : op.concatOf args = .ok items) :
    ∀ x ∈ items, x.EachClosure P := by
  induction args generalizing items with
  | nil => cases hi; simp
  | cons arg more ih =>
    unfold SequenceOp.concatOf at hi
    split at hi
    · cases hi
    · rename_i first hf
      obtain ⟨rest, hr, rfl⟩ := exists_of_map_ok hi
      intro x hx
      rcases List.mem_append.mp hx with hx | hx
      · exact eachClosure_itemsOf (h arg (by simp)) hf x hx
      · exact ih (fun y hy => h y (by simp [hy])) hr x hx

theorem eachClosure_nthOf {op : SequenceOp} {collection index : Datum}
    (h : collection.EachClosure P) (hv : op.nthOf collection index = .ok value) :
    value.EachClosure P := by
  unfold SequenceOp.nthOf at hv
  split at hv
  · cases hv
  · rename_i items hi
    split at hv
    · unfold SequenceOp.element at hv
      simp only at hv
      split at hv
      · cases hv
      · split at hv
        · rename_i x hx
          cases hv
          exact eachClosure_itemsOf h hi _ (List.mem_of_getElem? hx)
        · cases hv
    · cases hv

theorem eachClosure_sequence {op : SequenceOp} {tables : Tables}
    (h : ∀ x ∈ args, x.EachClosure P) (ht : ∀ id, Entries.EachClosure P (tables id))
    (hv : op.apply tables args = .ok value) : value.EachClosure P := by
  unfold SequenceOp.apply at hv
  split at hv
  · cases hv; exact eachClosure_list.mpr h
  · cases hv; exact eachClosure_vector.mpr h
  · obtain ⟨items, hi, rfl⟩ := exists_of_map_ok hv
    exact eachClosure_list.mpr (eachClosure_concatOf h hi)
  · unfold SequenceOp.toVectorOf at hv
    split at hv
    · cases hv; exact h _ (by simp)
    · obtain ⟨items, hi, rfl⟩ := exists_of_map_ok hv
      exact eachClosure_vector.mpr (eachClosure_itemsOf (h _ (by simp)) hi)
  · obtain ⟨items, _, rfl⟩ := exists_of_map_ok hv
    simp
  · obtain ⟨items, _, rfl⟩ := exists_of_map_ok hv
    simp
  · obtain ⟨items, hi, rfl⟩ := exists_of_map_ok hv
    split
    · simp
    · exact eachClosure_list.mpr (eachClosure_elements (h _ (by simp)) ht hi)
  · obtain ⟨items, hi, rfl⟩ := exists_of_map_ok hv
    have hitems := eachClosure_itemsOf (h _ (by simp)) hi
    cases items with
    | nil => simp
    | cons x more => exact hitems x (by simp)
  · obtain ⟨items, hi, rfl⟩ := exists_of_map_ok hv
    have hitems := eachClosure_itemsOf (h _ (by simp)) hi
    exact eachClosure_list.mpr fun x hx => hitems x (List.mem_of_mem_drop hx)
  · obtain ⟨items, hi, rfl⟩ := exists_of_map_ok hv
    have hitems := eachClosure_itemsOf (h _ (by simp)) hi
    cases hl : items.getLast? with
    | none => simp [List.getLastD_eq_getLast?, hl]
    | some x =>
      simp only [List.getLastD_eq_getLast?, hl, Option.getD_some]
      exact hitems x (List.mem_of_getLast? hl)
  · exact eachClosure_nthOf (h _ (by simp)) hv
  · obtain ⟨items, hi, rfl⟩ := exists_of_map_ok hv
    have hitems := eachClosure_itemsOf (h _ (by simp)) hi
    refine eachClosure_list.mpr ?_
    intro x hx
    rcases List.mem_cons.mp hx with rfl | hx
    · exact h _ (by simp)
    · exact hitems x hx
  · cases hv

theorem eachClosure_pairs {op : MapOp} {pairs : Entries} (h : ∀ x ∈ args, x.EachClosure P)
    (hp : op.pairs args = .ok pairs) : Entries.EachClosure P pairs := by
  unfold MapOp.pairs at hp
  split at hp <;> cases hp
  exact Entries.eachClosure_pairUp h

theorem eachClosure_entriesOf {op : MapOp} {store : MapStore} {d : Datum} {entries : Entries}
    (h : d.EachClosure P) (hs : store.EachClosure P) (he : op.entriesOf store d = .ok entries) :
    Entries.EachClosure P entries := by
  unfold MapOp.entriesOf at he
  split at he
  · rename_i es hes
    cases he
    exact eachClosure_entries? h hs hes
  · cases he

theorem eachClosure_lookup {op : MapOp} {store : MapStore} {d key absent : Datum}
    (h : d.EachClosure P) (ha : absent.EachClosure P) (hs : store.EachClosure P)
    (hv : op.lookup store d key absent = .ok value) : value.EachClosure P := by
  unfold MapOp.lookup at hv
  split at hv
  · cases hv; exact ha
  · obtain ⟨entries, he, rfl⟩ := exists_of_map_ok hv
    cases hf : Entries.find? (store.equal key) entries with
    | none => exact ha
    | some x => exact Entries.eachClosure_find? (eachClosure_entriesOf h hs he) hf

/-- A map operation answers with closures of its arguments and of tables only, and so do the tables
that it leaves behind. -/
theorem eachClosure_mapOp {op : MapOp} {store after : MapStore}
    (h : ∀ x ∈ args, x.EachClosure P) (hs : store.EachClosure P)
    (hv : op.apply store args = .ok (value, after)) :
    value.EachClosure P ∧ after.EachClosure P := by
  have hadd : ∀ {pairs : Entries} (id : TableId), Entries.EachClosure P pairs →
      Entries.EachClosure P (store.added id pairs) :=
    fun id hp => Entries.eachClosure_insertAll (hs id) hp
  have hrem : ∀ (keys : List Datum) (id : TableId),
      Entries.EachClosure P (store.removed id keys) :=
    fun keys id => Entries.eachClosure_eraseAll (hs id)
  unfold MapOp.apply at hv
  split at hv
  · obtain ⟨pairs, hp, hv⟩ := exists_of_bind_ok hv
    cases hv
    exact ⟨by simp, hs.make
      (Entries.eachClosure_insertAll Entries.eachClosure_nil (eachClosure_pairs h hp)) true⟩
  · obtain ⟨v, hl, hv⟩ := exists_of_bind_ok hv
    cases hv
    exact ⟨eachClosure_lookup (h _ (by simp)) (by simp) hs hl, hs⟩
  · obtain ⟨v, hl, hv⟩ := exists_of_bind_ok hv
    cases hv
    exact ⟨eachClosure_lookup (h _ (by simp)) (h _ (by simp)) hs hl, hs⟩
  · cases hv
  · obtain ⟨entries, _, hv⟩ := exists_of_bind_ok hv
    cases hv
    exact ⟨by simp, hs⟩
  · obtain ⟨entries, he, hv⟩ := exists_of_bind_ok hv
    cases hv
    refine ⟨eachClosure_list.mpr ?_, hs⟩
    intro x hx
    obtain ⟨e, hm, rfl⟩ := List.mem_map.mp hx
    exact (eachClosure_entriesOf (h _ (by simp)) hs he e hm).1
  · obtain ⟨entries, he, hv⟩ := exists_of_bind_ok hv
    cases hv
    refine ⟨eachClosure_list.mpr ?_, hs⟩
    intro x hx
    obtain ⟨e, hm, rfl⟩ := List.mem_map.mp hx
    exact (eachClosure_entriesOf (h _ (by simp)) hs he e hm).2
  · unfold MapOp.assocOf at hv
    split at hv
    · obtain ⟨pairs, hp, hv⟩ := exists_of_bind_ok hv
      cases hv
      have hpairs := eachClosure_pairs (fun x hx => h x (by simp [hx])) hp
      exact ⟨by simp, hs.make (hadd _ hpairs) true⟩
    · obtain ⟨pairs, hp, hv⟩ := exists_of_bind_ok hv
      cases hv
      have hpairs := eachClosure_pairs (fun x hx => h x (by simp [hx])) hp
      exact ⟨eachClosure_map.mpr (Entries.eachClosure_insertAll
        (eachClosure_map.mp (h _ (by simp))) hpairs), hs⟩
    · cases hv
  · unfold MapOp.dissocOf at hv
    split at hv
    · cases hv
      exact ⟨by simp, hs.make (hrem _ _) true⟩
    · cases hv
      exact ⟨eachClosure_map.mpr (Entries.eachClosure_eraseAll
        (eachClosure_map.mp (h _ (by simp)))), hs⟩
    · cases hv
  · unfold MapOp.assocInPlaceOf at hv
    split at hv
    · obtain ⟨pairs, hp, hv⟩ := exists_of_bind_ok hv
      cases hv
      have hpairs := eachClosure_pairs (fun x hx => h x (by simp [hx])) hp
      exact ⟨by simp, hs.write (hadd _ hpairs) _⟩
    · obtain ⟨pairs, _, hv⟩ := exists_of_bind_ok hv
      cases hv
    · cases hv
  · unfold MapOp.dissocInPlaceOf at hv
    split at hv
    · cases hv
      exact ⟨by simp, hs.write (hrem _ _) _⟩
    · cases hv
    · cases hv
  all_goals cases hv

namespace Primitive

variable {host : Host} {p : Primitive} {m after : Machine}

theorem apply_env (host : Host) (p : Primitive) (args : List Datum) (m : Machine)
    (env : Environment) :
    p.apply host args { m with env := env } =
      (p.apply host args m).mapMachine fun after => { after with env := env } := by
  have hexcept : ∀ r : Except Error Datum, Outcome.ofExcept r { m with env := env } =
      (Outcome.ofExcept r m).mapMachine fun after => { after with env := env } := by
    intro r
    cases r <;> rfl
  unfold apply
  split
  · exact hexcept _
  · exact hexcept _
  · exact hexcept _
  · exact hexcept _
  · exact hexcept _
  · exact hexcept _
  · dsimp only
    split <;> rfl
  · rename_i op
    cases op <;> rfl
  · rfl
  · exact hexcept _
  · unfold readFile
    split
    · split <;> rfl
    · rfl
  · rfl

theorem apply_failed {e : Error} (h : p.apply host args m = .failed e after) : after = m := by
  have hexcept : ∀ r : Except Error Datum, Outcome.ofExcept r m = .failed e after → after = m := by
    intro r hr
    cases r <;> cases hr
    rfl
  unfold apply at h
  split at h
  · exact hexcept _ h
  · exact hexcept _ h
  · exact hexcept _ h
  · exact hexcept _ h
  · exact hexcept _ h
  · exact hexcept _ h
  · split at h <;> cases h
    rfl
  · cases h
  · cases h; rfl
  · exact hexcept _ h
  · unfold readFile at h
    split at h
    · split at h <;> cases h <;> rfl
    · cases h; rfl
  · cases h; rfl

theorem apply_done (h : p.apply host args m = .done value after)
    (ha : ∀ x ∈ args, x.EachClosure P) (ht : m.maps.EachClosure P) :
    value.EachClosure P ∧ after.env = m.env ∧ after.maps.EachClosure P := by
  have hexcept : ∀ r : Except Error Datum, (∀ v, r = .ok v → v.EachClosure P) →
      Outcome.ofExcept r m = .done value after →
      value.EachClosure P ∧ after.env = m.env ∧ after.maps.EachClosure P := by
    intro r hv hr
    cases r <;> cases hr
    exact ⟨hv _ rfl, rfl, ht⟩
  unfold apply at h
  split at h
  · exact hexcept _ (fun _ => eachClosure_arithmetic) h
  · exact hexcept _ (fun _ => eachClosure_equal) h
  · exact hexcept _ (fun _ => eachClosure_order) h
  · exact hexcept _ (fun _ => eachClosure_sequence ha ht) h
  · exact hexcept _ (fun _ => eachClosure_predicate) h
  · exact hexcept _ (fun _ => eachClosure_naming) h
  · split at h
    · rename_i hv
      cases h
      obtain ⟨h₁, h₂⟩ := eachClosure_mapOp ha ht hv
      exact ⟨h₁, rfl, h₂⟩
    · cases h
  · rename_i op
    cases op <;> cases h <;> exact ⟨by simp, rfl, ht⟩
  · cases h
  · exact hexcept _ (fun _ => eachClosure_readText) h
  · unfold readFile at h
    split at h
    · split at h <;> cases h
      exact ⟨by simp, rfl, ht⟩
    · cases h
  · cases h

end Primitive

end TableLisp

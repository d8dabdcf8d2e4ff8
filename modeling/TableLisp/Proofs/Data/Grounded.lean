import Mathlib.Data.List.Perm.Subperm
import Mathlib.Logic.Relation
import TableLisp.Primitive.Apply
import TableLisp.Proofs.Data.Equality

/-! Equality of data that may hold tables. It looks into tables within tables up to a depth that is
the number of tables there are, and this is enough where no table contains itself: the tables
around a datum are all different, so there are no more of them than tables. Then equality compares
a table as if it were the map that it holds now, and is an equivalence relation that looking up a
key respects. -/

namespace TableLisp

open Relation

namespace Entries

/-- All keys and values. -/
def parts (entries : Entries) : List Datum := entries.map (·.1) ++ entries.map (·.2)

theorem mem_parts {entries : Entries} {p : Datum} :
    p ∈ entries.parts ↔ ∃ e ∈ entries, e.1 = p ∨ e.2 = p := by
  simp only [parts, List.mem_append, List.mem_map]
  constructor
  · rintro (⟨e, he, heq⟩ | ⟨e, he, heq⟩)
    · exact ⟨e, he, .inl heq⟩
    · exact ⟨e, he, .inr heq⟩
  · rintro ⟨e, he, heq | heq⟩
    · exact .inl ⟨e, he, heq⟩
    · exact .inr ⟨e, he, heq⟩

end Entries

namespace Datum

variable {tables : Tables} {x y p whole : Datum} {n m : Nat}

/-- What a datum directly holds: the items of a list, the keys and values of a map. -/
def parts (tables : Tables) : Datum → List Datum
  | list items | vector items => items
  | map entries => Entries.parts entries
  | table id => Entries.parts (tables id)
  | _ => []

/-- `p` is directly held by `whole`. -/
def PartOf (tables : Tables) (p whole : Datum) : Prop := p ∈ whole.parts tables

/-- `p` is `whole` itself or held by it at some depth. -/
def Inside (tables : Tables) (p whole : Datum) : Prop := ReflTransGen (PartOf tables) p whole

/-- A table as the map that it holds now. -/
def opened (tables : Tables) : Datum → Datum
  | table id => map (tables id)
  | x => x

theorem opened_ne_table (tables : Tables) (x : Datum) (id : TableId) :
    x.opened tables ≠ .table id := by
  cases x <;> simp [opened]

theorem opened_of_ne_table (hx : ∀ id, x ≠ .table id) : x.opened tables = x := by
  cases x with
  | table id => exact absurd rfl (hx id)
  | _ => rfl

theorem opened_of_entries? {entries : Entries} (h : x.entries? tables = some entries) :
    x.opened tables = .map entries := by
  cases x <;> simp_all [entries?, opened]

theorem sizeOf_lt_of_partOf (hx : ∀ id, x ≠ .table id) (hp : PartOf tables p x) :
    sizeOf p < sizeOf x := by
  cases x with
  | table id => exact absurd rfl (hx id)
  | list items => exact sizeOf_lt_list hp
  | vector items => exact sizeOf_lt_vector hp
  | map entries =>
    obtain ⟨e, he, rfl | rfl⟩ := Entries.mem_parts.mp hp
    · exact (sizeOf_lt_map he).1
    · exact (sizeOf_lt_map he).2
  | _ => simp [PartOf, parts] at hp

theorem partsIn_opened (hparts : ∀ p, PartOf tables p x → K p)
    (hdistinct : ∀ entries, x.entries? tables = some entries → entries.Distinct eq) :
    (x.opened tables).PartsIn K eq := by
  have hmap : ∀ entries : Entries, (∀ p ∈ entries.parts, K p) →
      Entries.KeysIn K entries ∧ Entries.ValuesIn K entries := fun entries h =>
    ⟨fun e he => h e.1 (Entries.mem_parts.mpr ⟨e, he, .inl rfl⟩),
      fun e he => h e.2 (Entries.mem_parts.mpr ⟨e, he, .inr rfl⟩)⟩
  cases x with
  | list | vector => exact hparts
  | map entries =>
    obtain ⟨hkeys, hvalues⟩ := hmap entries hparts
    exact ⟨hkeys, hvalues, hdistinct entries rfl⟩
  | table id =>
    obtain ⟨hkeys, hvalues⟩ := hmap (tables id) hparts
    exact ⟨hkeys, hvalues, hdistinct (tables id) rfl⟩
  | _ => trivial

/-- Tables are nested at most so deep in a datum. -/
inductive Nested (tables : Tables) : Nat → Datum → Prop where
  | plain {n : Nat} {x : Datum} : (∀ id, x ≠ .table id) →
      (∀ p, PartOf tables p x → Nested tables n p) → Nested tables n x
  | table {n : Nat} {id : TableId} :
      (∀ p, PartOf tables p (.table id) → Nested tables n p) → Nested tables (n + 1) (.table id)

/-- Chains of parts that begin at a datum have at most so many members. -/
def Chained (tables : Tables) : Nat → Datum → Prop
  | 0, _ => False
  | n + 1, x => ∀ p, PartOf tables p x → Chained tables n p

theorem Chained.mono (h : Chained tables n x) (hle : n ≤ m) : Chained tables m x := by
  induction n generalizing m x with
  | zero => cases h
  | succ n ih =>
    cases m with
    | zero => omega
    | succ m =>
      intro p hp
      exact ih (h p hp) (by omega)

theorem exists_chained {items : List Datum} (h : ∀ p ∈ items, ∃ n, Chained tables n p) :
    ∃ n, ∀ p ∈ items, Chained tables n p := by
  induction items with
  | nil => exact ⟨0, by simp⟩
  | cons first more ih =>
    obtain ⟨n, hfirst⟩ := h first (by simp)
    obtain ⟨m, hmore⟩ := ih fun p hp => h p (by simp [hp])
    refine ⟨max n m, fun p hp => ?_⟩
    rcases List.mem_cons.mp hp with rfl | hp
    · exact hfirst.mono (Nat.le_max_left n m)
    · exact (hmore p hp).mono (Nat.le_max_right n m)

theorem Nested.chained (h : Nested tables n x) : ∃ m, Chained tables m x := by
  have hparts : ∀ {x}, (∀ p, PartOf tables p x → ∃ m, Chained tables m p) →
      ∃ m, Chained tables m x := by
    intro x h
    obtain ⟨m, hm⟩ := exists_chained h
    exact ⟨m + 1, hm⟩
  induction h with
  | plain _ _ ih => exact hparts ih
  | table _ ih => exact hparts ih

/-- Comparing data up to a depth is comparing them with the tables compared up to that depth. -/
theorem equalWithin_eq (tables : Tables) (n : Nat) : equalWithin tables n =
    equalWith tables fun id y => equalWithin tables n (.table id) y := by
  have hwith : ∀ sameTable : TableId → Datum → Bool, equalWith tables sameTable =
      equalWith tables fun id y => equalWith tables sameTable (.table id) y := by
    intro sameTable
    have hsame : (fun id y => equalWith tables sameTable (.table id) y) = sameTable := by
      funext id y
      rw [equalWith]
    rw [hsame]
  cases n with
  | zero => exact hwith _
  | succ n => exact hwith _

theorem equalWithin_plain (hx : ∀ id, x ≠ .table id) : equalWithin tables n x y = true ↔
    Alike (equalWithin tables n) (x.opened tables) (y.opened tables) := by
  have hopened : ∀ sameTable, equalWith tables sameTable x y =
      equalWith tables sameTable x (y.opened tables) := by
    intro sameTable
    cases x with
    | table id => exact absurd rfl (hx id)
    | _ => cases y <;> simp [equalWith, opened, entries?]
  rw [opened_of_ne_table hx, equalWithin_eq, hopened]
  exact ⟨alike_of_equalWith hx (opened_ne_table tables y), equalWith_of_alike⟩

theorem alike_map_iff {xs ys : Entries} :
    Alike eq (.map xs) (.map ys) ↔ Entries.equal eq xs ys = true := by
  simp [map_alike_iff]

theorem equalWithin_table {id : TableId} : equalWithin tables (n + 1) (.table id) y = true ↔
    y = .table id ∨
      Alike (equalWithin tables n) ((Datum.table id).opened tables) (y.opened tables) := by
  have hother : y.entries? tables = none →
      ¬ Alike (equalWithin tables n) (.map (tables id)) (y.opened tables) := by
    intro hnone h
    cases y <;> simp [entries?, opened] at hnone h <;> cases h
  rw [equalWithin, equalWith]
  cases y with
  | table id' =>
    simp only [entries?, opened, alike_map_iff, Bool.or_eq_true, beq_iff_eq, table.injEq]
    exact or_congr_left eq_comm
  | map ys => simp [entries?, opened, alike_map_iff]
  | _ => simpa [entries?, opened] using hother rfl

/-- Whether data are alike depends on how the parts of the first compare. -/
theorem alike_congr_parts {eq' : Datum → Datum → Bool}
    (hparts : ∀ p, PartOf tables p x → ∀ q, eq p q = eq' p q) :
    Alike eq (x.opened tables) (y.opened tables) ↔
      Alike eq' (x.opened tables) (y.opened tables) := by
  have hdistinct : ∀ entries : Entries, entries.Distinct fun _ _ => false :=
    fun entries => List.pairwise_of_forall fun _ _ => rfl
  have hx := partsIn_opened hparts fun entries _ => hdistinct entries
  have hy : (y.opened tables).PartsIn (fun _ => True) fun _ _ => false :=
    partsIn_opened (fun _ _ => trivial) fun entries _ => hdistinct entries
  exact ⟨fun h => h.congr (fun p q hp _ => hp q) hx hy,
    fun h => h.congr (fun p q hp _ => (hp q).symm) hx hy⟩

/-- Where tables are nested less deep, looking deeper makes no difference. -/
theorem Nested.equalWithin_eq_of_le (h : Nested tables n x) (hle : n ≤ m) (y : Datum) :
    equalWithin tables m x y = equalWithin tables n x y := by
  induction h generalizing m y with
  | plain hx hparts ih =>
    rw [Bool.eq_iff_iff, equalWithin_plain hx, equalWithin_plain hx]
    exact alike_congr_parts fun p hp => ih p hp hle
  | table hparts ih =>
    cases m with
    | zero => omega
    | succ m =>
      rw [Bool.eq_iff_iff, equalWithin_table, equalWithin_table]
      exact or_congr_right (alike_congr_parts fun p hp => ih p hp (by omega))

end Datum

namespace MapStore

/-- The tables in a datum exist and do not contain themselves, and no two keys of a map in it are
equal. -/
structure Grounded (store : MapStore) (x : Datum) : Prop where
  known : ∀ id, Datum.Inside store.entries (.table id) x → id < store.size
  acyclic : ∀ id, Datum.Inside store.entries (.table id) x →
    ¬ TransGen (Datum.PartOf store.entries) (.table id) (.table id)
  distinct : ∀ y entries, Datum.Inside store.entries y x →
    y.entries? store.entries = some entries → entries.Distinct store.equal

variable {store : MapStore} {x y z p : Datum}

theorem Grounded.part (h : store.Grounded x) (hp : Datum.PartOf store.entries p x) :
    store.Grounded p := by
  have hinside : ∀ {y}, Datum.Inside store.entries y p → Datum.Inside store.entries y x :=
    fun hy => hy.tail hp
  exact ⟨fun id hid => h.known id (hinside hid), fun id hid => h.acyclic id (hinside hid),
    fun y entries hy => h.distinct y entries (hinside hy)⟩

theorem grounded_of_parts (hparts : ∀ p, Datum.PartOf store.entries p x → store.Grounded p)
    (hknown : ∀ id, x = .table id → id < store.size)
    (hdistinct : ∀ entries, x.entries? store.entries = some entries →
      entries.Distinct store.equal) : store.Grounded x := by
  refine ⟨fun id hid => ?_, fun id hid hcycle => ?_, fun y entries hy hentries => ?_⟩
  · rcases hid.cases_tail with rfl | ⟨p, hinside, hp⟩
    · exact hknown id rfl
    · exact (hparts p hp).known id hinside
  · rcases hid.cases_tail with rfl | ⟨p, hinside, hp⟩
    · -- a table that contains itself is inside one of its parts
      obtain ⟨p, hinside, hp⟩ := TransGen.tail'_iff.mp hcycle
      exact (hparts p hp).acyclic id hinside hcycle
    · exact (hparts p hp).acyclic id hinside hcycle
  · rcases hy.cases_tail with rfl | ⟨p, hinside, hp⟩
    · exact hdistinct entries hentries
    · exact (hparts p hp).distinct y entries hinside hentries

theorem grounded_atom (h : x.isAtom = true) : store.Grounded x := by
  refine grounded_of_parts (fun p hp => ?_) (fun id hid => ?_) fun entries hentries => ?_
  · cases x with
    | list | vector | map | table => cases h
    | _ => cases hp
  · rw [hid] at h
    cases h
  · cases x with
    | map | table => cases h
    | _ => cases hentries

theorem length_le_size {above : List TableId} (hnodup : above.Nodup)
    (hknown : ∀ id ∈ above, id < store.size) : above.length ≤ store.size := by
  have hsubset : above ⊆ List.range store.size :=
    fun id hid => List.mem_range.mpr (hknown id hid)
  have hle := (List.subperm_of_subset hnodup hsubset).length_le
  simpa using hle

/-- What is inside different tables has no more tables inside than are left. -/
theorem Grounded.nested_below {n : Nat} {x : Datum} (h : store.Grounded x)
    (above : List TableId) (hnodup : above.Nodup) (hknown : ∀ id ∈ above, id < store.size)
    (habove : ∀ id ∈ above, TransGen (Datum.PartOf store.entries) x (.table id))
    (hcount : n + above.length = store.size) : Datum.Nested store.entries n x := by
  by_cases htable : ∃ id, x = .table id
  · obtain ⟨id, rfl⟩ := htable
    have hself : id ∉ above := fun hid => h.acyclic id .refl (habove id hid)
    have hmore : ∀ id' ∈ id :: above, id' < store.size := by
      intro id' hid'
      rcases List.mem_cons.mp hid' with rfl | hid'
      · exact h.known id' .refl
      · exact hknown id' hid'
    have hnodup' : (id :: above).Nodup := List.nodup_cons.mpr ⟨hself, hnodup⟩
    have hroom := length_le_size hnodup' hmore
    rw [List.length_cons] at hroom
    cases n with
    | zero => omega
    | succ n =>
      refine .table fun p hp => ?_
      have habove' : ∀ id' ∈ id :: above,
          TransGen (Datum.PartOf store.entries) p (.table id') := by
        intro id' hid'
        rcases List.mem_cons.mp hid' with rfl | hid'
        · exact .single hp
        · exact (habove id' hid').head hp
      exact nested_below (h.part hp) (id :: above) hnodup' hmore habove' (by
        rw [List.length_cons]
        omega)
  · have hplain : ∀ id, x ≠ .table id := fun id heq => htable ⟨id, heq⟩
    refine .plain hplain fun p hp => ?_
    have hlt := Datum.sizeOf_lt_of_partOf hplain hp
    exact nested_below (h.part hp) above hnodup hknown (fun id hid => (habove id hid).head hp)
      hcount
termination_by (n, sizeOf x)

theorem Grounded.nested (h : store.Grounded x) : Datum.Nested store.entries store.size x :=
  h.nested_below [] .nil (by simp) (by simp) rfl

/-- Grounded data are equal if they are the same table, or what they hold is alike. -/
theorem Grounded.equal_iff (h : store.Grounded x) : store.equal x y = true ↔
    (∃ id, x = .table id ∧ y = .table id) ∨
      (x.opened store.entries).Alike store.equal (y.opened store.entries) := by
  have hnested := h.nested
  unfold equal
  generalize store.size = size at hnested ⊢
  cases hnested with
  | plain hplain hparts =>
    rw [Datum.equalWithin_plain hplain]
    refine (or_iff_right ?_).symm
    rintro ⟨id, rfl, -⟩
    exact hplain id rfl
  | @table n id hparts =>
    -- the parts are compared one level less deep, which makes no difference to them
    have hdeeper : Datum.Alike (Datum.equalWithin store.entries n)
        ((Datum.table id).opened store.entries) (y.opened store.entries) ↔
        Datum.Alike (Datum.equalWithin store.entries (n + 1))
          ((Datum.table id).opened store.entries) (y.opened store.entries) :=
      Datum.alike_congr_parts fun p hp q =>
        ((hparts p hp).equalWithin_eq_of_le (Nat.le_succ n) q).symm
    rw [Datum.equalWithin_table, hdeeper]
    refine or_congr_left ⟨fun hy => ⟨id, rfl, hy⟩, ?_⟩
    rintro ⟨id', hid', hy⟩
    rw [hy, ← hid']

/-- The relation from `equal_iff` on data whose parts are compared by an equivalence relation. -/
theorem Grounded.equal_iff_alike (hK : EquivalentOn K store.equal) (hx : store.Grounded x)
    (hparts : ∀ p, Datum.PartOf store.entries p x → K p) : store.equal x y = true ↔
      (x.opened store.entries).Alike store.equal (y.opened store.entries) := by
  rw [hx.equal_iff]
  refine or_iff_right_of_imp ?_
  rintro ⟨id, rfl, rfl⟩
  exact .refl hK (Datum.opened_ne_table _ _)
    (Datum.partsIn_opened hparts fun entries => hx.distinct _ entries .refl)

/-- Symmetry and transitivity of each depend on the other one between parts, so all are shown
together below a bound on the chains of parts. -/
theorem equivalentOn_chained (store : MapStore) (n : Nat) :
    EquivalentOn (fun x => store.Grounded x ∧ Datum.Chained store.entries n x) store.equal := by
  induction n with
  | zero => exact ⟨fun h => h.2.elim, fun h => h.2.elim, fun h => h.2.elim⟩
  | succ n ih =>
    have hlaw : ∀ {x y}, store.Grounded x ∧ Datum.Chained store.entries (n + 1) x →
        (store.equal x y = true ↔
          (x.opened store.entries).Alike store.equal (y.opened store.entries)) :=
      fun hx => hx.1.equal_iff_alike ih fun p hp => ⟨hx.1.part hp, hx.2 p hp⟩
    have hparts : ∀ {x}, store.Grounded x ∧ Datum.Chained store.entries (n + 1) x →
        (x.opened store.entries).PartsIn
          (fun x => store.Grounded x ∧ Datum.Chained store.entries n x) store.equal :=
      fun hx => Datum.partsIn_opened (fun p hp => ⟨hx.1.part hp, hx.2 p hp⟩)
        fun entries => hx.1.distinct _ entries .refl
    constructor
    · intro x hx
      exact (hlaw hx).mpr (.refl ih (Datum.opened_ne_table _ _) (hparts hx))
    · intro x y hx hy h
      exact (hlaw hy).mpr (((hlaw hx).mp h).symm ih (hparts hx) (hparts hy))
    · intro x y z hx hy hz h h'
      exact (hlaw hx).mpr
        (((hlaw hx).mp h).trans ih ((hlaw hy).mp h') (hparts hx) (hparts hy) (hparts hz))

theorem equivalentOn_grounded (store : MapStore) : EquivalentOn store.Grounded store.equal := by
  have hbound : ∀ items : List Datum, (∀ x ∈ items, store.Grounded x) →
      ∃ n, ∀ x ∈ items, store.Grounded x ∧ Datum.Chained store.entries n x := by
    intro items hitems
    obtain ⟨n, hn⟩ := Datum.exists_chained fun x hx => (hitems x hx).nested.chained
    exact ⟨n, fun x hx => ⟨hitems x hx, hn x hx⟩⟩
  constructor
  · intro x hx
    obtain ⟨n, hn⟩ := hbound [x] (by simpa using hx)
    exact (equivalentOn_chained store n).refl (hn x (by simp))
  · intro x y hx hy h
    obtain ⟨n, hn⟩ := hbound [x, y] (by simp [hx, hy])
    exact (equivalentOn_chained store n).symm (hn x (by simp)) (hn y (by simp)) h
  · intro x y z hx hy hz h h'
    obtain ⟨n, hn⟩ := hbound [x, y, z] (by simp [hx, hy, hz])
    exact (equivalentOn_chained store n).trans (hn x (by simp)) (hn y (by simp))
      (hn z (by simp)) h h'

theorem Grounded.entries {entries : Entries} (h : store.Grounded x)
    (hentries : x.entries? store.entries = some entries) :
    (Datum.map entries).PartsIn store.Grounded store.equal := by
  rw [← Datum.opened_of_entries? hentries]
  exact Datum.partsIn_opened (fun p => h.part) fun entries => h.distinct _ entries .refl

theorem find?_eq_of_equal {entries : Entries} {k k' : Datum}
    (hkeys : entries.KeysIn store.Grounded) (hk : store.Grounded k) (hk' : store.Grounded k')
    (h : store.equal k k' = true) :
    Entries.find? (store.equal k) entries = Entries.find? (store.equal k') entries := by
  have hE := equivalentOn_grounded store
  refine Entries.find?_congr fun e he => Bool.eq_iff_iff.mpr ⟨fun heq => ?_, fun heq => ?_⟩
  · exact hE.trans hk' hk (hkeys e he) (hE.symm hk hk' h) heq
  · exact hE.trans hk hk' (hkeys e he) h heq

theorem lookup_eq_of_equal {k k' d : Datum} (op : MapOp) (absent : Datum) (hd : store.Grounded d)
    (hk : store.Grounded k) (hk' : store.Grounded k') (h : store.equal k k' = true) :
    op.lookup store d k absent = op.lookup store d k' absent := by
  unfold MapOp.lookup MapOp.entriesOf
  cases hentries : d.entries? store.entries with
  | none => cases d <;> rfl
  | some entries =>
    have hfind := find?_eq_of_equal (hd.entries hentries).1 hk hk' h
    simp only [Except.map, hfind]

/-- Maps are equal if there are as many entries and each of the first has one with an equal key and
an equal value in the second. -/
theorem Grounded.equal_maps_iff {xs ys : Entries} (hx : store.Grounded x) (hy : store.Grounded y)
    (hxs : x.entries? store.entries = some xs) (hys : y.entries? store.entries = some ys) :
    store.equal x y = true ↔ xs.length = ys.length ∧
      ∀ e ∈ xs, ∃ e' ∈ ys, store.equal e.1 e'.1 = true ∧ store.equal e.2 e'.2 = true := by
  have hE := equivalentOn_grounded store
  have hlaw := hx.equal_iff_alike hE (fun p => hx.part) (y := y)
  rw [Datum.opened_of_entries? hxs, Datum.opened_of_entries? hys, Datum.alike_map_iff] at hlaw
  obtain ⟨hkeys, _, _⟩ := hx.entries hxs
  obtain ⟨hkeys', _, hdistinct⟩ := hy.entries hys
  exact hlaw.trans (Entries.equal_iff hE hkeys hkeys' hdistinct)

end MapStore

/-- Where equality is an equivalence relation, it is enough that each two neighbours are equal. -/
theorem Primitive.allEqual_iff (hK : EquivalentOn K eq) {args : List Datum}
    (hargs : ∀ x ∈ args, K x) :
    allEqual eq args = true ↔ ∀ x ∈ args, ∀ y ∈ args, eq x y = true := by
  induction args with
  | nil => simp [allEqual]
  | cons a more ih =>
    have hmore : ∀ x ∈ more, K x := fun x hx => hargs x (by simp [hx])
    cases more with
    | nil => simpa [allEqual] using hK.refl (hargs a (by simp))
    | cons b more =>
      rw [allEqual, Bool.and_eq_true, ih hmore]
      constructor
      · rintro ⟨hab, hall⟩
        have hfirst : ∀ x ∈ a :: b :: more, eq a x = true := by
          intro x hx
          rcases List.mem_cons.mp hx with rfl | hx
          · exact hK.refl (hargs x (by simp))
          · exact hK.trans (hargs a (by simp)) (hmore b (by simp)) (hmore x hx) hab
              (hall b (by simp) x hx)
        intro x hx y hy
        exact hK.trans (hargs x hx) (hargs a (by simp)) (hargs y hy)
          (hK.symm (hargs a (by simp)) (hargs x hx) (hfirst x hx)) (hfirst y hy)
      · intro hall
        refine ⟨hall a (by simp) b (by simp), fun x hx y hy => ?_⟩
        exact hall x (by simp [hx]) y (by simp [hy])

/-- Equality of data in which no map contains itself and no two keys of a map are equal is an
equivalence relation, which looking up a key respects; it compares maps by their entries in any
order, and of arguments it is asked of each two neighbours only. -/
theorem equal_equivalence_respected (host : Host) (m : Machine) :
    EquivalentOn m.maps.Grounded m.maps.equal ∧
    (∀ x y, m.maps.Grounded x → m.maps.Grounded y →
      (m.maps.equal x y = true ↔
        (x.opened m.maps.entries).Alike m.maps.equal (y.opened m.maps.entries))) ∧
    (∀ x y xs ys, m.maps.Grounded x → m.maps.Grounded y →
      x.entries? m.maps.entries = some xs → y.entries? m.maps.entries = some ys →
      (m.maps.equal x y = true ↔ xs.length = ys.length ∧
        ∀ e ∈ xs, ∃ e' ∈ ys, m.maps.equal e.1 e'.1 = true ∧ m.maps.equal e.2 e'.2 = true)) ∧
    (∀ k k', m.maps.Grounded k → m.maps.Grounded k' → m.maps.equal k k' = true →
      (∀ handle : MapHandle, (∀ key ∈ m.maps.keys handle, m.maps.Grounded key) →
        m.maps.get? handle k = m.maps.get? handle k' ∧
        m.maps.contains handle k = m.maps.contains handle k') ∧
      (∀ (op : MapOp) (d absent : Datum), m.maps.Grounded d →
        op.lookup m.maps d k absent = op.lookup m.maps d k' absent)) ∧
    (∀ args : List Datum, args ≠ [] → (∀ x ∈ args, m.maps.Grounded x) →
      ∃ answer, Primitive.equal.apply host args m = .done (.bool answer) m ∧
        (answer = true ↔ ∀ x ∈ args, ∀ y ∈ args, m.maps.equal x y = true)) := by
  have hE := MapStore.equivalentOn_grounded m.maps
  refine ⟨hE, fun x y hx _ => hx.equal_iff_alike hE fun p => hx.part,
    fun x y xs ys hx hy => hx.equal_maps_iff hy, fun k k' hk hk' heq => ⟨?_, ?_⟩, ?_⟩
  · intro handle hkeys
    have hentries : Entries.KeysIn m.maps.Grounded (m.maps.entries handle.table) :=
      fun e he => hkeys e.1 (List.mem_map_of_mem he)
    have hget : m.maps.get? handle k = m.maps.get? handle k' :=
      MapStore.find?_eq_of_equal hentries hk hk' heq
    exact ⟨hget, congrArg Option.isSome hget⟩
  · intro op d absent hd
    exact MapStore.lookup_eq_of_equal op absent hd hk hk' heq
  · intro args hargs hgrounded
    refine ⟨Primitive.allEqual m.maps.equal args, ?_, Primitive.allEqual_iff hE hgrounded⟩
    have henough : ¬ args.length < 1 := by
      have hpos := List.length_pos_iff.mpr hargs
      omega
    simp [Primitive.apply, Primitive.applyEqual, Primitive.expectAtLeast, henough,
      Outcome.ofExcept]

/-- A table and a map that cannot change, with keys that are a table and a map, in another order,
with zeros of both signs and with two numbers that are none. -/
theorem equal_equivalence_respected_nested :
    let zero : Datum := .map [(.nil, .float ⟨0⟩)]
    let m : Machine := { Machine.blank with maps := ⟨#[
      [(.keyword "a", .int 1), (.table 1, .float ⟨0x7FF8000000000000⟩)],
      [(.nil, .float ⟨0x8000000000000000⟩)]]⟩ }
    let fixed : Datum := .map [(zero, .float ⟨0xFFF8000000000000⟩), (.keyword "a", .int 1)]
    (m.maps.Grounded (.table 0) ∧ m.maps.Grounded fixed ∧ m.maps.equal fixed (.table 0) = true) ∧
      m.maps.equal (.table 0) fixed = true ∧
      m.maps.get? ⟨0, true⟩ zero = m.maps.get? ⟨0, true⟩ (.table 1) ∧
      ∃ answer, Primitive.equal.apply ⟨.initial, fun _ => .unknown⟩ [fixed, .table 0, fixed] m =
          .done (.bool answer) m ∧
        (answer = true ↔ ∀ x ∈ [fixed, .table 0, fixed], ∀ y ∈ [fixed, .table 0, fixed],
          m.maps.equal x y = true) := by
  intro zero m fixed
  have hatom : ∀ {x : Datum}, x.isAtom = true → m.maps.Grounded x := MapStore.grounded_atom
  have hinner : m.maps.Grounded (.table 1) := by
    refine MapStore.grounded_of_parts ?_ (fun id hid => ?_) fun entries hentries => ?_
    · change ∀ p ∈ [Datum.nil, .float ⟨0x8000000000000000⟩], m.maps.Grounded p
      simp only [List.forall_mem_cons]
      exact ⟨hatom rfl, hatom rfl, by simp⟩
    · cases hid
      decide
    · cases hentries
      exact List.pairwise_singleton _ _
  have hzero : m.maps.Grounded zero := by
    refine MapStore.grounded_of_parts ?_ (by simp [zero]) fun entries hentries => ?_
    · change ∀ p ∈ [Datum.nil, .float ⟨0⟩], m.maps.Grounded p
      simp only [List.forall_mem_cons]
      exact ⟨hatom rfl, hatom rfl, by simp⟩
    · cases hentries
      exact List.pairwise_singleton _ _
  have htable : m.maps.Grounded (.table 0) := by
    refine MapStore.grounded_of_parts ?_ (fun id hid => ?_) fun entries hentries => ?_
    · change ∀ p ∈ [Datum.keyword "a", .table 1, .int 1, .float ⟨0x7FF8000000000000⟩],
        m.maps.Grounded p
      simp only [List.forall_mem_cons]
      exact ⟨hatom rfl, hinner, hatom rfl, hatom rfl, by simp⟩
    · cases hid
      decide
    · cases hentries
      exact List.pairwise_pair.mpr rfl
  have hfixed : m.maps.Grounded fixed := by
    refine MapStore.grounded_of_parts ?_ (by simp [fixed]) fun entries hentries => ?_
    · change ∀ p ∈ [zero, .keyword "a", .float ⟨0xFFF8000000000000⟩, .int 1], m.maps.Grounded p
      simp only [List.forall_mem_cons]
      exact ⟨hzero, hatom rfl, hatom rfl, hatom rfl, by simp⟩
    · cases hentries
      exact List.pairwise_pair.mpr rfl
  have hkeys : ∀ key ∈ m.maps.keys ⟨0, true⟩, m.maps.Grounded key := by
    change ∀ key ∈ [Datum.keyword "a", .table 1], m.maps.Grounded key
    simp only [List.forall_mem_cons]
    exact ⟨hatom rfl, hinner, by simp⟩
  have hequal : m.maps.equal fixed (.table 0) = true := by rfl
  have hkey : m.maps.equal zero (.table 1) = true := by rfl
  obtain ⟨hE, _, _, hlookup, hargs⟩ :=
    equal_equivalence_respected ⟨.initial, fun _ => .unknown⟩ m
  have hall : ∀ x ∈ [fixed, .table 0, fixed], m.maps.Grounded x := by simp [hfixed, htable]
  exact ⟨⟨htable, hfixed, hequal⟩, hE.symm hfixed htable hequal,
    ((hlookup zero (.table 1) hzero hinner hkey).1 ⟨0, true⟩ hkeys).1, hargs _ (by simp) hall⟩

end TableLisp

import TableLisp.Proofs.Data.Equality
import TableLisp.Proofs.Data.Primitives

/-! Maps that are shared and changed. Whatever is done to any number of maps, each table is the list
that keeps the order of its keys: a value is replaced where its key stands, a new key goes to the end,
and a removal keeps the order of the rest. A table behind a map that cannot change stays as it is, and
a change in place is seen through the handles of its table alone. -/

namespace TableLisp

namespace Entries

/-- The value of a key that is there is replaced; a new key goes to the end. -/
def put (eq : Datum → Datum → Bool) (entry : Datum × Datum) (entries : Entries) : Entries :=
  if entries.any fun e => eq entry.1 e.1 then
    entries.map fun e => if eq entry.1 e.1 then (e.1, entry.2) else e
  else entries ++ [entry]

def putAll (eq : Datum → Datum → Bool) (pairs entries : Entries) : Entries :=
  pairs.foldl (fun entries entry => put eq entry entries) entries

/-- The entries whose key is none of the given ones. -/
def without (eq : Datum → Datum → Bool) (keys : List Datum) (entries : Entries) : Entries :=
  entries.filter fun e => keys.all fun key => !eq key e.1

variable {K : Datum → Prop} {eq eq' : Datum → Datum → Bool} {entries pairs : Entries}
variable {entry : Datum × Datum} {key : Datum} {keys : List Datum}

theorem insert_congr (h : ∀ e ∈ entries, eq entry.1 e.1 = eq' entry.1 e.1) :
    insert eq entry entries = insert eq' entry entries := by
  induction entries with
  | nil => rfl
  | cons e more ih =>
    obtain ⟨hfirst, hmore⟩ := List.forall_mem_cons.mp h
    rw [insert, insert, hfirst, ih hmore]

theorem erase_congr (h : ∀ e ∈ entries, eq key e.1 = eq' key e.1) :
    erase eq key entries = erase eq' key entries := by
  induction entries with
  | nil => rfl
  | cons e more ih =>
    obtain ⟨hfirst, hmore⟩ := List.forall_mem_cons.mp h
    rw [erase, erase, hfirst, ih hmore]

section

variable (hK : EquivalentOn K eq)

include hK

theorem ne_of_distinct {e : Datum × Datum} (hd : Distinct eq (e :: entries))
    (hk : KeysIn K (e :: entries)) (hkey : K key) (heq : eq key e.1 = true) :
    ∀ later ∈ entries, eq key later.1 = false := by
  intro later hlater
  obtain ⟨hfirst, hmore⟩ := keysIn_cons.mp hk
  refine Bool.eq_false_iff.mpr fun hlater' => ?_
  have hequal : eq later.1 e.1 = true :=
    hK.trans (hmore later hlater) hkey hfirst (hK.symm hkey (hmore later hlater) hlater') heq
  rw [(List.pairwise_cons.mp hd).1 later hlater] at hequal
  cases hequal

theorem insert_eq_put (hd : Distinct eq entries) (hk : KeysIn K entries) (hentry : K entry.1) :
    insert eq entry entries = put eq entry entries := by
  induction entries with
  | nil => rfl
  | cons e more ih =>
    obtain ⟨_, hmore⟩ := List.pairwise_cons.mp hd
    have hrest := ih hmore (keysIn_cons.mp hk).2
    cases heq : eq entry.1 e.1 with
    | true =>
      have hkept : ∀ e ∈ more, (if eq entry.1 e.1 then (e.1, entry.2) else e) = id e := by
        intro e he
        simp [ne_of_distinct hK hd hk hentry heq e he]
      simp [insert, put, heq, List.map_congr_left hkept]
    | false =>
      rw [insert, heq, hrest]
      unfold put
      by_cases hany : more.any fun e => eq entry.1 e.1
      · simp [heq, hany]
      · simp [heq, hany]

theorem erase_eq_without (hd : Distinct eq entries) (hk : KeysIn K entries) (hkey : K key) :
    erase eq key entries = without eq [key] entries := by
  induction entries with
  | nil => rfl
  | cons e more ih =>
    obtain ⟨_, hmore⟩ := List.pairwise_cons.mp hd
    have hrest := ih hmore (keysIn_cons.mp hk).2
    cases heq : eq key e.1 with
    | true =>
      have hkept : without eq [key] more = more := by
        refine List.filter_eq_self.mpr fun e he => ?_
        simp [ne_of_distinct hK hd hk hkey heq e he]
      simpa [erase, without, heq] using hkept.symm
    | false => simpa [erase, without, heq] using hrest

end

/-! What the equality that the tables give does with keys that nothing can change. -/

theorem Keyed.insert (store : MapStore) (h : Keyed entries) (hentry : entry.1.Fixed) :
    Entries.insert store.equal entry entries = put Datum.equalFixed entry entries ∧
      Keyed (put Datum.equalFixed entry entries) := by
  have hput := insert_eq_put Datum.equivalentOn_fixed h.distinct h.fixed hentry
  refine ⟨?_, ?_⟩
  · rw [← hput]
    exact insert_congr fun e he => store.equal_fixed hentry (h.fixed e he)
  · rw [← hput]
    exact ⟨keysIn_insert h.fixed hentry, distinct_insert h.distinct⟩

theorem Keyed.insertAll (store : MapStore) (h : Keyed entries)
    (hpairs : KeysIn Datum.Fixed pairs) :
    Entries.insertAll store.equal pairs entries = putAll Datum.equalFixed pairs entries ∧
      Keyed (putAll Datum.equalFixed pairs entries) := by
  induction pairs generalizing entries with
  | nil => exact ⟨rfl, h⟩
  | cons entry more ih =>
    obtain ⟨hentry, hmore⟩ := keysIn_cons.mp hpairs
    obtain ⟨hput, hkeyed⟩ := h.insert store hentry
    obtain ⟨hputAll, hkeyed'⟩ := ih hkeyed hmore
    refine ⟨?_, hkeyed'⟩
    rw [Entries.insertAll, List.foldl_cons, hput]
    exact hputAll

theorem Keyed.eraseAll (store : MapStore) (h : Keyed entries) (hkeys : ∀ key ∈ keys, key.Fixed) :
    Entries.eraseAll store.equal keys entries = without Datum.equalFixed keys entries := by
  induction keys generalizing entries with
  | nil => simp [Entries.eraseAll, without]
  | cons key more ih =>
    obtain ⟨hkey, hmore⟩ := List.forall_mem_cons.mp hkeys
    have herase : erase store.equal key entries = without Datum.equalFixed [key] entries := by
      rw [← erase_eq_without Datum.equivalentOn_fixed h.distinct h.fixed hkey]
      exact erase_congr fun e he => store.equal_fixed hkey (h.fixed e he)
    have hkeyed : Keyed (without Datum.equalFixed [key] entries) := h.sublist List.filter_sublist
    rw [Entries.eraseAll, List.foldl_cons, herase]
    refine (ih hkeyed hmore).trans ?_
    rw [without, without, without, List.filter_filter]
    exact List.filter_congr fun e _ => by simp [Bool.and_comm]

end Entries

/-- What can be done with a map. -/
inductive MapAction where
  | clone
  | assoc (pairs : Entries)
  | dissoc (keys : List Datum)
  | assocInPlace (pairs : Entries)
  | dissocInPlace (keys : List Datum)

/-- Maps are told by their number, in the order in which someone got them. -/
inductive MapCall where
  | ofPairs (isMutable : Bool) (pairs : Entries)
  | perform (map : Nat) (action : MapAction)

/-- The keys that are named. -/
def MapAction.keys : MapAction → List Datum
  | clone => []
  | assoc pairs | assocInPlace pairs => pairs.map (·.1)
  | dissoc keys | dissocInPlace keys => keys

def MapCall.keys : MapCall → List Datum
  | ofPairs _ pairs => pairs.map (·.1)
  | perform _ action => action.keys

def MapAction.isInPlace : MapAction → Bool
  | assocInPlace _ | dissocInPlace _ => true
  | _ => false

/-- Tables, and the maps that someone holds. -/
structure Maps where
  store : MapStore
  handles : List MapHandle

namespace Maps

def initial : Maps := ⟨.empty, []⟩

/-- Someone gets a map that was made. -/
def hold (s : Maps) (made : MapHandle × MapStore) : Maps := ⟨made.2, s.handles ++ [made.1]⟩

def perform (s : Maps) (m : MapHandle) : MapAction → Except Error Maps
  | .clone => .ok { s with handles := s.handles ++ [m] }
  | .assoc pairs => .ok (s.hold (s.store.assoc m pairs))
  | .dissoc keys => .ok (s.hold (s.store.dissoc m keys))
  | .assocInPlace pairs => (s.store.assocInPlace m pairs).map fun store => { s with store }
  | .dissocInPlace keys => (s.store.dissocInPlace m keys).map fun store => { s with store }

/-- What a call comes to. Without the map that it is about, there is nothing to do. -/
def call (s : Maps) : MapCall → Except Error Maps
  | .ofPairs isMutable pairs => .ok (s.hold (s.store.ofPairs isMutable pairs))
  | .perform i action =>
    match s.handles[i]? with
    | some m => s.perform m action
    | none => .ok s

/-- What there is after a call that failed is what there was. -/
def settle (s : Maps) : Except Error Maps → Maps
  | .ok s' => s'
  | .error _ => s

def after (s : Maps) (call : MapCall) : Maps := s.settle (s.call call)

def run (s : Maps) (calls : List MapCall) : Maps := calls.foldl after s

variable {s s' : Maps} {m : MapHandle} {action : MapAction}

theorem perform_eq_error_iff {e : Error} : s.perform m action = .error e ↔
    e = .immutable ∧ m.mutable = false ∧ action.isInPlace = true := by
  cases action with
  | assocInPlace pairs =>
    cases hm : m.mutable <;>
      simp [perform, MapStore.assocInPlace, hm, Except.map, MapAction.isInPlace, eq_comm]
  | dissocInPlace keys =>
    cases hm : m.mutable <;>
      simp [perform, MapStore.dissocInPlace, hm, Except.map, MapAction.isInPlace, eq_comm]
  | _ => simp [perform, MapAction.isInPlace]

/-- A call fails for one reason only: something is to be changed in place that cannot change. -/
theorem call_eq_error_iff {call : MapCall} {e : Error} : s.call call = .error e ↔
    e = .immutable ∧ ∃ i m action, call = .perform i action ∧ s.handles[i]? = some m ∧
      m.mutable = false ∧ action.isInPlace = true := by
  cases call with
  | ofPairs isMutable pairs => simp [Maps.call]
  | perform i action =>
    cases hm : s.handles[i]? with
    | none => simp [Maps.call, hm]
    | some m => simp [Maps.call, hm, perform_eq_error_iff]

/-! What a call can do is said once; what holds of all calls follows from it. -/

/-- Nothing is done, a map is given out again, a table is made, or one that may change is written. -/
inductive Step (s : Maps) : Maps → Prop where
  | stay : Step s s
  | clone {m : MapHandle} : m ∈ s.handles → Step s { s with handles := s.handles ++ [m] }
  | make (isMutable : Bool) (entries : Entries) : Step s (s.hold (s.store.make isMutable entries))
  | write {m : MapHandle} (entries : Entries) : m ∈ s.handles → m.mutable = true →
      Step s { s with store := s.store.write m.table entries }

theorem step_perform (hm : m ∈ s.handles) (action : MapAction) :
    Step s (s.settle (s.perform m action)) := by
  cases action with
  | clone => exact .clone hm
  | assoc pairs => exact .make _ _
  | dissoc keys => exact .make _ _
  | assocInPlace pairs =>
    simp only [perform, MapStore.assocInPlace]
    split
    · exact .write _ hm ‹_›
    · exact .stay
  | dissocInPlace keys =>
    simp only [perform, MapStore.dissocInPlace]
    split
    · exact .write _ hm ‹_›
    · exact .stay

theorem step_after (s : Maps) (call : MapCall) : Step s (s.after call) := by
  cases call with
  | ofPairs isMutable pairs => exact .make isMutable _
  | perform i action =>
    simp only [after, call]
    split
    · exact step_perform (List.mem_of_getElem? ‹_›) action
    · exact .stay

/-- Handles have tables, and those of one table agree on whether it may change. -/
structure Shared (s : Maps) : Prop where
  bound : ∀ m ∈ s.handles, m.table < s.store.size
  agree : ∀ m ∈ s.handles, ∀ m' ∈ s.handles, m.table = m'.table → m.mutable = m'.mutable

theorem shared_initial : Shared initial := ⟨by simp [initial], by simp [initial]⟩

theorem Shared.step (h : Shared s) (hstep : Step s s') : Shared s' := by
  cases hstep with
  | stay => exact h
  | @clone m hm =>
    have hheld : ∀ m' ∈ s.handles ++ [m], m' ∈ s.handles := by
      intro m' hm'
      rcases List.mem_append.mp hm' with hm' | hm'
      · exact hm'
      · rwa [List.mem_singleton.mp hm']
    exact ⟨fun m' hm' => h.bound m' (hheld m' hm'), fun m' hm' m'' hm'' =>
      h.agree m' (hheld m' hm') m'' (hheld m'' hm'')⟩
  | make isMutable entries =>
    have hcases : ∀ m' ∈ (s.hold (s.store.make isMutable entries)).handles,
        m' ∈ s.handles ∧ m'.table < s.store.size ∨ m' = ⟨s.store.size, isMutable⟩ := by
      intro m' hm'
      rcases List.mem_append.mp hm' with hm' | hm'
      · exact .inl ⟨hm', h.bound m' hm'⟩
      · exact .inr (List.mem_singleton.mp hm')
    refine ⟨fun m' hm' => ?_, fun m' hm' m'' hm'' htable => ?_⟩
    · rw [hold, MapStore.size_make]
      rcases hcases m' hm' with ⟨_, hlt⟩ | rfl
      · exact Nat.lt_succ_of_lt hlt
      · exact Nat.lt_succ_self _
    · rcases hcases m' hm' with ⟨hm', hlt⟩ | rfl <;> rcases hcases m'' hm'' with ⟨hm'', hlt'⟩ | rfl
      · exact h.agree m' hm' m'' hm'' htable
      · exact absurd htable (Nat.ne_of_lt hlt)
      · exact absurd htable.symm (Nat.ne_of_lt hlt')
      · rfl
  | write entries _ _ =>
    exact ⟨fun m hm => by simpa using h.bound m hm, h.agree⟩

/-- What a map that cannot change holds is the same after any call. -/
theorem Shared.frozen_step (h : Shared s) (hm : m ∈ s.handles) (hmutable : m.mutable = false)
    (hstep : Step s s') :
    m ∈ s'.handles ∧ s'.store.entries m.table = s.store.entries m.table := by
  cases hstep with
  | stay => exact ⟨hm, rfl⟩
  | clone _ => exact ⟨List.mem_append_left _ hm, rfl⟩
  | make isMutable entries =>
    have hne := Nat.ne_of_lt (h.bound m hm)
    exact ⟨List.mem_append_left _ hm, by rw [hold, MapStore.entries_make, if_neg hne]⟩
  | @write m' entries hm' hmutable' =>
    have hne : m.table ≠ m'.table := by
      intro heq
      have hagree := h.agree m hm m' hm' heq
      rw [hmutable, hmutable'] at hagree
      cases hagree
    refine ⟨hm, ?_⟩
    rw [MapStore.entries_write, if_neg fun hboth => hne hboth.1]

theorem Shared.run (h : Shared s) (calls : List MapCall) : Shared (s.run calls) := by
  induction calls generalizing s with
  | nil => exact h
  | cons call calls ih => exact ih (h.step (step_after s call))

theorem Shared.frozen (h : Shared s) (hm : m ∈ s.handles) (hmutable : m.mutable = false)
    (calls : List MapCall) : (s.run calls).store.entries m.table = s.store.entries m.table := by
  induction calls generalizing s with
  | nil => rfl
  | cons call calls ih =>
    obtain ⟨hm', hsame⟩ := h.frozen_step hm hmutable (step_after s call)
    exact (ih (h.step (step_after s call)) hm').trans hsame

end Maps

/-! ### The ordered lists that the tables are -/

/-- A list of entries for each table, and who may change it. -/
structure OrderedMaps where
  tables : List Entries
  handles : List MapHandle

namespace OrderedMaps

def initial : OrderedMaps := ⟨[], []⟩

def table (s : OrderedMaps) (m : MapHandle) : Entries := s.tables[m.table]?.getD []

/-- Someone gets a map with a table of its own. -/
def add (s : OrderedMaps) (isMutable : Bool) (entries : Entries) : OrderedMaps :=
  ⟨s.tables ++ [entries], s.handles ++ [⟨s.tables.length, isMutable⟩]⟩

/-- The table of a map becomes another, if it may. -/
def replace (s : OrderedMaps) (m : MapHandle) (entries : Entries) : OrderedMaps :=
  if m.mutable then { s with tables := s.tables.set m.table entries } else s

def perform (s : OrderedMaps) (m : MapHandle) : MapAction → OrderedMaps
  | .clone => { s with handles := s.handles ++ [m] }
  | .assoc pairs => s.add m.mutable (Entries.putAll Datum.equalFixed pairs (s.table m))
  | .dissoc keys => s.add m.mutable (Entries.without Datum.equalFixed keys (s.table m))
  | .assocInPlace pairs => s.replace m (Entries.putAll Datum.equalFixed pairs (s.table m))
  | .dissocInPlace keys => s.replace m (Entries.without Datum.equalFixed keys (s.table m))

def after (s : OrderedMaps) : MapCall → OrderedMaps
  | .ofPairs isMutable pairs => s.add isMutable (Entries.putAll Datum.equalFixed pairs [])
  | .perform i action =>
    match s.handles[i]? with
    | some m => s.perform m action
    | none => s

def run (s : OrderedMaps) (calls : List MapCall) : OrderedMaps := calls.foldl after s

end OrderedMaps

namespace Maps

/-- The lists that the tables hold. -/
def ordered (s : Maps) : OrderedMaps := ⟨s.store.tables.toList, s.handles⟩

variable {s : Maps} {m : MapHandle} {call : MapCall} {action : MapAction}

theorem table_ordered (s : Maps) (m : MapHandle) : s.ordered.table m = s.store.entries m.table := by
  simp [OrderedMaps.table, ordered, MapStore.entries]

theorem ordered_make (s : Maps) (isMutable : Bool) (entries : Entries) :
    (s.hold (s.store.make isMutable entries)).ordered = s.ordered.add isMutable entries := by
  simp [ordered, hold, MapStore.make, OrderedMaps.add, MapStore.size]

theorem ordered_write (s : Maps) (m : MapHandle) (hm : m.mutable = true) (entries : Entries) :
    ({ s with store := s.store.write m.table entries } : Maps).ordered =
      s.ordered.replace m entries := by
  simp [ordered, MapStore.write, OrderedMaps.replace, hm]

/-- All tables have keys in which nothing can change, no two of them equal. -/
def Keyed (s : Maps) : Prop := ∀ id, (s.store.entries id).Keyed

theorem keyed_initial : Keyed initial := fun _ => .nil

theorem Keyed.make (h : s.Keyed) {entries : Entries} (hentries : entries.Keyed) (isMutable : Bool) :
    (s.hold (s.store.make isMutable entries)).Keyed := by
  intro id
  rw [hold, MapStore.entries_make]
  split
  · exact hentries
  · exact h id

theorem Keyed.write (h : s.Keyed) {entries : Entries} (hentries : entries.Keyed) (table : TableId) :
    Keyed { s with store := s.store.write table entries } := by
  intro id
  rw [MapStore.entries_write]
  split
  · exact hentries
  · exact h id

theorem Keyed.added (h : s.Keyed) (m : MapHandle) (pairs : Entries)
    (hpairs : ∀ key ∈ pairs.map (·.1), key.Fixed) : s.store.added m.table pairs =
        Entries.putAll Datum.equalFixed pairs (s.ordered.table m) ∧
      (s.store.added m.table pairs).Keyed := by
  have hfixed : Entries.KeysIn Datum.Fixed pairs := fun e he =>
    hpairs e.1 (List.mem_map_of_mem he)
  obtain ⟨hput, hkeyed⟩ := (h m.table).insertAll s.store hfixed
  rw [table_ordered, MapStore.added, hput]
  exact ⟨rfl, hkeyed⟩

theorem Keyed.removed (h : s.Keyed) (m : MapHandle) (keys : List Datum)
    (hkeys : ∀ key ∈ keys, key.Fixed) : s.store.removed m.table keys =
        Entries.without Datum.equalFixed keys (s.ordered.table m) ∧
      (s.store.removed m.table keys).Keyed := by
  rw [table_ordered, MapStore.removed, (h m.table).eraseAll s.store hkeys]
  exact ⟨rfl, (h m.table).sublist List.filter_sublist⟩

theorem Keyed.perform (h : s.Keyed) (hkeys : ∀ key ∈ action.keys, key.Fixed) (m : MapHandle) :
    (s.settle (s.perform m action)).ordered = s.ordered.perform m action ∧
      (s.settle (s.perform m action)).Keyed := by
  cases action with
  | clone => exact ⟨rfl, h⟩
  | assoc pairs =>
    obtain ⟨hput, hkeyed⟩ := h.added m pairs hkeys
    rw [OrderedMaps.perform, ← hput]
    exact ⟨ordered_make s _ _, h.make hkeyed _⟩
  | dissoc keys =>
    obtain ⟨hwithout, hkeyed⟩ := h.removed m keys hkeys
    rw [OrderedMaps.perform, ← hwithout]
    exact ⟨ordered_make s _ _, h.make hkeyed _⟩
  | assocInPlace pairs =>
    obtain ⟨hput, hkeyed⟩ := h.added m pairs hkeys
    rw [OrderedMaps.perform, ← hput, Maps.perform, MapStore.assocInPlace]
    split
    · exact ⟨ordered_write s m ‹_› _, h.write hkeyed _⟩
    · exact ⟨by rw [OrderedMaps.replace, if_neg ‹_›]; rfl, h⟩
  | dissocInPlace keys =>
    obtain ⟨hwithout, hkeyed⟩ := h.removed m keys hkeys
    rw [OrderedMaps.perform, ← hwithout, Maps.perform, MapStore.dissocInPlace]
    split
    · exact ⟨ordered_write s m ‹_› _, h.write hkeyed _⟩
    · exact ⟨by rw [OrderedMaps.replace, if_neg ‹_›]; rfl, h⟩

theorem Keyed.after (h : s.Keyed) (hkeys : ∀ key ∈ call.keys, key.Fixed) :
    (s.after call).ordered = s.ordered.after call ∧ (s.after call).Keyed := by
  cases call with
  | ofPairs isMutable pairs =>
    have hfixed : Entries.KeysIn Datum.Fixed pairs := fun e he =>
      hkeys e.1 (List.mem_map_of_mem he)
    obtain ⟨hput, hkeyed⟩ := Entries.Keyed.nil.insertAll s.store hfixed
    rw [OrderedMaps.after, ← hput] at *
    exact ⟨ordered_make s _ _, h.make hkeyed _⟩
  | perform i action =>
    rw [Maps.after, Maps.call, OrderedMaps.after, show s.ordered.handles = s.handles from rfl]
    split
    · exact h.perform hkeys _
    · exact ⟨rfl, h⟩

theorem Keyed.run (h : s.Keyed) {calls : List MapCall}
    (hkeys : ∀ call ∈ calls, ∀ key ∈ call.keys, key.Fixed) :
    (s.run calls).ordered = s.ordered.run calls ∧ (s.run calls).Keyed := by
  induction calls generalizing s with
  | nil => exact ⟨rfl, h⟩
  | cons call calls ih =>
    obtain ⟨hcall, hcalls⟩ := List.forall_mem_cons.mp hkeys
    obtain ⟨hordered, hkeyed⟩ := h.after hcall
    obtain ⟨hrun, hkeyed'⟩ := ih hkeyed hcalls
    refine ⟨?_, hkeyed'⟩
    rw [OrderedMaps.run, List.foldl_cons, ← hordered]
    exact hrun

/-- The table of a map is found as the given list. -/
structure Reads (store : MapStore) (m : MapHandle) (table : Entries) : Prop where
  keys : store.keys m = table.map (·.1)
  values : store.values m = table.map (·.2)
  length : store.length m = table.length
  get : ∀ key v, key.Fixed →
    (store.get? m key = some v ↔ ∃ e ∈ table, key.equalFixed e.1 = true ∧ e.2 = v)
  contains : ∀ key, key.Fixed →
    (store.contains m key = true ↔ ∃ e ∈ table, key.equalFixed e.1 = true)

theorem Keyed.reads (h : s.Keyed) (m : MapHandle) : Reads s.store m (s.ordered.table m) := by
  have hget : ∀ key v, key.Fixed → (s.store.get? m key = some v ↔
      ∃ e ∈ s.store.entries m.table, key.equalFixed e.1 = true ∧ e.2 = v) := by
    intro key v hkey
    have hsame : s.store.get? m key =
        Entries.find? key.equalFixed (s.store.entries m.table) :=
      Entries.find?_congr fun e he => s.store.equal_fixed hkey ((h m.table).fixed e he)
    rw [hsame]
    exact Entries.find?_eq_some_iff Datum.equivalentOn_fixed (h m.table).distinct
      (h m.table).fixed hkey
  rw [table_ordered]
  refine ⟨rfl, rfl, rfl, hget, fun key hkey => ?_⟩
  rw [MapStore.contains, Option.isSome_iff_exists]
  simp only [hget key _ hkey]
  constructor
  · rintro ⟨_, e, he, heq, _⟩
    exact ⟨e, he, heq⟩
  · rintro ⟨e, he, heq⟩
    exact ⟨e.2, e, he, heq, rfl⟩

/-- The table of a map now holds what the one that was made holds, and no other table changed. -/
structure Changed (store store' : MapStore) (m : MapHandle) (made : MapHandle × MapStore) : Prop where
  own : ∀ clone : MapHandle, clone.table = m.table →
    store'.entries clone.table = made.2.entries made.1.table
  others : ∀ other : MapHandle, other.table ≠ m.table →
    store'.entries other.table = store.entries other.table

theorem changed_write {store : MapStore} (hm : m.table < store.size) (isMutable : Bool)
    (entries : Entries) :
    Changed store (store.write m.table entries) m (store.make isMutable entries) where
  own clone hclone := by
    rw [MapStore.entries_write, if_pos ⟨hclone, hm⟩, MapStore.entries_make]
    exact (if_pos rfl).symm
  others other hother := by
    rw [MapStore.entries_write, if_neg fun hboth => hother hboth.1]

theorem assocInPlace_refused (store : MapStore) {d : Datum} {args : List Datum}
    (h : (∀ id, d ≠ .table id) ∨ args.length % 2 = 1) :
    ∃ e, MapOp.assocInPlace.apply store (d :: args) = .error e := by
  have hodd : args.length % 2 = 1 →
      MapOp.assocInPlace.pairs args = .error (.arguments MapOp.assocInPlace.name .oddPairs) := by
    intro hodd
    rw [MapOp.pairs, if_neg (by omega)]
  show ∃ e, MapOp.assocInPlaceOf .assocInPlace store d args = .error e
  cases d with
  | table id =>
    obtain hne | hlength := h
    · exact absurd rfl (hne id)
    · exact ⟨_, by rw [MapOp.assocInPlaceOf, hodd hlength]; rfl⟩
  | map entries =>
    rw [MapOp.assocInPlaceOf]
    cases MapOp.assocInPlace.pairs args with
    | error e => exact ⟨e, rfl⟩
    | ok pairs => exact ⟨.immutable, rfl⟩
  | _ => exact ⟨_, rfl⟩

theorem dissocInPlace_refused (store : MapStore) {d : Datum} (args : List Datum)
    (h : ∀ id, d ≠ .table id) : ∃ e, MapOp.dissocInPlace.apply store (d :: args) = .error e := by
  show ∃ e, MapOp.dissocInPlaceOf .dissocInPlace store d args = .error e
  cases d with
  | table id => exact absurd rfl (h id)
  | _ => exact ⟨_, rfl⟩

theorem apply_map_failed (host : Host) {op : MapOp} {args : List Datum} {machine : Machine}
    (h : ∃ e, op.apply machine.maps args = .error e) :
    ∃ e, (Primitive.map op).apply host args machine = .failed e machine := by
  obtain ⟨e, he⟩ := h
  exact ⟨e, by rw [Primitive.apply, he]⟩

/-- Maps are ordered lists of entries, whatever is done to any number of them and whoever shares
them. Each table is the list that it should be, and is read as such. What a map that cannot change
holds stays as it is. A change in place gives the table of a map what a new map would have got, and
changes no other. What fails changes nothing; such are changes in place of maps that cannot change
and of what is no map, and with keys that have no value. -/
theorem maps_refine_ordered (calls : List MapCall)
    (hkeys : ∀ call ∈ calls, ∀ key ∈ call.keys, key.Fixed) :
    let s := initial.run calls
    let spec := OrderedMaps.initial.run calls
    (s.ordered = spec ∧ ∀ m, Reads s.store m (spec.table m) ∧
      (spec.table m).Pairwise fun e later =>
        Datum.equalFixed e.1 later.1 = false ∧ Datum.equalFixed later.1 e.1 = false) ∧
    (∀ m ∈ s.handles, m.mutable = false → ∀ more,
      (s.run more).store.entries m.table = s.store.entries m.table) ∧
    (∀ m ∈ s.handles, m.mutable = true →
      (∀ pairs, ∃ store, s.store.assocInPlace m pairs = .ok store ∧
        Changed s.store store m (s.store.assoc m pairs)) ∧
      (∀ keys, ∃ store, s.store.dissocInPlace m keys = .ok store ∧
        Changed s.store store m (s.store.dissoc m keys))) ∧
    (∀ m ∈ s.handles, m.mutable = false →
      (∀ pairs, s.store.assocInPlace m pairs = .error .immutable) ∧
      (∀ keys, s.store.dissocInPlace m keys = .error .immutable)) ∧
    (∀ call e, s.call call = .error e ↔ e = .immutable ∧ ∃ i m action,
      call = .perform i action ∧ s.handles[i]? = some m ∧ m.mutable = false ∧
        action.isInPlace = true) ∧
    (∀ call e, s.call call = .error e → s.after call = s ∧ spec.after call = spec) ∧
    (∀ host (p : Primitive) args machine e after,
      p.apply host args machine = .failed e after → after.maps = machine.maps) ∧
    (∀ host machine d args,
      ((∀ id, d ≠ .table id) ∨ args.length % 2 = 1 → ∃ e,
        (Primitive.map .assocInPlace).apply host (d :: args) machine = .failed e machine) ∧
      ((∀ id, d ≠ .table id) → ∃ e,
        (Primitive.map .dissocInPlace).apply host (d :: args) machine = .failed e machine)) := by
  intro s spec
  have hshared : Shared s := shared_initial.run calls
  obtain ⟨hordered, hkeyed⟩ : s.ordered = spec ∧ s.Keyed := keyed_initial.run hkeys
  refine ⟨⟨hordered, fun m => ?_⟩, fun m hm hfixed more => hshared.frozen hm hfixed more,
    fun m hm hmutable => ?_, fun m _ hfixed => ?_, fun call e => call_eq_error_iff,
    fun call e he => ?_,
    fun host p args machine e after h => ?_, fun host machine d args => ?_⟩
  · rw [← hordered]
    exact ⟨hkeyed.reads m, by rw [table_ordered]; exact (hkeyed m.table).pairwise⟩
  · have hchanged := fun entries => changed_write (hshared.bound m hm) m.mutable entries
    exact ⟨fun pairs => ⟨_, if_pos hmutable, hchanged _⟩,
      fun keys => ⟨_, if_pos hmutable, hchanged _⟩⟩
  · simp [MapStore.assocInPlace, MapStore.dissocInPlace, hfixed]
  · refine ⟨by rw [after, he]; rfl, ?_⟩
    obtain ⟨_, i, m, action, rfl, hm, hfixed, hplace⟩ := call_eq_error_iff.mp he
    have hm' : spec.handles[i]? = some m := by rw [← hordered]; exact hm
    cases action with
    | assocInPlace pairs =>
      simp [OrderedMaps.after, hm', OrderedMaps.perform, OrderedMaps.replace, hfixed]
    | dissocInPlace keys =>
      simp [OrderedMaps.after, hm', OrderedMaps.perform, OrderedMaps.replace, hfixed]
    | _ => cases hplace
  · rw [Primitive.apply_failed h]
  · exact ⟨fun h => apply_map_failed host (assocInPlace_refused _ h),
      fun h => apply_map_failed host (dissocInPlace_refused _ args h)⟩

/-- A key that is named twice, a change through a clone, a new map made before that change, and a map
that cannot change. -/
theorem maps_refine_ordered_clone :
    let calls : List MapCall :=
      [.ofPairs true [(.keyword "a", .int 1), (.keyword "b", .int 2), (.keyword "a", .int 3)],
        .perform 0 .clone, .perform 0 (.assoc [(.keyword "c", .int 4)]),
        .ofPairs false [(.keyword "a", .int 1)],
        .perform 1 (.assocInPlace [(.keyword "b", .int 5)]),
        .perform 3 (.dissocInPlace [.keyword "a"])]
    let s := initial.run calls
    s.handles = [⟨0, true⟩, ⟨0, true⟩, ⟨1, true⟩, ⟨2, false⟩] ∧
      (OrderedMaps.initial.run calls).tables =
        [[(.keyword "a", .int 3), (.keyword "b", .int 5)],
          [(.keyword "a", .int 3), (.keyword "b", .int 2), (.keyword "c", .int 4)],
          [(.keyword "a", .int 1)]] ∧
      s.ordered = OrderedMaps.initial.run calls ∧
      ∀ more, (s.run more).store.entries 2 = s.store.entries 2 := by
  intro calls s
  have hhandles : s.handles = [⟨0, true⟩, ⟨0, true⟩, ⟨1, true⟩, ⟨2, false⟩] := by rfl
  have hkeys : ∀ call ∈ calls, ∀ key ∈ call.keys, key.Fixed := by
    have hnamed : ∀ call ∈ calls, ∀ key ∈ call.keys, key.isAtom = true := by
      simp [calls, MapCall.keys, MapAction.keys, Datum.isAtom]
    exact fun call hcall key hkey => .atom (hnamed call hcall key hkey)
  obtain ⟨⟨hordered, _⟩, hfrozen, _⟩ := maps_refine_ordered calls hkeys
  exact ⟨hhandles, by rfl, hordered, hfrozen ⟨2, false⟩ (by rw [hhandles]; simp) rfl⟩

end Maps

end TableLisp

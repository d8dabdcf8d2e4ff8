import TableLisp.Datum.Equality
import TableLisp.Datum.Printer
import TableLisp.Error

/-!
The tables behind maps. A handle names a table and says whether the table may be changed through
it; handles of one table see the same entries. Persistent operations make a new table, those in
place change the one they are given.
-/

namespace TableLisp

structure MapStore where
  tables : Array Entries

structure MapHandle where
  table : TableId
  mutable : Bool
  deriving DecidableEq, Repr

namespace MapStore

def empty : MapStore := ⟨#[]⟩

def size (store : MapStore) : Nat := store.tables.size

/-- What a table holds; a number without a table holds nothing. -/
def entries (store : MapStore) (id : TableId) : Entries := store.tables[id]?.getD []

/-- Equality of data that may hold tables. Tables that are not nested in themselves are nested at
most as deep as there are tables. -/
def equal (store : MapStore) : Datum → Datum → Bool :=
  Datum.equalWithin store.entries store.size

def textWithin (store : MapStore) (style : Style) : Nat → Datum → List Char
  | 0 => Datum.textWith style fun _ => []
  | depth + 1 => Datum.textWith style fun id =>
    let parts := (store.entries id).flatMap fun (k, v) =>
      [store.textWithin style depth k, store.textWithin style depth v]
    '\x7b' :: spaced parts ++ ['\x7d']

def text (store : MapStore) (style : Style) (d : Datum) : String :=
  String.ofList (store.textWithin style store.size d)

def make (store : MapStore) (isMutable : Bool) (entries : Entries) : MapHandle × MapStore :=
  (⟨store.size, isMutable⟩, ⟨store.tables.push entries⟩)

def write (store : MapStore) (id : TableId) (entries : Entries) : MapStore :=
  ⟨store.tables.setIfInBounds id entries⟩

/-- What a table holds with pairs added, the later winning over the earlier. -/
def added (store : MapStore) (id : TableId) (pairs : Entries) : Entries :=
  Entries.insertAll store.equal pairs (store.entries id)

def removed (store : MapStore) (id : TableId) (keys : List Datum) : Entries :=
  Entries.eraseAll store.equal keys (store.entries id)

def ofPairs (store : MapStore) (isMutable : Bool) (pairs : Entries) : MapHandle × MapStore :=
  store.make isMutable (Entries.insertAll store.equal pairs [])

def get? (store : MapStore) (m : MapHandle) (key : Datum) : Option Datum :=
  Entries.find? (store.equal key) (store.entries m.table)

def contains (store : MapStore) (m : MapHandle) (key : Datum) : Bool := (store.get? m key).isSome

def length (store : MapStore) (m : MapHandle) : Nat := (store.entries m.table).length

def keys (store : MapStore) (m : MapHandle) : List Datum := (store.entries m.table).map (·.1)

def values (store : MapStore) (m : MapHandle) : List Datum := (store.entries m.table).map (·.2)

def assoc (store : MapStore) (m : MapHandle) (pairs : Entries) : MapHandle × MapStore :=
  store.make m.mutable (store.added m.table pairs)

/-- A new map without some keys, which may change if the given one may. -/
def dissoc (store : MapStore) (m : MapHandle) (keys : List Datum) : MapHandle × MapStore :=
  store.make m.mutable (store.removed m.table keys)

def assocInPlace (store : MapStore) (m : MapHandle) (pairs : Entries) : Except Error MapStore :=
  if m.mutable then .ok (store.write m.table (store.added m.table pairs))
  else .error .immutable

def dissocInPlace (store : MapStore) (m : MapHandle) (keys : List Datum) :
    Except Error MapStore :=
  if m.mutable then .ok (store.write m.table (store.removed m.table keys))
  else .error .immutable

/-- Are two maps equal? Whether they may change does not matter. -/
def sameMap (store : MapStore) (a b : MapHandle) : Bool :=
  store.equal (.table a.table) (.table b.table)

def toDatum (store : MapStore) (m : MapHandle) : Datum :=
  if m.mutable then .table m.table else .map (store.entries m.table)

@[simp] theorem size_make (store : MapStore) (isMutable : Bool) (entries : Entries) :
    (store.make isMutable entries).2.size = store.size + 1 := by
  simp [make, size]

@[simp] theorem size_write (store : MapStore) (id : TableId) (entries : Entries) :
    (store.write id entries).size = store.size := by
  simp [write, size]

theorem entries_make (store : MapStore) (isMutable : Bool) (entries : Entries) (id : TableId) :
    (store.make isMutable entries).2.entries id =
      if id = store.size then entries else store.entries id := by
  by_cases h : id = store.tables.size
  · simp [make, MapStore.entries, size, h]
  · simp [make, MapStore.entries, size, Array.getElem?_push, h]

theorem entries_write (store : MapStore) (id id' : TableId) (entries : Entries) :
    (store.write id entries).entries id' =
      if id' = id ∧ id < store.size then entries else store.entries id' := by
  by_cases h : id' = id
  · subst h
    by_cases hlt : id' < store.tables.size
    · simp [write, MapStore.entries, size, hlt]
    · simp [write, MapStore.entries, size, hlt]
  · have hne : ¬ id = id' := fun e => h e.symm
    simp [write, MapStore.entries, size, h, hne]

end MapStore

end TableLisp

import TableLisp.Datum.MapStore
import TableLisp.Primitive.Arguments

/-!
Maps. A new map made here can change; one made from another can change if that one can.
-/

namespace TableLisp.MapOp

def name (op : MapOp) : String := op.profile.name

abbrev Answer := Except Error (Datum × MapStore)

def notAMap (op : MapOp) (d : Datum) : Error := Primitive.wrongKind s!"map for {op.name}" d

def entriesOf (op : MapOp) (store : MapStore) (d : Datum) : Except Error Entries :=
  match d.entries? store.entries with
  | some entries => .ok entries
  | none => .error (op.notAMap d)

def pairs (op : MapOp) (args : List Datum) : Except Error Entries :=
  if args.length % 2 = 0 then .ok (Entries.pairUp args)
  else .error (.arguments op.name .oddPairs)

def lookup (op : MapOp) (store : MapStore) (d key absent : Datum) : Except Error Datum :=
  match d with
  | .nil => .ok absent
  | _ => (op.entriesOf store d).map fun entries =>
    (Entries.find? (store.equal key) entries).getD absent

def assocOf (op : MapOp) (store : MapStore) (d : Datum) (args : List Datum) : Answer :=
  match d with
  | .table id => do
    let (m, store) := store.assoc ⟨id, true⟩ (← op.pairs args)
    return (.table m.table, store)
  | .map entries => do
    return (.map (Entries.insertAll store.equal (← op.pairs args) entries), store)
  | other => .error (op.notAMap other)

def dissocOf (op : MapOp) (store : MapStore) (d : Datum) (keys : List Datum) : Answer :=
  match d with
  | .table id =>
    let (m, store) := store.dissoc ⟨id, true⟩ keys
    .ok (.table m.table, store)
  | .map entries => .ok (.map (Entries.eraseAll store.equal keys entries), store)
  | other => .error (op.notAMap other)

/-- Adds pairs in place. That the arguments do not pair up is found before that the map cannot
change. -/
def assocInPlaceOf (op : MapOp) (store : MapStore) (d : Datum) (args : List Datum) : Answer :=
  match d with
  | .table id => do return (d, ← store.assocInPlace ⟨id, true⟩ (← op.pairs args))
  | .map _ => do
    let _ ← op.pairs args
    .error .immutable
  | other => .error (op.notAMap other)

def dissocInPlaceOf (op : MapOp) (store : MapStore) (d : Datum) (keys : List Datum) : Answer :=
  match d with
  | .table id => do return (d, ← store.dissocInPlace ⟨id, true⟩ keys)
  | .map _ => .error .immutable
  | other => .error (op.notAMap other)

def apply (op : MapOp) (store : MapStore) (args : List Datum) : Answer :=
  match op, args with
  | make, args => do
    let (m, store) := store.ofPairs true (← op.pairs args)
    return (.table m.table, store)
  | get, [d, key] => do return (← op.lookup store d key .nil, store)
  | get, [d, key, absent] => do return (← op.lookup store d key absent, store)
  | get, args => .error (.arguments op.name (.twoOrThree args.length))
  | contains, [d, key] => do
    let entries ← op.entriesOf store d
    return (.bool (Entries.find? (store.equal key) entries).isSome, store)
  | keys, [d] => do return (.list ((← op.entriesOf store d).map (·.1)), store)
  | vals, [d] => do return (.list ((← op.entriesOf store d).map (·.2)), store)
  | assoc, d :: more => op.assocOf store d more
  | dissoc, d :: more => op.dissocOf store d more
  | assocInPlace, d :: more => op.assocInPlaceOf store d more
  | dissocInPlace, d :: more => op.dissocInPlaceOf store d more
  | assoc, [] => .error (.arguments op.name (.countAtLeast 1 0))
  | dissoc, [] => .error (.arguments op.name (.countAtLeast 1 0))
  | assocInPlace, [] => .error (.arguments op.name (.countAtLeast 1 0))
  | dissocInPlace, [] => .error (.arguments op.name (.countAtLeast 1 0))
  | op, args => .error (Primitive.wrongCount op.profile args)

end TableLisp.MapOp

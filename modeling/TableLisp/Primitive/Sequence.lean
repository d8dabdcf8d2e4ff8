import TableLisp.Datum.Equality
import TableLisp.Primitive.Arguments

/-!
Lists and vectors: building them and taking them apart.
-/

namespace TableLisp.SequenceOp

def name (op : SequenceOp) : String := op.profile.name

/-- The elements of a collection. A string has its characters, each as a string; a map has its
entries, each as a vector. -/
def elements (op : SequenceOp) (tables : Tables) (d : Datum) : Except Error (List Datum) :=
  match d with
  | .string text => .ok (text.toList.map fun c => .string c.toString)
  | _ =>
    match d.entries? tables with
    | some entries => .ok (entries.map fun (k, v) => .vector [k, v])
    | none => Primitive.itemsOf op.name d

def element (items : List Datum) (n : Int64) : Except Error Datum :=
  let outside : Error := .outOfBounds n.toInt items.length
  if n.toInt < 0 then .error outside
  else
    match items[n.toInt.toNat]? with
    | some d => .ok d
    | none => .error outside

def nthOf (op : SequenceOp) (collection index : Datum) : Except Error Datum :=
  match Primitive.itemsOf op.name collection with
  | .error e => .error e
  | .ok items =>
    match index with
    | .int n => element items n
    | other => .error (Primitive.wrongKind "integer index" other)

def toVectorOf (op : SequenceOp) : Datum → Except Error Datum
  | .vector items => .ok (.vector items)
  | other => (Primitive.itemsOf op.name other).map .vector

def concatOf (op : SequenceOp) : List Datum → Except Error (List Datum)
  | [] => .ok []
  | arg :: more =>
    match Primitive.itemsOf op.name arg with
    | .error e => .error e
    | .ok items => (concatOf op more).map (items ++ ·)

def apply (op : SequenceOp) (tables : Tables) (args : List Datum) : Except Error Datum :=
  match op, args with
  | list, args => .ok (.list args)
  | vector, args => .ok (.vector args)
  | concat, args => (op.concatOf args).map .list
  | toVector, [x] => op.toVectorOf x
  | count, [x] => (op.elements tables x).map fun items => .int (Int64.ofNat items.length)
  | isEmpty, [x] => (op.elements tables x).map fun items => .bool items.isEmpty
  | toSeq, [x] =>
    (op.elements tables x).map fun items => if items.isEmpty then .nil else .list items
  | first, [x] => (Primitive.itemsOf op.name x).map fun items => items.headD .nil
  | rest, [x] => (Primitive.itemsOf op.name x).map fun items => .list (items.drop 1)
  | last, [x] => (Primitive.itemsOf op.name x).map fun items => items.getLastD .nil
  | nth, [x, y] => op.nthOf x y
  | cons, [x, y] => (Primitive.itemsOf op.name y).map fun items => .list (x :: items)
  | op, args => .error (Primitive.wrongCount op.profile args)

end TableLisp.SequenceOp

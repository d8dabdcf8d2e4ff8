import TableLisp.Datum.Basic

/-!
Equality of data, and maps as ordered associations under it. Lists differ from vectors and integers
from floats; maps are equal if each key of the one has an equal value in the other; functions are
equal to themselves only. What a table holds is looked up, so equality is relative to the tables.

A map that is used as a key must not change while it is one. A map here is nothing but its entries,
and keys are told apart by what they hold at the time: a key that was changed is found by what it
holds now, whatever it was when it came in, and a map with two keys that have become equal since is
no longer equal to itself.
-/

namespace TableLisp

namespace Entries

/-- Keys and values in turn as entries; a key without a value is dropped. -/
def pairUp : List Datum → Entries
  | k :: v :: more => (k, v) :: pairUp more
  | _ => []

def find? (p : Datum → Bool) : Entries → Option Datum
  | [] => none
  | (k, v) :: more => if p k then some v else find? p more

/-- Gives a key a value. A key that is there keeps its place and its spelling; a new one goes to
the end. -/
def insert (eq : Datum → Datum → Bool) (entry : Datum × Datum) : Entries → Entries
  | [] => [entry]
  | (k, v) :: more =>
    if eq entry.1 k then (k, entry.2) :: more else (k, v) :: insert eq entry more

def erase (eq : Datum → Datum → Bool) (key : Datum) : Entries → Entries
  | [] => []
  | (k, v) :: more => if eq key k then more else (k, v) :: erase eq key more

def insertAll (eq : Datum → Datum → Bool) (pairs entries : Entries) : Entries :=
  pairs.foldl (fun es entry => insert eq entry es) entries

def eraseAll (eq : Datum → Datum → Bool) (keys : List Datum) (entries : Entries) : Entries :=
  keys.foldl (fun es key => erase eq key es) entries

def equal (eq : Datum → Datum → Bool) (xs ys : Entries) : Bool :=
  xs.length == ys.length && xs.all fun (k, v) =>
    match find? (eq k) ys with
    | some w => eq v w
    | none => false

end Entries

abbrev Tables := TableId → Entries

namespace Datum

def entries? (tables : Tables) : Datum → Option Entries
  | map entries => some entries
  | table id => some (tables id)
  | _ => none

mutual

/-- Equality of two data, where `sameTable` compares a table with a datum. -/
def equalWith (tables : Tables) (sameTable : TableId → Datum → Bool) : Datum → Datum → Bool
  | nil, y => match y with | nil => true | _ => false
  | bool a, y => match y with | bool b => a == b | _ => false
  | int a, y => match y with | int b => a == b | _ => false
  | big a, y => match y with | big b => a == b | _ => false
  | float a, y => match y with | float b => a.same b | _ => false
  | char a, y => match y with | char b => a == b | _ => false
  | string a, y => match y with | string b => a == b | _ => false
  | symbol a, y => match y with | symbol b => a == b | _ => false
  | keyword a, y => match y with | keyword b => a == b | _ => false
  | list xs, y => match y with | list ys => equalItems tables sameTable xs ys | _ => false
  | vector xs, y => match y with | vector ys => equalItems tables sameTable xs ys | _ => false
  | map xs, y =>
    match entries? tables y with
    | some ys => xs.length == ys.length && equalEntries tables sameTable xs ys
    | none => false
  | table id, y => sameTable id y
  | primitive p, y => match y with | primitive q => p == q | _ => false
  | closure c, y => match y with | closure d => c.id == d.id | _ => false

def equalItems (tables : Tables) (sameTable : TableId → Datum → Bool) :
    List Datum → List Datum → Bool
  | [], ys => ys.isEmpty
  | x :: xs, ys =>
    match ys with
    | [] => false
    | y :: ys => equalWith tables sameTable x y && equalItems tables sameTable xs ys

def equalEntries (tables : Tables) (sameTable : TableId → Datum → Bool) :
    List (Datum × Datum) → Entries → Bool
  | [], _ => true
  | (k, v) :: more, ys =>
    (match Entries.find? (equalWith tables sameTable k) ys with
      | some w => equalWith tables sameTable v w
      | none => false) && equalEntries tables sameTable more ys

end

/-- Equality that looks into tables within tables up to `depth` deep; a table is equal to itself at
any depth. -/
def equalWithin (tables : Tables) : Nat → Datum → Datum → Bool
  | 0 => equalWith tables fun id y => match y with | table id' => id == id' | _ => false
  | depth + 1 => equalWith tables fun id y =>
    (match y with | table id' => id == id' | _ => false) ||
      match entries? tables y with
      | some ys => Entries.equal (equalWithin tables depth) (tables id) ys
      | none => false

/-- Equality of data in which no table occurs. -/
def equalFixed : Datum → Datum → Bool := equalWithin (fun _ => []) 0

/-- The map that cannot change and has the given entries; of equal keys the first is kept, with the
last value. -/
def ofPairs (eq : Datum → Datum → Bool) (pairs : Entries) : Datum :=
  map (Entries.insertAll eq pairs [])

end Datum

end TableLisp

import TableLisp.Proofs.Data.Equality
import TableLisp.Template

/-! The closures that occur in data. What is taken out of a datum, put into a collection or made of
a template has no closure that was not there before. -/

namespace TableLisp

namespace Datum

mutual

/-- The closures in a datum, at any depth, also those in the bodies of closures. -/
def closures : Datum → List (Closure Datum)
  | list items => itemClosures items
  | vector items => itemClosures items
  | map entries => entryClosures entries
  | closure c => c :: bodyClosures c
  | _ => []

def itemClosures : List Datum → List (Closure Datum)
  | [] => []
  | x :: more => closures x ++ itemClosures more

def entryClosures : List (Datum × Datum) → List (Closure Datum)
  | [] => []
  | (k, v) :: more => closures k ++ closures v ++ entryClosures more

def bodyClosures : Closure Datum → List (Closure Datum)
  | ⟨_, _, _, body, _, _⟩ => closures body

end

/-- Every closure in the datum satisfies `P`. -/
def EachClosure (P : Closure Datum → Prop) (d : Datum) : Prop := ∀ c ∈ d.closures, P c

variable {P Q : Closure Datum → Prop} {d : Datum} {items : List Datum} {entries : Entries}

theorem EachClosure.mono (h : d.EachClosure P) (hpq : ∀ c, P c → Q c) : d.EachClosure Q :=
  fun c hc => hpq c (h c hc)

theorem eachClosure_of_none (h : d.closures = []) : d.EachClosure P := by
  simp [EachClosure, h]

theorem mem_itemClosures {c : Closure Datum} :
    c ∈ itemClosures items ↔ ∃ x ∈ items, c ∈ x.closures := by
  induction items with
  | nil => simp [itemClosures]
  | cons x more ih => simp [itemClosures, ih]

theorem mem_entryClosures {c : Closure Datum} :
    c ∈ entryClosures entries ↔ ∃ e ∈ entries, c ∈ e.1.closures ∨ c ∈ e.2.closures := by
  induction entries with
  | nil => simp [entryClosures]
  | cons e more ih =>
    obtain ⟨k, v⟩ := e
    simp [entryClosures, ih, or_assoc]

@[simp] theorem eachClosure_list :
    (list items).EachClosure P ↔ ∀ x ∈ items, x.EachClosure P := by
  simp only [EachClosure, closures, mem_itemClosures]
  exact ⟨fun h x hx c hc => h c ⟨x, hx, hc⟩, fun h c ⟨x, hx, hc⟩ => h x hx c hc⟩

@[simp] theorem eachClosure_vector :
    (vector items).EachClosure P ↔ ∀ x ∈ items, x.EachClosure P := eachClosure_list

@[simp] theorem eachClosure_map :
    (map entries).EachClosure P ↔ ∀ e ∈ entries, e.1.EachClosure P ∧ e.2.EachClosure P := by
  simp only [EachClosure, closures, mem_entryClosures]
  constructor
  · intro h e he
    exact ⟨fun c hc => h c ⟨e, he, .inl hc⟩, fun c hc => h c ⟨e, he, .inr hc⟩⟩
  · rintro h c ⟨e, he, hc | hc⟩
    · exact (h e he).1 c hc
    · exact (h e he).2 c hc

@[simp] theorem eachClosure_closure {c : Closure Datum} :
    (closure c).EachClosure P ↔ P c ∧ c.body.EachClosure P := by
  cases c
  simp [EachClosure, closures, bodyClosures]

@[simp] theorem eachClosure_nil : nil.EachClosure P := eachClosure_of_none rfl
@[simp] theorem eachClosure_bool (b : Bool) : (bool b).EachClosure P := eachClosure_of_none rfl
@[simp] theorem eachClosure_int (n : Int64) : (int n).EachClosure P := eachClosure_of_none rfl
@[simp] theorem eachClosure_big (n : Int) : (big n).EachClosure P := eachClosure_of_none rfl
@[simp] theorem eachClosure_float (x : Binary64) : (float x).EachClosure P :=
  eachClosure_of_none rfl
@[simp] theorem eachClosure_char (c : Char) : (char c).EachClosure P := eachClosure_of_none rfl
@[simp] theorem eachClosure_string (t : String) : (string t).EachClosure P :=
  eachClosure_of_none rfl
@[simp] theorem eachClosure_symbol (s : Symbol) : (symbol s).EachClosure P :=
  eachClosure_of_none rfl
@[simp] theorem eachClosure_keyword (n : String) : (keyword n).EachClosure P :=
  eachClosure_of_none rfl
@[simp] theorem eachClosure_table (id : TableId) : (table id).EachClosure P :=
  eachClosure_of_none rfl
@[simp] theorem eachClosure_primitive (p : Primitive) : (primitive p).EachClosure P :=
  eachClosure_of_none rfl

@[simp] theorem eachClosure_var (name : String) : (var name).EachClosure P :=
  eachClosure_symbol _

@[simp] theorem eachClosure_named (name : String) : (named name).EachClosure P :=
  eachClosure_symbol _

@[simp] theorem eachClosure_ofNumeral (n : Numeral) : (ofNumeral n).EachClosure P := by
  cases n <;> exact eachClosure_of_none rfl

@[simp] theorem eachClosure_form {head : SpecialForm} :
    (form head items).EachClosure P ↔ ∀ x ∈ items, x.EachClosure P := by
  simp [form]

end Datum

namespace Entries

variable {P : Closure Datum → Prop} {entries : Entries}

/-- Every closure in the keys and values satisfies `P`. -/
def EachClosure (P : Closure Datum → Prop) (entries : Entries) : Prop :=
  ∀ e ∈ entries, e.1.EachClosure P ∧ e.2.EachClosure P

theorem eachClosure_nil : EachClosure P [] := by
  intro e he
  cases he

theorem eachClosure_cons {k v : Datum} :
    EachClosure P ((k, v) :: entries) ↔
      (k.EachClosure P ∧ v.EachClosure P) ∧ EachClosure P entries := by
  simp [EachClosure]

theorem eachClosure_iff : EachClosure P entries ↔
    KeysIn (Datum.EachClosure P) entries ∧ ValuesIn (Datum.EachClosure P) entries :=
  forall₂_and

theorem eachClosure_pairUp {items : List Datum} (h : ∀ x ∈ items, x.EachClosure P) :
    EachClosure P (pairUp items) :=
  eachClosure_iff.mpr (in_pairUp h)

theorem eachClosure_insertAll {eq : Datum → Datum → Bool} {pairs : Entries}
    (h : EachClosure P entries) (hp : EachClosure P pairs) :
    EachClosure P (insertAll eq pairs entries) := by
  obtain ⟨hkeys, hvalues⟩ := eachClosure_iff.mp h
  obtain ⟨hkeys', hvalues'⟩ := eachClosure_iff.mp hp
  exact eachClosure_iff.mpr ⟨keysIn_insertAll hkeys hkeys', valuesIn_insertAll hvalues hvalues'⟩

theorem eachClosure_erase {eq : Datum → Datum → Bool} {key : Datum}
    (h : EachClosure P entries) : EachClosure P (erase eq key entries) := by
  induction entries with
  | nil => exact eachClosure_nil
  | cons e more ih =>
    obtain ⟨k, v⟩ := e
    obtain ⟨hkv, hm⟩ := eachClosure_cons.mp h
    unfold erase
    split
    · exact hm
    · exact eachClosure_cons.mpr ⟨hkv, ih hm⟩

theorem eachClosure_eraseAll {eq : Datum → Datum → Bool} {keys : List Datum}
    (h : EachClosure P entries) : EachClosure P (eraseAll eq keys entries) := by
  unfold eraseAll
  induction keys generalizing entries with
  | nil => exact h
  | cons key more ih => exact ih (eachClosure_erase h)

theorem eachClosure_find? {p : Datum → Bool} {value : Datum} (h : EachClosure P entries)
    (hf : find? p entries = some value) : value.EachClosure P := by
  obtain ⟨e, he, _, rfl⟩ := mem_of_find? hf
  exact (h e he).2

end Entries

namespace Datum

theorem eachClosure_ofPairs {P : Closure Datum → Prop} {eq : Datum → Datum → Bool}
    {pairs : Entries} (h : Entries.EachClosure P pairs) : (ofPairs eq pairs).EachClosure P :=
  eachClosure_map.mpr (Entries.eachClosure_insertAll Entries.eachClosure_nil h)

end Datum

namespace Template

open Datum

variable {P : Closure Datum → Prop}

theorem eachClosure_splice {item x : Datum} (h : item.EachClosure P)
    (hx : splice? item = some (.ok x)) : x.EachClosure P := by
  unfold splice? at hx
  split at hx
  · split at hx
    · cases hx
      simpa using h
    · simp at hx
  · cases hx

mutual

theorem eachClosure_expand {t built : Datum} (h : t.EachClosure P)
    (hb : expand t = .ok built) : built.EachClosure P := by
  cases t with
  | list items =>
    unfold expand at hb
    split at hb
    · cases hb; simpa [quoted] using h
    · split at hb
      · split at hb
        · cases hb; exact (eachClosure_list.mp h) _ (by simp)
        · cases hb
      · exact eachClosure_expandItems (eachClosure_list.mp h) hb
  | vector items =>
    rw [expand] at hb
    split at hb
    · cases hb; simpa [quoted] using h
    · split at hb
      · rename_i hi
        cases hb
        simpa using eachClosure_expandItems (eachClosure_vector.mp h) hi
      · cases hb
  | symbol s => cases hb; simp [quoted]
  | map entries => cases hb; simpa [quoted] using h
  | table id => cases hb; simp [quoted]
  | closure c => cases hb; exact h
  | _ => cases hb; simp

theorem eachClosure_expandItems {items : List Datum} {built : Datum}
    (h : ∀ x ∈ items, x.EachClosure P) (hb : expandItems items = .ok built) :
    built.EachClosure P := by
  cases items with
  | nil => cases hb; simp
  | cons item more =>
    rw [expandItems] at hb
    split at hb
    · cases hb
    · rename_i tail ht
      have htail := eachClosure_expandItems (fun x hx => h x (by simp [hx])) ht
      have hitem := h item (by simp)
      split at hb
      · cases hb
      · rename_i x hx
        cases hb
        simpa [htail] using eachClosure_splice hitem hx
      · split at hb
        · cases hb
        · rename_i x hx
          cases hb
          simpa [htail] using eachClosure_expand hitem hx

end

end Template

end TableLisp

import Mathlib.Data.List.Forall2
import TableLisp.Datum.MapStore

/-! Equality of data in which nothing can change: it is an equivalence relation, also between maps
whose keys are maps again, and looking up a key respects it. Equality of two maps asks for a value of
each key of the first only, so that it is symmetric takes counting: keys that differ cannot share
an equal key, and there are as many on both sides. -/

namespace TableLisp

/-- `eq` is an equivalence relation between the data that satisfy `K`. -/
structure EquivalentOn (K : Datum → Prop) (eq : Datum → Datum → Bool) : Prop where
  refl : ∀ {x}, K x → eq x x = true
  symm : ∀ {x y}, K x → K y → eq x y = true → eq y x = true
  trans : ∀ {x y z}, K x → K y → K z → eq x y = true → eq y z = true → eq x z = true

variable {K : Datum → Prop} {eq : Datum → Datum → Bool}

namespace Entries

/-- No key is equal to one before it. -/
def Distinct (eq : Datum → Datum → Bool) (entries : Entries) : Prop :=
  entries.Pairwise fun e later => eq later.1 e.1 = false

/-- All keys satisfy `K`. -/
def KeysIn (K : Datum → Prop) (entries : Entries) : Prop := ∀ e ∈ entries, K e.1

/-- All values satisfy `K`. -/
def ValuesIn (K : Datum → Prop) (entries : Entries) : Prop := ∀ e ∈ entries, K e.2

variable {entries xs ys zs : Entries} {e e' : Datum × Datum} {key v : Datum} {p : Datum → Bool}

theorem mem_of_find? (h : find? p entries = some v) : ∃ e ∈ entries, p e.1 = true ∧ e.2 = v := by
  induction entries with
  | nil => cases h
  | cons e more ih =>
    unfold find? at h
    split at h
    · rename_i hp
      cases h
      exact ⟨e, by simp, hp, rfl⟩
    · obtain ⟨e', hmem, hfound⟩ := ih h
      exact ⟨e', by simp [hmem], hfound⟩

theorem find?_eq_none_iff : find? p entries = none ↔ ∀ e ∈ entries, p e.1 = false := by
  induction entries with
  | nil => simp [find?]
  | cons e more ih =>
    unfold find?
    cases hp : p e.1 with
    | true => simp [hp]
    | false => simp [hp, ih]

theorem find?_congr {q : Datum → Bool} (h : ∀ e ∈ entries, p e.1 = q e.1) :
    find? p entries = find? q entries := by
  induction entries with
  | nil => rfl
  | cons e more ih =>
    have hmore := ih fun e' he' => h e' (by simp [he'])
    simp only [find?, h e (by simp), hmore]

theorem equal_congr {K' : Datum → Prop} {eq' : Datum → Datum → Bool}
    (heq : ∀ x y, K x → K' y → eq x y = eq' x y) (hx : KeysIn K xs) (hxv : ValuesIn K xs)
    (hy : KeysIn K' ys) (hyv : ValuesIn K' ys) : equal eq xs ys = equal eq' xs ys := by
  have hfind : ∀ e ∈ xs, find? (eq e.1) ys = find? (eq' e.1) ys := fun e he =>
    find?_congr fun e' he' => heq e.1 e'.1 (hx e he) (hy e' he')
  rw [Bool.eq_iff_iff]
  simp only [equal, Bool.and_eq_true, List.all_eq_true]
  refine and_congr_right fun _ => forall₂_congr fun e he => ?_
  rw [hfind e he]
  cases hfound : find? (eq' e.1) ys with
  | none => rfl
  | some w =>
    obtain ⟨e', he', _, rfl⟩ := mem_of_find? hfound
    dsimp only
    rw [heq e.2 e'.2 (hxv e he) (hyv e' he')]

variable {entry : Datum × Datum} {pairs : Entries}

theorem keysIn_cons : KeysIn K (e :: entries) ↔ K e.1 ∧ KeysIn K entries := List.forall_mem_cons

theorem valuesIn_cons : ValuesIn K (e :: entries) ↔ K e.2 ∧ ValuesIn K entries :=
  List.forall_mem_cons

theorem keysIn_insert (h : KeysIn K entries) (hentry : K entry.1) :
    KeysIn K (insert eq entry entries) := by
  induction entries with
  | nil => exact keysIn_cons.mpr ⟨hentry, h⟩
  | cons e more ih =>
    obtain ⟨hfirst, hmore⟩ := keysIn_cons.mp h
    unfold insert
    split
    · exact keysIn_cons.mpr ⟨hfirst, hmore⟩
    · exact keysIn_cons.mpr ⟨hfirst, ih hmore⟩

theorem valuesIn_insert (h : ValuesIn K entries) (hentry : K entry.2) :
    ValuesIn K (insert eq entry entries) := by
  induction entries with
  | nil => exact valuesIn_cons.mpr ⟨hentry, h⟩
  | cons e more ih =>
    obtain ⟨hfirst, hmore⟩ := valuesIn_cons.mp h
    unfold insert
    split
    · exact valuesIn_cons.mpr ⟨hentry, hmore⟩
    · exact valuesIn_cons.mpr ⟨hfirst, ih hmore⟩

theorem distinct_insert (h : Distinct eq entries) : Distinct eq (insert eq entry entries) := by
  induction entries with
  | nil => exact List.pairwise_singleton _ _
  | cons e more ih =>
    obtain ⟨hfirst, hmore⟩ := List.pairwise_cons.mp h
    unfold insert
    split
    · exact List.pairwise_cons.mpr ⟨hfirst, hmore⟩
    · rename_i hne
      have hlater : KeysIn (fun key => eq key e.1 = false) (insert eq entry more) :=
        keysIn_insert hfirst (by simpa using hne)
      exact List.pairwise_cons.mpr ⟨hlater, ih hmore⟩

theorem keysIn_insertAll (h : KeysIn K entries) (hpairs : KeysIn K pairs) :
    KeysIn K (insertAll eq pairs entries) := by
  induction pairs generalizing entries with
  | nil => exact h
  | cons entry more ih =>
    obtain ⟨hentry, hmore⟩ := keysIn_cons.mp hpairs
    exact ih (keysIn_insert h hentry) hmore

theorem valuesIn_insertAll (h : ValuesIn K entries) (hpairs : ValuesIn K pairs) :
    ValuesIn K (insertAll eq pairs entries) := by
  induction pairs generalizing entries with
  | nil => exact h
  | cons entry more ih =>
    obtain ⟨hentry, hmore⟩ := valuesIn_cons.mp hpairs
    exact ih (valuesIn_insert h hentry) hmore

theorem distinct_insertAll (h : Distinct eq entries) : Distinct eq (insertAll eq pairs entries) := by
  induction pairs generalizing entries with
  | nil => exact h
  | cons entry more ih => exact ih (distinct_insert h)

theorem in_pairUp : ∀ {items : List Datum}, (∀ x ∈ items, K x) →
    KeysIn K (pairUp items) ∧ ValuesIn K (pairUp items)
  | [], _ | [_], _ => ⟨by simp [KeysIn, pairUp], by simp [ValuesIn, pairUp]⟩
  | k :: v :: more, h => by
    have hmore : ∀ x ∈ more, K x := fun x hx => h x (by simp [hx])
    obtain ⟨hkeys, hvalues⟩ := in_pairUp hmore
    exact ⟨keysIn_cons.mpr ⟨h k (by simp), hkeys⟩, valuesIn_cons.mpr ⟨h v (by simp), hvalues⟩⟩

section

variable (hK : EquivalentOn K eq)

include hK

theorem Distinct.eq_of_mem (hd : Distinct eq entries) (hk : KeysIn K entries) (he : e ∈ entries)
    (he' : e' ∈ entries) (heq : eq e.1 e'.1 = true) : e = e' := by
  induction entries with
  | nil => cases he
  | cons first more ih =>
    obtain ⟨hfirst, hmore⟩ := List.pairwise_cons.mp hd
    rcases List.mem_cons.mp he with rfl | hmem <;> rcases List.mem_cons.mp he' with rfl | hmem'
    · rfl
    · have hback := hK.symm (hk e he) (hk e' he') heq
      rw [hfirst e' hmem'] at hback
      cases hback
    · rw [hfirst e hmem] at heq
      cases heq
    · exact ih hmore (fun d hd => hk d (by simp [hd])) hmem hmem'

theorem find?_eq_some_iff (hd : Distinct eq entries) (hk : KeysIn K entries) (hkey : K key) :
    find? (eq key) entries = some v ↔ ∃ e ∈ entries, eq key e.1 = true ∧ e.2 = v := by
  refine ⟨mem_of_find?, ?_⟩
  rintro ⟨e, he, heq, rfl⟩
  cases hfound : find? (eq key) entries with
  | none =>
    have hnone := find?_eq_none_iff.mp hfound e he
    rw [heq] at hnone
    cases hnone
  | some w =>
    obtain ⟨e', he', heq', rfl⟩ := mem_of_find? hfound
    have hkeys : eq e.1 e'.1 = true :=
      hK.trans (hk e he) hkey (hk e' he') (hK.symm hkey (hk e he) heq) heq'
    rw [hd.eq_of_mem hK hk he he' hkeys]

theorem equal_iff (hx : KeysIn K xs) (hy : KeysIn K ys) (hd : Distinct eq ys) :
    equal eq xs ys = true ↔ xs.length = ys.length ∧
      ∀ e ∈ xs, ∃ e' ∈ ys, eq e.1 e'.1 = true ∧ eq e.2 e'.2 = true := by
  simp only [equal, Bool.and_eq_true, beq_iff_eq, List.all_eq_true]
  refine and_congr_right fun _ => forall₂_congr fun e he => ?_
  constructor
  · intro h
    split at h
    · rename_i w hfound
      obtain ⟨e', he', heq, rfl⟩ := mem_of_find? hfound
      exact ⟨e', he', heq, h⟩
    · cases h
  · rintro ⟨e', he', heq, hvalue⟩
    rw [(find?_eq_some_iff hK hd hy (hx e he)).mpr ⟨e', he', heq, rfl⟩]
    exact hvalue

theorem equal_refl (hk : KeysIn K xs) (hv : ValuesIn K xs) (hd : Distinct eq xs) :
    equal eq xs xs = true :=
  (equal_iff hK hk hk hd).mpr
    ⟨rfl, fun e he => ⟨e, he, hK.refl (hk e he), hK.refl (hv e he)⟩⟩

/-- Distinct keys that have an equal key each among no more keys leave none of these out. -/
theorem covered_of_length_le (hx : KeysIn K xs) (hy : KeysIn K ys) (hd : Distinct eq xs)
    (hlength : ys.length ≤ xs.length) (h : ∀ e ∈ xs, ∃ e' ∈ ys, eq e.1 e'.1 = true) :
    ∀ e' ∈ ys, ∃ e ∈ xs, eq e.1 e'.1 = true := by
  -- the partner of the first key is taken out: no later key has it as a partner too
  induction xs generalizing ys with
  | nil =>
    obtain rfl : ys = [] := List.length_eq_zero_iff.mp (Nat.le_zero.mp hlength)
    simp
  | cons first more ih =>
    obtain ⟨hfirst, hmore⟩ := List.pairwise_cons.mp hd
    obtain ⟨partner, hmem, heq⟩ := h first (by simp)
    obtain ⟨before, after, rfl⟩ := List.append_of_mem hmem
    have hrest : ∀ e ∈ more, ∃ e' ∈ before ++ after, eq e.1 e'.1 = true := by
      intro e he
      obtain ⟨e', he', heq'⟩ := h e (by simp [he])
      rcases List.mem_append.mp he' with he' | he'
      · exact ⟨e', by simp [he'], heq'⟩
      · rcases List.mem_cons.mp he' with rfl | he'
        · have hkeys : eq e.1 first.1 = true := hK.trans (hx e (by simp [he])) (hy e' hmem)
            (hx first (by simp)) heq' (hK.symm (hx first (by simp)) (hy e' hmem) heq)
          rw [hfirst e he] at hkeys
          cases hkeys
        · exact ⟨e', by simp [he'], heq'⟩
    have hcovered := ih (fun e he => hx e (by simp [he]))
      (fun e he => hy e (by rcases List.mem_append.mp he with he | he <;> simp [he])) hmore
      (by simp only [List.length_append, List.length_cons] at hlength ⊢; omega) hrest
    intro e' he'
    rcases List.mem_append.mp he' with he' | he'
    · obtain ⟨e, he, heq'⟩ := hcovered e' (by simp [he'])
      exact ⟨e, by simp [he], heq'⟩
    · rcases List.mem_cons.mp he' with rfl | he'
      · exact ⟨first, by simp, heq⟩
      · obtain ⟨e, he, heq'⟩ := hcovered e' (by simp [he'])
        exact ⟨e, by simp [he], heq'⟩

theorem equal_symm (hx : KeysIn K xs) (hy : KeysIn K ys) (hxv : ValuesIn K xs)
    (hyv : ValuesIn K ys) (hdx : Distinct eq xs) (hdy : Distinct eq ys)
    (h : equal eq xs ys = true) : equal eq ys xs = true := by
  obtain ⟨hlength, hmatch⟩ := (equal_iff hK hx hy hdy).mp h
  have hcovered := covered_of_length_le hK hx hy hdx (Nat.le_of_eq hlength.symm)
    fun e he => (hmatch e he).imp fun e' h => ⟨h.1, h.2.1⟩
  refine (equal_iff hK hy hx hdx).mpr ⟨hlength.symm, fun e' he' => ?_⟩
  obtain ⟨e, he, heq⟩ := hcovered e' he'
  obtain ⟨e'', he'', heq', hvalue⟩ := hmatch e he
  have hkeys : eq e'.1 e''.1 = true :=
    hK.trans (hy e' he') (hx e he) (hy e'' he'') (hK.symm (hx e he) (hy e' he') heq) heq'
  obtain rfl := hdy.eq_of_mem hK hy he' he'' hkeys
  exact ⟨e, he, hK.symm (hx e he) (hy e' he') heq, hK.symm (hxv e he) (hyv e' he') hvalue⟩

theorem equal_trans (hx : KeysIn K xs) (hy : KeysIn K ys) (hz : KeysIn K zs)
    (hxv : ValuesIn K xs) (hyv : ValuesIn K ys) (hzv : ValuesIn K zs) (hdy : Distinct eq ys)
    (hdz : Distinct eq zs) (h : equal eq xs ys = true) (h' : equal eq ys zs = true) :
    equal eq xs zs = true := by
  obtain ⟨hlength, hmatch⟩ := (equal_iff hK hx hy hdy).mp h
  obtain ⟨hlength', hmatch'⟩ := (equal_iff hK hy hz hdz).mp h'
  refine (equal_iff hK hx hz hdz).mpr ⟨hlength.trans hlength', fun e he => ?_⟩
  obtain ⟨e', he', heq, hvalue⟩ := hmatch e he
  obtain ⟨e'', he'', heq', hvalue'⟩ := hmatch' e' he'
  exact ⟨e'', he'', hK.trans (hx e he) (hy e' he') (hz e'' he'') heq heq',
    hK.trans (hxv e he) (hyv e' he') (hzv e'' he'') hvalue hvalue'⟩

end

end Entries

theorem Binary64.same_trans {x y z : Binary64} (h : same x y = true) (h' : same y z = true) :
    same x z = true := by
  have hzero : ∀ w : Binary64, w.isZero = true → w.isNaN = false := by
    intro w hw
    simp only [isZero, beq_iff_eq] at hw
    simp [isNaN, hw]
  simp only [same, Bool.or_eq_true, Bool.and_eq_true, beq_iff_eq] at h h' ⊢
  rcases h with (rfl | ⟨hx, hy⟩) | ⟨hx, hy⟩
  · exact h'
  · rcases h' with (rfl | ⟨_, hz⟩) | ⟨hnan, _⟩
    · exact .inl (.inr ⟨hx, hy⟩)
    · exact .inl (.inr ⟨hx, hz⟩)
    · rw [hzero y hy] at hnan
      cases hnan
  · rcases h' with (rfl | ⟨hz, _⟩) | ⟨_, hz⟩
    · exact .inr ⟨hx, hy⟩
    · rw [hzero y hz] at hy
      cases hy
    · exact .inr ⟨hx, hz⟩

namespace Datum

/-- Neither a collection nor something that can change. -/
def isAtom : Datum → Bool
  | list _ | vector _ | map _ | table _ => false
  | _ => true

/-- Data in which nothing can change: they hold no table, and no two keys of a map are equal. -/
inductive Fixed : Datum → Prop where
  | atom {x : Datum} : x.isAtom = true → Fixed x
  | list {items : List Datum} : (∀ x ∈ items, Fixed x) → Fixed (.list items)
  | vector {items : List Datum} : (∀ x ∈ items, Fixed x) → Fixed (.vector items)
  | map {entries : Entries} : (∀ e ∈ entries, Fixed e.1) → (∀ e ∈ entries, Fixed e.2) →
      entries.Distinct equalFixed → Fixed (.map entries)

/-- What makes two data equal whose parts are compared by `eq`. -/
inductive Alike (eq : Datum → Datum → Bool) : Datum → Datum → Prop where
  | same {x : Datum} : x.isAtom = true → Alike eq x x
  | float {a b : Binary64} : a.same b = true → Alike eq (.float a) (.float b)
  | closure {c c' : Closure Datum} : c.id = c'.id → Alike eq (.closure c) (.closure c')
  | list {xs ys : List Datum} : List.Forall₂ (fun x y => eq x y = true) xs ys →
      Alike eq (.list xs) (.list ys)
  | vector {xs ys : List Datum} : List.Forall₂ (fun x y => eq x y = true) xs ys →
      Alike eq (.vector xs) (.vector ys)
  | map {xs ys : Entries} : Entries.equal eq xs ys = true → Alike eq (.map xs) (.map ys)

variable {tables : Tables} {sameTable : TableId → Datum → Bool} {x y z : Datum}

theorem equalItems_iff {xs ys : List Datum} : equalItems tables sameTable xs ys = true ↔
    List.Forall₂ (fun x y => equalWith tables sameTable x y = true) xs ys := by
  induction xs generalizing ys with
  | nil => cases ys <;> simp [equalItems]
  | cons x xs ih => cases ys <;> simp [equalItems, ih]

theorem equalEntries_eq (xs ys : Entries) :
    (xs.length == ys.length && equalEntries tables sameTable xs ys) =
      Entries.equal (equalWith tables sameTable) xs ys := by
  rw [Entries.equal]
  congr 1
  induction xs with
  | nil => simp [equalEntries]
  | cons e more ih => rw [equalEntries, List.all_cons, ih]

theorem Fixed.ne_table (hx : Fixed x) (id : TableId) : x ≠ .table id := by
  rintro rfl
  cases hx
  contradiction

theorem alike_of_equalWith (hx : ∀ id, x ≠ .table id) (hy : ∀ id, y ≠ .table id)
    (h : equalWith tables sameTable x y = true) : Alike (equalWith tables sameTable) x y := by
  cases x with
  | table id => exact absurd rfl (hx id)
  | list xs =>
    cases y with
    | list ys => exact .list (equalItems_iff.mp (by rwa [equalWith] at h))
    | _ => simp [equalWith] at h
  | vector xs =>
    cases y with
    | vector ys => exact .vector (equalItems_iff.mp (by rwa [equalWith] at h))
    | _ => simp [equalWith] at h
  | map xs =>
    cases y with
    | map ys =>
      rw [equalWith] at h
      exact .map ((equalEntries_eq xs ys).symm.trans h)
    | table id => exact absurd rfl (hy id)
    | _ => simp [equalWith, entries?] at h
  | float a =>
    cases y with
    | float b => exact .float (by rwa [equalWith] at h)
    | _ => simp [equalWith] at h
  | closure c =>
    cases y with
    | closure c' => exact .closure (by simpa [equalWith] using h)
    | _ => simp [equalWith] at h
  | nil =>
    cases y with
    | nil => exact .same rfl
    | _ => simp [equalWith] at h
  | _ =>
    cases y <;> simp only [equalWith, beq_iff_eq, Bool.false_eq_true] at h
    subst h
    exact .same rfl

theorem equalWith_of_alike (h : Alike (equalWith tables sameTable) x y) :
    equalWith tables sameTable x y = true := by
  cases h with
  | same hatom =>
    cases x with
    | float a => simpa [equalWith] using a.same_refl
    | list | vector | map | table => cases hatom
    | _ => simp [equalWith]
  | float h => simpa [equalWith] using h
  | closure h => simpa [equalWith] using h
  | list h => simpa [equalWith, equalItems_iff] using h
  | vector h => simpa [equalWith, equalItems_iff] using h
  | map h => simpa [equalWith, entries?, equalEntries_eq] using h

section

variable {eq : Datum → Datum → Bool} {items : List Datum} {entries : Entries}

theorem list_alike_iff : Alike eq (.list items) y ↔
    ∃ ys, y = .list ys ∧ List.Forall₂ (fun x y => eq x y = true) items ys := by
  constructor
  · intro h
    cases h with
    | same hatom => cases hatom
    | list h => exact ⟨_, rfl, h⟩
  · rintro ⟨ys, rfl, h⟩
    exact .list h

theorem vector_alike_iff : Alike eq (.vector items) y ↔
    ∃ ys, y = .vector ys ∧ List.Forall₂ (fun x y => eq x y = true) items ys := by
  constructor
  · intro h
    cases h with
    | same hatom => cases hatom
    | vector h => exact ⟨_, rfl, h⟩
  · rintro ⟨ys, rfl, h⟩
    exact .vector h

theorem map_alike_iff : Alike eq (.map entries) y ↔
    ∃ ys, y = .map ys ∧ Entries.equal eq entries ys = true := by
  constructor
  · intro h
    cases h with
    | same hatom => cases hatom
    | map h => exact ⟨_, rfl, h⟩
  · rintro ⟨ys, rfl, h⟩
    exact .map h

end

/-- Data whose parts satisfy `K`, and whose keys are distinct under `eq`. -/
def PartsIn (K : Datum → Prop) (eq : Datum → Datum → Bool) : Datum → Prop
  | list items | vector items => ∀ x ∈ items, K x
  | map entries => Entries.KeysIn K entries ∧ Entries.ValuesIn K entries ∧ Entries.Distinct eq entries
  | _ => True

section

variable (hK : EquivalentOn K eq) {xs ys zs : List Datum}

include hK

theorem items_refl (hx : ∀ x ∈ xs, K x) : List.Forall₂ (fun x y => eq x y = true) xs xs :=
  List.forall₂_same.mpr fun x hmem => hK.refl (hx x hmem)

theorem items_symm (hx : ∀ x ∈ xs, K x) (hy : ∀ y ∈ ys, K y)
    (h : List.Forall₂ (fun x y => eq x y = true) xs ys) :
    List.Forall₂ (fun x y => eq x y = true) ys xs := by
  induction h with
  | nil => exact .nil
  | cons hfirst _ ih =>
    exact .cons (hK.symm (hx _ (by simp)) (hy _ (by simp)) hfirst)
      (ih (fun x hmem => hx x (by simp [hmem])) fun y hmem => hy y (by simp [hmem]))

theorem items_trans (hx : ∀ x ∈ xs, K x) (hy : ∀ y ∈ ys, K y) (hz : ∀ z ∈ zs, K z)
    (h : List.Forall₂ (fun x y => eq x y = true) xs ys)
    (h' : List.Forall₂ (fun x y => eq x y = true) ys zs) :
    List.Forall₂ (fun x y => eq x y = true) xs zs := by
  induction h generalizing zs with
  | nil => exact h'
  | cons hfirst _ ih =>
    cases h' with
    | cons hfirst' hmore =>
      refine .cons (hK.trans (hx _ (by simp)) (hy _ (by simp)) (hz _ (by simp)) hfirst hfirst')
        (ih ?_ ?_ ?_ hmore)
      · exact fun x hmem => hx x (by simp [hmem])
      · exact fun y hmem => hy y (by simp [hmem])
      · exact fun z hmem => hz z (by simp [hmem])

theorem Alike.refl (hx : ∀ id, x ≠ .table id) (hparts : x.PartsIn K eq) : Alike eq x x := by
  cases x with
  | table id => exact absurd rfl (hx id)
  | list => exact .list (items_refl hK hparts)
  | vector => exact .vector (items_refl hK hparts)
  | map => exact .map (Entries.equal_refl hK hparts.1 hparts.2.1 hparts.2.2)
  | _ => exact .same rfl

theorem Alike.symm (h : Alike eq x y) (hx : x.PartsIn K eq) (hy : y.PartsIn K eq) :
    Alike eq y x := by
  cases h with
  | same hatom => exact .same hatom
  | float h => exact .float (by rwa [Binary64.same_comm])
  | closure h => exact .closure h.symm
  | list h => exact .list (items_symm hK hx hy h)
  | vector h => exact .vector (items_symm hK hx hy h)
  | map h => exact .map (Entries.equal_symm hK hx.1 hy.1 hx.2.1 hy.2.1 hx.2.2 hy.2.2 h)

theorem Alike.trans (h : Alike eq x y) (h' : Alike eq y z) (hx : x.PartsIn K eq)
    (hy : y.PartsIn K eq) (hz : z.PartsIn K eq) : Alike eq x z := by
  cases h with
  | same => exact h'
  | float h =>
    cases h' with
    | same => exact .float h
    | float h' => exact .float (Binary64.same_trans h h')
  | closure h =>
    cases h' with
    | same => exact .closure h
    | closure h' => exact .closure (h.trans h')
  | list h =>
    cases h' with
    | same hatom => cases hatom
    | list h' => exact .list (items_trans hK hx hy hz h h')
  | vector h =>
    cases h' with
    | same hatom => cases hatom
    | vector h' => exact .vector (items_trans hK hx hy hz h h')
  | map h =>
    cases h' with
    | same hatom => cases hatom
    | map h' =>
      exact .map (Entries.equal_trans hK hx.1 hy.1 hz.1 hx.2.1 hy.2.1 hz.2.1 hy.2.2 hz.2.2 h h')

end

theorem sizeOf_lt_list {items : List Datum} (h : x ∈ items) : sizeOf x < sizeOf (list items) := by
  have hlt := List.sizeOf_lt_of_mem h
  rw [list.sizeOf_spec]
  omega

theorem sizeOf_lt_vector {items : List Datum} (h : x ∈ items) :
    sizeOf x < sizeOf (vector items) := by
  have hlt := List.sizeOf_lt_of_mem h
  rw [vector.sizeOf_spec]
  omega

theorem sizeOf_lt_map {e : Datum × Datum} {entries : Entries} (h : e ∈ entries) :
    sizeOf e.1 < sizeOf (map entries) ∧ sizeOf e.2 < sizeOf (map entries) := by
  have hlt := List.sizeOf_lt_of_mem h
  rw [Prod.mk.sizeOf_spec] at hlt
  rw [map.sizeOf_spec]
  omega

/-- Equality of fixed data is an equivalence relation. Symmetry and transitivity of each depend on
the other one between smaller data, so all are shown together below a bound on the size. -/
theorem equivalentOn_below (n : Nat) :
    EquivalentOn (fun x => Fixed x ∧ sizeOf x < n) equalFixed := by
  induction n with
  | zero => exact ⟨fun h => by simp at h, fun h => by simp at h, fun h => by simp at h⟩
  | succ n ih =>
    have hparts : ∀ {x}, Fixed x ∧ sizeOf x < n + 1 →
        x.PartsIn (fun x => Fixed x ∧ sizeOf x < n) equalFixed := by
      rintro x ⟨hx, hsize⟩
      cases hx with
      | atom hatom => cases x <;> trivial
      | list hitems =>
        intro x hmem
        have hlt := sizeOf_lt_list hmem
        exact ⟨hitems x hmem, by omega⟩
      | vector hitems =>
        intro x hmem
        have hlt := sizeOf_lt_vector hmem
        exact ⟨hitems x hmem, by omega⟩
      | map hkeys hvalues hdistinct =>
        refine ⟨fun e hmem => ⟨hkeys e hmem, ?_⟩, fun e hmem => ⟨hvalues e hmem, ?_⟩, hdistinct⟩
        · have hlt := (sizeOf_lt_map hmem).1
          omega
        · have hlt := (sizeOf_lt_map hmem).2
          omega
    refine ⟨fun hx => ?_, fun hx hy h => ?_, fun hx hy hz h h' => ?_⟩
    · exact equalWith_of_alike (.refl ih hx.1.ne_table (hparts hx))
    · exact equalWith_of_alike ((alike_of_equalWith hx.1.ne_table hy.1.ne_table h).symm ih
        (hparts hx) (hparts hy))
    · exact equalWith_of_alike ((alike_of_equalWith hx.1.ne_table hy.1.ne_table h).trans ih
        (alike_of_equalWith hy.1.ne_table hz.1.ne_table h') (hparts hx) (hparts hy) (hparts hz))

theorem equivalentOn_fixed : EquivalentOn Fixed equalFixed := by
  have hbelow : ∀ {x : Datum} (n : Nat), Fixed x → sizeOf x ≤ n → Fixed x ∧ sizeOf x < n + 1 :=
    fun n hx hle => ⟨hx, Nat.lt_succ_of_le hle⟩
  refine ⟨fun {x} hx => ?_, fun {x y} hx hy h => ?_, fun {x y z} hx hy hz h h' => ?_⟩
  · exact (equivalentOn_below _).refl (hbelow _ hx (Nat.le_refl _))
  · exact (equivalentOn_below _).symm (hbelow (sizeOf x + sizeOf y) hx (by omega))
      (hbelow _ hy (by omega)) h
  · exact (equivalentOn_below _).trans (hbelow (sizeOf x + sizeOf y + sizeOf z) hx (by omega))
      (hbelow _ hy (by omega)) (hbelow _ hz (by omega)) h h'

theorem Alike.congr {K' : Datum → Prop} {eq' distinct : Datum → Datum → Bool}
    (heq : ∀ x y, K x → K' y → eq x y = eq' x y) (h : Alike eq x y) (hx : x.PartsIn K distinct)
    (hy : y.PartsIn K' distinct) : Alike eq' x y := by
  have hitems : ∀ {xs ys : List Datum}, (∀ x ∈ xs, K x) → (∀ y ∈ ys, K' y) →
      List.Forall₂ (fun x y => eq x y = true) xs ys →
      List.Forall₂ (fun x y => eq' x y = true) xs ys := by
    intro xs ys hx hy h
    induction h with
    | nil => exact .nil
    | cons hfirst _ ih =>
      rw [heq _ _ (hx _ (by simp)) (hy _ (by simp))] at hfirst
      exact .cons hfirst (ih (fun x hmem => hx x (by simp [hmem])) fun y hmem =>
        hy y (by simp [hmem]))
  cases h with
  | same hatom => exact .same hatom
  | float h => exact .float h
  | closure h => exact .closure h
  | list h => exact .list (hitems hx hy h)
  | vector h => exact .vector (hitems hx hy h)
  | map h =>
    rw [Entries.equal_congr heq hx.1 hx.2.1 hy.1 hy.2.1] at h
    exact .map h

theorem Fixed.parts (hx : Fixed x) : x.PartsIn Fixed equalFixed := by
  cases hx with
  | atom hatom => cases x <;> trivial
  | list hitems => exact hitems
  | vector hitems => exact hitems
  | map hkeys hvalues hdistinct => exact ⟨hkeys, hvalues, hdistinct⟩

theorem equalWith_fixed (hx : Fixed x) (hy : Fixed y) :
    equalWith tables sameTable x y = equalFixed x y := by
  have hstep : ∀ {x y}, Fixed x → Fixed y → x.PartsIn
      (fun a => ∀ b, Fixed b → equalWith tables sameTable a b = equalFixed a b) equalFixed →
      equalWith tables sameTable x y = equalFixed x y := by
    intro x y hx hy hparts
    refine Bool.eq_iff_iff.mpr ⟨fun h => ?_, fun h => ?_⟩
    · exact equalWith_of_alike ((alike_of_equalWith hx.ne_table hy.ne_table h).congr
        (fun a b ha hb => ha b hb) hparts hy.parts)
    · exact equalWith_of_alike ((alike_of_equalWith hx.ne_table hy.ne_table h).congr
        (fun a b ha hb => (ha b hb).symm) hparts hy.parts)
  induction hx generalizing y with
  | @atom x hatom => exact hstep (.atom hatom) hy (by cases x <;> trivial)
  | list hitems ih => exact hstep (.list hitems) hy fun a ha b hb => ih a ha hb
  | vector hitems ih => exact hstep (.vector hitems) hy fun a ha b hb => ih a ha hb
  | map hkeys hvalues hdistinct ihkeys ihvalues =>
    exact hstep (.map hkeys hvalues hdistinct) hy ⟨fun e he b hb => ihkeys e he hb,
      fun e he b hb => ihvalues e he hb, hdistinct⟩

end Datum

namespace Entries

variable {entries part : Entries}

/-- Keys in which nothing can change, no two of them equal. -/
structure Keyed (entries : Entries) : Prop where
  fixed : KeysIn Datum.Fixed entries
  distinct : Distinct Datum.equalFixed entries

theorem Keyed.nil : Keyed [] := ⟨by simp [KeysIn], .nil⟩

theorem Keyed.sublist (h : Keyed entries) (hpart : part.Sublist entries) :
    Keyed part :=
  ⟨fun e he => h.fixed e (hpart.subset he), h.distinct.sublist hpart⟩

theorem Keyed.pairwise (h : Keyed entries) : entries.Pairwise fun e later =>
    Datum.equalFixed e.1 later.1 = false ∧ Datum.equalFixed later.1 e.1 = false := by
  refine h.distinct.imp_of_mem fun {e later} he hlater hne => ⟨?_, hne⟩
  refine Bool.eq_false_iff.mpr fun heq => ?_
  have hback := Datum.equivalentOn_fixed.symm (h.fixed e he) (h.fixed later hlater) heq
  rw [hne] at hback
  cases hback

end Entries

theorem MapStore.equal_fixed (store : MapStore) {x y : Datum} (hx : x.Fixed) (hy : y.Fixed) :
    store.equal x y = x.equalFixed y := by
  unfold equal
  cases store.size with
  | zero => exact Datum.equalWith_fixed hx hy
  | succ n => exact Datum.equalWith_fixed hx hy

end TableLisp

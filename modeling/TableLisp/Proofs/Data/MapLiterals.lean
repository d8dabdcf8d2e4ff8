import Mathlib.Data.List.Induction
import Mathlib.Data.List.Nodup
import Mathlib.Data.List.Perm.Subperm
import Mathlib.Tactic.Choose
import TableLisp.Proofs.Data.Equality

/-! Which map a literal denotes, said of its items and not of the steps that make it. Keys are told
apart by what they are, a map as a key by its entries in any order; a key that comes again leaves
the first one as it is written and where it stands, and gives it another value. -/

namespace TableLisp

namespace Datum

/-- The same datum, but for the order of entries in maps, the sign of zero and the bits of what is
no number. -/
inductive Same : Datum → Datum → Prop where
  | atom {x : Datum} : x.isAtom = true → Same x x
  | zero {a b : Binary64} : a.magnitude = 0 → b.magnitude = 0 → Same (.float a) (.float b)
  | noNumber {a b : Binary64} : Binary64.infinite < a.magnitude → Binary64.infinite < b.magnitude →
      Same (.float a) (.float b)
  | closure {c c' : Closure Datum} : c.id = c'.id → Same (.closure c) (.closure c')
  | list {xs ys : List Datum} : List.Forall₂ Same xs ys → Same (.list xs) (.list ys)
  | vector {xs ys : List Datum} : List.Forall₂ Same xs ys → Same (.vector xs) (.vector ys)
  | map {xs ys zs : Entries} : List.Forall₂ Same (xs.map (·.1)) (zs.map (·.1)) →
      List.Forall₂ Same (xs.map (·.2)) (zs.map (·.2)) → zs.Perm ys → Same (.map xs) (.map ys)

end Datum

/-- The items of a map literal, keys and values in turn, and the entries of the map. -/
inductive Entries.Literal : List Datum → Entries → Prop where
  | nil : Literal [] []
  | fresh {items : List Datum} {entries : Entries} {key value : Datum} : Literal items entries →
      (∀ e ∈ entries, ¬ Datum.Same key e.1) →
      Literal (items ++ [key, value]) (entries ++ [(key, value)])
  | again {items : List Datum} {before after : Entries} {key first old value : Datum} :
      Literal items (before ++ (first, old) :: after) → Datum.Same key first →
      Literal (items ++ [key, value]) (before ++ (first, value) :: after)

section

variable {α β : Type} {R S : α → β → Prop} {xs : List α} {ys : List β}

theorem forall₂_congr_mem (h : ∀ x ∈ xs, ∀ y ∈ ys, R x y ↔ S x y) :
    List.Forall₂ R xs ys ↔ List.Forall₂ S xs ys := by
  rw [List.forall₂_iff_zip, List.forall₂_iff_zip]
  refine and_congr_right fun _ => forall₂_congr fun x y => forall_congr' fun hmem => ?_
  obtain ⟨hx, hy⟩ := List.of_mem_zip hmem
  exact h x hx y hy

theorem exists_mem_of_forall₂ (h : List.Forall₂ R xs ys) {x : α} (hx : x ∈ xs) :
    ∃ y ∈ ys, R x y := by
  induction h with
  | nil => cases hx
  | cons hfirst _ ih =>
    rcases List.mem_cons.mp hx with rfl | hx
    · exact ⟨_, by simp, hfirst⟩
    · obtain ⟨y, hy, hR⟩ := ih hx
      exact ⟨y, by simp [hy], hR⟩

end

namespace Entries

variable {K : Datum → Prop} {eq : Datum → Datum → Bool} {xs ys entries : Entries}

theorem forall₂_parts_iff {R : Datum → Datum → Prop} :
    List.Forall₂ R (xs.map (·.1)) (ys.map (·.1)) ∧ List.Forall₂ R (xs.map (·.2)) (ys.map (·.2)) ↔
      List.Forall₂ (fun e e' => R e.1 e'.1 ∧ R e.2 e'.2) xs ys := by
  simp only [List.forall₂_map_left_iff, List.forall₂_map_right_iff]
  exact ⟨fun h => h.1.mp (fun _ _ => And.intro) h.2,
    fun h => ⟨h.imp fun _ _ => And.left, h.imp fun _ _ => And.right⟩⟩

theorem Distinct.nodup (hK : EquivalentOn K eq) (h : Distinct eq entries)
    (hk : KeysIn K entries) : entries.Nodup := by
  refine h.imp_of_mem fun {e later} he _ hne heq => ?_
  rw [← heq, hK.refl (hk e he)] at hne
  cases hne

/-- Maps are equal if the entries of the second can be ordered so that they are equal one by one. -/
theorem equal_iff_perm (hK : EquivalentOn K eq) (hx : KeysIn K xs) (hy : KeysIn K ys)
    (hdx : Distinct eq xs) (hdy : Distinct eq ys) : equal eq xs ys = true ↔
      ∃ zs : Entries, List.Forall₂ (fun e e' => eq e.1 e'.1 = true ∧ eq e.2 e'.2 = true) xs zs ∧
        zs.Perm ys := by
  rw [equal_iff hK hx hy hdy]
  constructor
  · rintro ⟨hlength, hmatch⟩
    choose! partner hmem hkey hvalue using hmatch
    -- two entries with one partner have equal keys, so they are one
    have hinjective : ∀ e ∈ xs, ∀ e' ∈ xs, partner e = partner e' → e = e' := by
      intro e he e' he' heq
      have hback := hK.symm (hx e' he') (hy _ (hmem e' he')) (hkey e' he')
      rw [← heq] at hback
      exact hdx.eq_of_mem hK hx he he'
        (hK.trans (hx e he) (hy _ (hmem e he)) (hx e' he') (hkey e he) hback)
    have hnodup : (xs.map partner).Nodup := (hdx.nodup hK hx).map_on hinjective
    have hsubset : xs.map partner ⊆ ys := by
      intro e' he'
      obtain ⟨e, he, rfl⟩ := List.mem_map.mp he'
      exact hmem e he
    refine ⟨xs.map partner, ?_, (hnodup.subperm hsubset).perm_of_length_le (by simp [hlength])⟩
    rw [List.forall₂_map_right_iff, List.forall₂_same]
    exact fun e he => ⟨hkey e he, hvalue e he⟩
  · rintro ⟨zs, hzs, hperm⟩
    refine ⟨hzs.length_eq.trans hperm.length_eq, fun e he => ?_⟩
    obtain ⟨e', he', heq⟩ := exists_mem_of_forall₂ hzs he
    exact ⟨e', hperm.subset he', heq⟩

end Entries

namespace Datum

variable {x y : Datum}

theorem same_float_iff {a b : Binary64} : a.same b = true ↔ a = b ∨
    (a.magnitude = 0 ∧ b.magnitude = 0) ∨
      (Binary64.infinite < a.magnitude ∧ Binary64.infinite < b.magnitude) := by
  simp [Binary64.same, Binary64.isZero, Binary64.isNaN, or_assoc]

theorem equalFixed_iff_alike (hx : Fixed x) (hy : Fixed y) :
    equalFixed x y = true ↔ Alike equalFixed x y :=
  ⟨alike_of_equalWith hx.ne_table hy.ne_table, equalWith_of_alike⟩

section

variable {eq : Datum → Datum → Bool} {items : List Datum} {entries : Entries}

theorem atom_alike_iff (hatom : x.isAtom = true) : Alike eq x y ↔ Same x y := by
  constructor
  · intro h
    cases h with
    | same => exact .atom hatom
    | float h =>
      rcases same_float_iff.mp h with rfl | ⟨ha, hb⟩ | ⟨ha, hb⟩
      · exact .atom rfl
      · exact .zero ha hb
      · exact .noNumber ha hb
    | closure h => exact .closure h
    | _ => cases hatom
  · intro h
    cases h with
    | atom => exact .same hatom
    | zero ha hb => exact .float (same_float_iff.mpr (.inr (.inl ⟨ha, hb⟩)))
    | noNumber ha hb => exact .float (same_float_iff.mpr (.inr (.inr ⟨ha, hb⟩)))
    | closure h => exact .closure h
    | _ => cases hatom

theorem list_same_iff : Same (.list items) y ↔
    ∃ ys, y = .list ys ∧ List.Forall₂ Same items ys := by
  constructor
  · intro h
    cases h with
    | atom hatom => cases hatom
    | list h => exact ⟨_, rfl, h⟩
  · rintro ⟨ys, rfl, h⟩
    exact .list h

theorem vector_same_iff : Same (.vector items) y ↔
    ∃ ys, y = .vector ys ∧ List.Forall₂ Same items ys := by
  constructor
  · intro h
    cases h with
    | atom hatom => cases hatom
    | vector h => exact ⟨_, rfl, h⟩
  · rintro ⟨ys, rfl, h⟩
    exact .vector h

theorem map_same_iff : Same (.map entries) y ↔ ∃ ys, y = .map ys ∧
    ∃ zs : Entries, List.Forall₂ (fun e e' => Same e.1 e'.1 ∧ Same e.2 e'.2) entries zs ∧
      zs.Perm ys := by
  constructor
  · intro h
    cases h with
    | atom hatom => cases hatom
    | map hkeys hvalues h => exact ⟨_, rfl, _, Entries.forall₂_parts_iff.mp ⟨hkeys, hvalues⟩, h⟩
  · rintro ⟨ys, rfl, zs, hzs, h⟩
    obtain ⟨hkeys, hvalues⟩ := Entries.forall₂_parts_iff.mpr hzs
    exact .map hkeys hvalues h

end

theorem equalFixed_iff_same (hx : Fixed x) (hy : Fixed y) : equalFixed x y = true ↔ Same x y := by
  induction hx generalizing y with
  | atom hatom => rw [equalFixed_iff_alike (.atom hatom) hy, atom_alike_iff hatom]
  | list hxs ih =>
    rw [equalFixed_iff_alike (.list hxs) hy, list_alike_iff, list_same_iff]
    refine exists_congr fun ys => and_congr_right ?_
    rintro rfl
    exact forall₂_congr_mem fun x hx y hmem => ih x hx (hy.parts y hmem)
  | vector hxs ih =>
    rw [equalFixed_iff_alike (.vector hxs) hy, vector_alike_iff, vector_same_iff]
    refine exists_congr fun ys => and_congr_right ?_
    rintro rfl
    exact forall₂_congr_mem fun x hx y hmem => ih x hx (hy.parts y hmem)
  | map hkeys hvalues hdistinct ihkeys ihvalues =>
    rw [equalFixed_iff_alike (.map hkeys hvalues hdistinct) hy, map_alike_iff, map_same_iff]
    refine exists_congr fun ys => and_congr_right ?_
    rintro rfl
    obtain ⟨hykeys, hyvalues, hydistinct⟩ := hy.parts
    rw [Entries.equal_iff_perm equivalentOn_fixed hkeys hykeys hdistinct hydistinct]
    refine exists_congr fun zs => and_congr_left fun hperm => ?_
    exact forall₂_congr_mem fun e he e' he' => and_congr
      (ihkeys e he (hykeys e' (hperm.subset he'))) (ihvalues e he (hyvalues e' (hperm.subset he')))

end Datum

namespace Entries

variable {eq : Datum → Datum → Bool} {entry : Datum × Datum} {entries pairs before after : Entries}
variable {items : List Datum} {key value first old : Datum}

/-- Keys and values in turn. -/
def inTurn (entries : Entries) : List Datum := entries.flatMap fun entry => [entry.1, entry.2]

theorem inTurn_concat (pairs : Entries) (key value : Datum) :
    inTurn (pairs ++ [(key, value)]) = inTurn pairs ++ [key, value] := by
  simp [inTurn]

theorem pairUp_inTurn (entries : Entries) : pairUp (inTurn entries) = entries := by
  induction entries with
  | nil => rfl
  | cons entry more ih => exact congrArg (entry :: ·) ih

theorem length_inTurn (entries : Entries) : (inTurn entries).length = 2 * entries.length := by
  simp [inTurn, List.length_flatMap, Nat.mul_comm]

theorem inTurn_pairUp : ∀ {items : List Datum}, items.length % 2 = 0 → inTurn (pairUp items) = items
  | [], _ => rfl
  | key :: value :: more, h => by
    have hmore : more.length % 2 = 0 := by
      simp only [List.length_cons] at h
      omega
    exact congrArg ([key, value] ++ ·) (inTurn_pairUp hmore)

theorem insertAll_concat (pairs entries : Entries) (entry : Datum × Datum) :
    insertAll eq (pairs ++ [entry]) entries = insert eq entry (insertAll eq pairs entries) := by
  simp [insertAll]

theorem insert_of_new (h : ∀ e ∈ entries, eq entry.1 e.1 = false) :
    insert eq entry entries = entries ++ [entry] := by
  induction entries with
  | nil => rfl
  | cons e more ih =>
    have hmore : insert eq entry more = more ++ [entry] := ih fun d hd => h d (by simp [hd])
    simp [insert, h e (by simp), hmore]

theorem insert_of_old (h : ∀ e ∈ before, eq entry.1 e.1 = false)
    (hfirst : eq entry.1 first = true) :
    insert eq entry (before ++ (first, old) :: after) = before ++ (first, entry.2) :: after := by
  induction before with
  | nil => simp [insert, hfirst]
  | cons e more ih =>
    have hmore := ih fun d hd => h d (by simp [hd])
    simp [insert, h e (by simp), hmore]

theorem Keyed.before_ne (h : Keyed (before ++ (first, old) :: after)) (hkey : key.Fixed)
    (hfirst : Datum.equalFixed key first = true) :
    ∀ e ∈ before, Datum.equalFixed key e.1 = false := by
  intro e he
  have hfixed : e.1.Fixed := h.fixed e (by simp [he])
  have hfixed' : first.Fixed := h.fixed (first, old) (by simp)
  refine Bool.eq_false_iff.mpr fun heq => ?_
  have hboth : Datum.equalFixed first e.1 = true := Datum.equivalentOn_fixed.trans hfixed' hkey
    hfixed (Datum.equivalentOn_fixed.symm hkey hfixed' hfirst) heq
  rw [(List.pairwise_append.mp h.distinct).2.2 e he (first, old) (by simp)] at hboth
  cases hboth

theorem keyed_insertAll (h : KeysIn Datum.Fixed pairs) :
    Keyed (insertAll Datum.equalFixed pairs []) :=
  ⟨keysIn_insertAll (by simp [KeysIn]) h, distinct_insertAll .nil⟩

theorem literal_insertAll (h : KeysIn Datum.Fixed pairs) :
    Literal (inTurn pairs) (insertAll Datum.equalFixed pairs []) := by
  induction pairs using List.reverseRecOn with
  | nil => exact .nil
  | append_singleton pairs entry ih =>
    obtain ⟨key, value⟩ := entry
    have hpairs : KeysIn Datum.Fixed pairs := fun e he => h e (List.mem_append_left _ he)
    have hkey : key.Fixed := h (key, value) (by simp)
    have hkeyed := keyed_insertAll hpairs
    rw [inTurn_concat, insertAll_concat]
    by_cases hnew : ∀ e ∈ insertAll Datum.equalFixed pairs [], Datum.equalFixed key e.1 = false
    · rw [insert_of_new hnew]
      refine .fresh (ih hpairs) fun e he hsame => ?_
      rw [← Datum.equalFixed_iff_same hkey (hkeyed.fixed e he), hnew e he] at hsame
      cases hsame
    · simp only [not_forall, Bool.not_eq_false] at hnew
      obtain ⟨⟨first, old⟩, he, hfirst⟩ := hnew
      have hsame := (Datum.equalFixed_iff_same hkey (hkeyed.fixed _ he)).mp hfirst
      have hliteral := ih hpairs
      obtain ⟨before, after, hsplit⟩ := List.append_of_mem he
      rw [hsplit] at hliteral hkeyed ⊢
      rw [insert_of_old (hkeyed.before_ne hkey hfirst) hfirst]
      exact .again hliteral hsame

theorem Literal.eq_insertAll (h : Literal items entries) (hitems : ∀ x ∈ items, x.Fixed) :
    ∃ pairs, items = inTurn pairs ∧ entries = insertAll Datum.equalFixed pairs [] := by
  have hkeys : ∀ {pairs key value}, (∀ x ∈ inTurn pairs ++ [key, value], x.Fixed) →
      KeysIn Datum.Fixed pairs ∧ Datum.Fixed key := by
    intro pairs key value h
    refine ⟨fun e he => h e.1 ?_, h key (by simp)⟩
    exact List.mem_append_left _ (List.mem_flatMap.mpr ⟨e, he, by simp⟩)
  induction h with
  | nil => exact ⟨[], rfl, rfl⟩
  | @fresh items entries key value _ hnew ih =>
    obtain ⟨pairs, rfl, rfl⟩ := ih fun x hx => hitems x (List.mem_append_left _ hx)
    obtain ⟨hpairs, hkey⟩ := hkeys hitems
    refine ⟨pairs ++ [(key, value)], (inTurn_concat _ _ _).symm, ?_⟩
    rw [insertAll_concat, insert_of_new fun e he => ?_]
    rw [Bool.eq_false_iff, ne_eq,
      Datum.equalFixed_iff_same hkey ((keyed_insertAll hpairs).fixed e he)]
    exact hnew e he
  | @again items before after key first old value _ hsame ih =>
    obtain ⟨pairs, rfl, hentries⟩ := ih fun x hx => hitems x (List.mem_append_left _ hx)
    obtain ⟨hpairs, hkey⟩ := hkeys hitems
    have hkeyed := keyed_insertAll hpairs
    rw [← hentries] at hkeyed
    have hfirst := (Datum.equalFixed_iff_same hkey (hkeyed.fixed (first, old) (by simp))).mpr hsame
    refine ⟨pairs ++ [(key, value)], (inTurn_concat _ _ _).symm, ?_⟩
    rw [insertAll_concat, ← hentries, insert_of_old (hkeyed.before_ne hkey hfirst) hfirst]

/-- A literal has an even number of items, and its entries are made of their pairs. -/
theorem literal_iff (hitems : ∀ x ∈ items, x.Fixed) : Literal items entries ↔
    items.length % 2 = 0 ∧ entries = insertAll Datum.equalFixed (pairUp items) [] := by
  constructor
  · intro h
    obtain ⟨pairs, rfl, rfl⟩ := h.eq_insertAll hitems
    rw [length_inTurn, pairUp_inTurn]
    exact ⟨by omega, rfl⟩
  · rintro ⟨heven, rfl⟩
    have hliteral := literal_insertAll (in_pairUp hitems).1
    rwa [inTurn_pairUp heven] at hliteral

theorem literal_of_distinct (h : entries.Pairwise fun e later => ¬ Datum.Same later.1 e.1) :
    Literal (inTurn entries) entries := by
  induction entries using List.reverseRecOn with
  | nil => exact .nil
  | append_singleton entries entry ih =>
    obtain ⟨hentries, _, hnew⟩ := List.pairwise_append.mp h
    rw [inTurn_concat]
    exact .fresh (ih hentries) fun e he => hnew e he entry (by simp)

theorem Literal.parts {K : Datum → Prop} (h : Literal items entries) (hitems : ∀ x ∈ items, K x) :
    KeysIn K entries ∧ ValuesIn K entries := by
  induction h with
  | nil => exact ⟨by simp [KeysIn], by simp [ValuesIn]⟩
  | @fresh items entries key value _ _ ih =>
    obtain ⟨hkeys, hvalues⟩ := ih fun x hx => hitems x (List.mem_append_left _ hx)
    exact ⟨List.forall_mem_append.mpr ⟨hkeys, by simp [hitems key (by simp)]⟩,
      List.forall_mem_append.mpr ⟨hvalues, by simp [hitems value (by simp)]⟩⟩
  | @again items before after key first old value _ _ ih =>
    obtain ⟨hkeys, hvalues⟩ := ih fun x hx => hitems x (List.mem_append_left _ hx)
    obtain ⟨hbefore, hafter⟩ := List.forall_mem_append.mp hkeys
    obtain ⟨hbefore', hafter'⟩ := List.forall_mem_append.mp hvalues
    obtain ⟨hfirst, hmore⟩ := keysIn_cons.mp hafter
    obtain ⟨_, hmore'⟩ := valuesIn_cons.mp hafter'
    have hvalue : K value := hitems value (by simp)
    exact ⟨List.forall_mem_append.mpr ⟨hbefore, keysIn_cons.mpr ⟨hfirst, hmore⟩⟩,
      List.forall_mem_append.mpr ⟨hbefore', valuesIn_cons.mpr ⟨hvalue, hmore'⟩⟩⟩

theorem Literal.fixed (h : Literal items entries) (hitems : ∀ x ∈ items, x.Fixed) :
    (Datum.map entries).Fixed := by
  obtain ⟨hkeys, hvalues⟩ := h.parts hitems
  obtain ⟨_, heq⟩ := (literal_iff hitems).mp h
  exact .map hkeys hvalues (heq ▸ distinct_insertAll .nil)

end Entries

end TableLisp

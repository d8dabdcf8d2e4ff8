import TableLisp.Proofs.Data.Equality
import TableLisp.Proofs.Reader.Progress
import TableLisp.Proofs.Reader.RoundTrip

/-! What is read is well formed, at every depth: names are such as the reader makes, no two keys of a
map are equal, and there is no function and nothing that can change. So a form without floats whose
keywords are tokens is read back from its printed text. -/

namespace TableLisp

namespace Datum

/-- The datum itself and what occurs in it, also keys and values of maps. -/
inductive Node : Datum → Datum → Prop where
  | self (x : Datum) : Node x x
  | listItem {x item : Datum} {items : List Datum} : item ∈ items → Node x item →
      Node x (.list items)
  | vectorItem {x item : Datum} {items : List Datum} : item ∈ items → Node x item →
      Node x (.vector items)
  | key {x : Datum} {e : Datum × Datum} {entries : Entries} : e ∈ entries → Node x e.1 →
      Node x (.map entries)
  | value {x : Datum} {e : Datum × Datum} {entries : Entries} : e ∈ entries → Node x e.2 →
      Node x (.map entries)

/-- Each node satisfies `P`. -/
def EachNode (P : Datum → Prop) (x : Datum) : Prop := ∀ node, Node node x → P node

variable {P : Datum → Prop} {x : Datum} {items : List Datum} {entries : Entries}

theorem EachNode.self (h : x.EachNode P) : P x := h x (.self x)

theorem eachNode_atom (hatom : x.isAtom = true) (h : P x) : x.EachNode P := by
  intro node hnode
  cases hnode with
  | self => exact h
  | _ => cases hatom

theorem eachNode_list : (list items).EachNode P ↔ P (list items) ∧ ∀ x ∈ items, x.EachNode P := by
  refine ⟨fun h => ⟨h.self, fun x hx node hnode => h node (.listItem hx hnode)⟩, ?_⟩
  rintro ⟨hself, hitems⟩ node hnode
  cases hnode with
  | self => exact hself
  | listItem hx hnode => exact hitems _ hx node hnode

theorem eachNode_vector :
    (vector items).EachNode P ↔ P (vector items) ∧ ∀ x ∈ items, x.EachNode P := by
  refine ⟨fun h => ⟨h.self, fun x hx node hnode => h node (.vectorItem hx hnode)⟩, ?_⟩
  rintro ⟨hself, hitems⟩ node hnode
  cases hnode with
  | self => exact hself
  | vectorItem hx hnode => exact hitems _ hx node hnode

theorem eachNode_map : (map entries).EachNode P ↔
    P (map entries) ∧ Entries.KeysIn (EachNode P) entries ∧
      Entries.ValuesIn (EachNode P) entries := by
  constructor
  · intro h
    exact ⟨h.self, fun e he node hnode => h node (.key he hnode),
      fun e he node hnode => h node (.value he hnode)⟩
  · rintro ⟨hself, hkeys, hvalues⟩ node hnode
    cases hnode with
    | self => exact hself
    | key he hnode => exact hkeys _ he node hnode
    | value he hnode => exact hvalues _ he node hnode

/-- Data are atoms and tables, and what is made of data. -/
@[elab_as_elim]
theorem parts_induction {P : Datum → Prop} (atom : ∀ x, x.isAtom = true → P x)
    (table : ∀ id, P (.table id)) (list : ∀ items, (∀ x ∈ items, P x) → P (.list items))
    (vector : ∀ items, (∀ x ∈ items, P x) → P (.vector items))
    (map : ∀ entries : Entries, (∀ e ∈ entries, P e.1) → (∀ e ∈ entries, P e.2) →
      P (.map entries)) (x : Datum) : P x := by
  cases x with
  | list items => exact list items fun y hy => parts_induction atom table list vector map y
  | vector items => exact vector items fun y hy => parts_induction atom table list vector map y
  | map entries =>
    exact map entries (fun e he => parts_induction atom table list vector map e.1)
      fun e he => parts_induction atom table list vector map e.2
  | table id => exact table id
  | _ => exact atom _ rfl
termination_by sizeOf x
decreasing_by
  · exact sizeOf_lt_list hy
  · exact sizeOf_lt_vector hy
  · exact (sizeOf_lt_map he).1
  · exact (sizeOf_lt_map he).2

end Datum

namespace Text

/-- The code points of the blank characters. -/
def blankCodes : List Nat :=
  [9, 10, 11, 12, 13, 0x20, 0x85, 0xA0, 0x1680, 0x2000, 0x2001, 0x2002, 0x2003, 0x2004, 0x2005,
    0x2006, 0x2007, 0x2008, 0x2009, 0x200A, 0x2028, 0x2029, 0x202F, 0x205F, 0x3000]

theorem mem_blankCodes {c : Char} (h : isBlank c = true) : c.toNat ∈ blankCodes := by
  simp only [isBlank, Bool.or_eq_true, Bool.and_eq_true, decide_eq_true_eq, beq_iff_eq] at h
  simp only [blankCodes, List.mem_cons, List.not_mem_nil]
  omega

theorem not_alphabetic_of_blank {c : Char} (h : isBlank c = true) : isAlphabetic c = false := by
  have hcodes : blankCodes.all (fun n => !inRanges n alphabeticRanges) = true := by decide +kernel
  simpa [isAlphabetic] using List.all_eq_true.mp hcodes _ (mem_blankCodes h)

theorem not_blank_of_identifierStart {c : Char} (h : isIdentifierStart c = true) :
    isBlank c = false := by
  cases hblank : isBlank c with
  | false => rfl
  | true =>
    have hmarks : leadingMarks.all (fun c => !isBlank c) = true := by decide
    simp only [isIdentifierStart, not_alphabetic_of_blank hblank, Bool.false_or, Bool.and_eq_true,
      List.contains_eq_mem, decide_eq_true_eq] at h
    simpa [hblank] using List.all_eq_true.mp hmarks c h.1

theorem not_blank_of_identifierChar {c : Char} (h : isIdentifierChar c = true) :
    isBlank c = false := by
  simp only [isIdentifierChar, Bool.or_eq_true, beq_iff_eq] at h
  rcases h with (((hstart | hdigit) | rfl) | rfl) | rfl
  · exact not_blank_of_identifierStart hstart
  · cases hblank : isBlank c with
    | false => rfl
    | true =>
      simp [isDecimal, isDigitOf, digitValue?, Reader.hexValue?_of_isBlank hblank] at hdigit
  · rfl
  · rfl
  · rfl

theorem not_blank_of_identifier {c : Char} {name : List Char} (h : isIdentifier name = true)
    (hc : c ∈ name) : isBlank c = false := by
  cases name with
  | nil => cases h
  | cons first more =>
    simp only [isIdentifier, Bool.and_eq_true, List.all_eq_true] at h
    rcases List.mem_cons.mp hc with rfl | hmore
    · exact not_blank_of_identifierStart h.1
    · exact not_blank_of_identifierChar (h.2 c hmore)

end Text

namespace Reader

/-- A name that is no token although it has no blank in it: it has a character in it that the
standard table binds, or it begins like a number. -/
def Irregular (name : List Char) : Prop :=
  (∃ c ∈ name, ReadTable.standardChars.contains c = true) ∨
    ∃ first more, name = first :: more ∧ Text.startsNumber first more.head? = true

theorem Token.regular {name : List Char} (h : Token name) : ¬ Irregular name := by
  rintro (⟨c, hc, hbound⟩ | ⟨first, more, rfl, hstart⟩)
  · have hfree := Bool.or_eq_false_iff.mp (h.free c hc)
    rw [hfree.2] at hbound
    cases hbound
  · rw [h.not_number first more rfl] at hstart
    cases hstart

/-- What the reader sees to where it makes a name or a map. It makes no functions and no tables. -/
def WellFormed : Datum → Prop
  | .symbol s => Token s.name.toList ∧ s.name ≠ "nil" ∧ s.name ≠ "true" ∧ s.name ≠ "false" ∧
      ((∃ form, s = .special form) ↔ ∃ form : SpecialForm, form.name = s.name)
  | .keyword name => name ≠ "" ∧ (∀ c ∈ name.toList, Text.isBlank c = false) ∧
      (Irregular name.toList → Text.isIdentifier name.toList = true)
  | .map entries => entries.Pairwise fun e later =>
      Datum.equalFixed e.1 later.1 = false ∧ Datum.equalFixed later.1 e.1 = false
  | .table _ | .primitive _ | .closure _ => False
  | _ => True

variable {x : Datum}

theorem wellFormed_symbol {text : List Char} {s : Symbol} (ht : Token text)
    (hnil : text ≠ "nil".toList) (htrue : text ≠ "true".toList) (hfalse : text ≠ "false".toList)
    (hname : s.name.toList = text)
    (hspecial : (∃ form, s = .special form) ↔ ∃ form : SpecialForm, form.name = s.name) :
    WellFormed (.symbol s) := by
  subst hname
  have hne : ∀ name : String, s.name.toList ≠ name.toList → s.name ≠ name := by
    rintro name h rfl
    exact h rfl
  exact ⟨ht, hne _ hnil, hne _ htrue, hne _ hfalse, hspecial⟩

theorem wellFormed_special (form : SpecialForm) : WellFormed (.symbol (.special form)) := by
  refine ⟨?_, ?_, ?_, ?_, ⟨fun _ => ⟨form, rfl⟩, fun _ => ⟨form, rfl⟩⟩⟩
  all_goals cases form <;> decide

theorem wellFormed_keyword {text : List Char} (ht : Token text) :
    WellFormed (.keyword (String.ofList text)) := by
  simp only [WellFormed, String.toList_ofList]
  refine ⟨fun h => ht.ne_nil (by simpa using congrArg String.toList h), fun c hc => ?_,
    fun h => absurd h ht.regular⟩
  exact (Bool.or_eq_false_iff.mp (ht.free c hc)).1

theorem wellFormed_quotedKeyword {text : List Char} (h : Text.isIdentifier text = true) :
    WellFormed (.keyword (String.ofList text)) := by
  simp only [WellFormed, String.toList_ofList]
  refine ⟨?_, fun c hc => Text.not_blank_of_identifier h hc, fun _ => h⟩
  rintro hnil
  rw [show text = [] by simpa using congrArg String.toList hnil] at h
  cases h

theorem eachNode_literal {items : List Datum} {entries : Entries} (hfixed : ∀ x ∈ items, x.Fixed)
    (h : Entries.Literal items entries) (hitems : ∀ x ∈ items, x.EachNode WellFormed) :
    (Datum.map entries).EachNode WellFormed := by
  obtain ⟨hkeys, hvalues⟩ := h.parts hitems
  obtain ⟨hfixedKeys, _, hdistinct⟩ := (h.fixed hfixed).parts
  have hkeyed : Entries.Keyed entries := ⟨hfixedKeys, hdistinct⟩
  exact Datum.eachNode_map.mpr ⟨hkeyed.pairwise, hkeys, hvalues⟩

theorem eachNode_form {head : SpecialForm} (h : x.EachNode WellFormed) :
    (Datum.form head [x]).EachNode WellFormed := by
  refine Datum.eachNode_list.mpr ⟨trivial, ?_⟩
  simp only [List.mem_cons, List.not_mem_nil, or_false, forall_eq_or_imp, forall_eq]
  exact ⟨Datum.eachNode_atom rfl (wellFormed_special head), h⟩

theorem wellFormed_of_denotes {floats openEnded : Bool} {text : List Char}
    (h : Denotes floats openEnded text x) : x.EachNode WellFormed := by
  refine @Denotes.rec floats (fun _ _ x _ => x.EachNode WellFormed)
    (fun _ items _ => ∀ x ∈ items, x.EachNode WellFormed)
    ?nil ?bool ?symbol ?number ?character ?string ?keyword ?quotedKeyword ?list ?vector ?map
    ?quote ?quasiquote ?unquote ?spliceUnquote ?none ?more _ _ _ h
  case nil => exact Datum.eachNode_atom rfl trivial
  case bool => exact fun _ => Datum.eachNode_atom rfl trivial
  case symbol =>
    intro text s ht hnil htrue hfalse hname hspecial
    exact Datum.eachNode_atom rfl (wellFormed_symbol ht hnil htrue hfalse hname hspecial)
  case number =>
    intro text d hn
    cases hn <;> exact Datum.eachNode_atom rfl trivial
  case character => exact fun _ _ => Datum.eachNode_atom rfl trivial
  case string => exact fun _ => Datum.eachNode_atom rfl trivial
  case keyword => exact fun _ ht => Datum.eachNode_atom rfl (wellFormed_keyword ht)
  case quotedKeyword => exact fun _ _ hid => Datum.eachNode_atom rfl (wellFormed_quotedKeyword hid)
  case list => exact fun _ ih => Datum.eachNode_list.mpr ⟨trivial, ih⟩
  case vector => exact fun _ ih => Datum.eachNode_vector.mpr ⟨trivial, ih⟩
  case map => exact fun hitems hentries ih => eachNode_literal hitems.fixed hentries ih
  case quote => exact fun _ _ ih => eachNode_form ih
  case quasiquote => exact fun _ _ ih => eachNode_form ih
  case unquote => exact fun _ _ _ ih => eachNode_form ih
  case spliceUnquote => exact fun _ _ ih => eachNode_form ih
  case none => simp
  case more =>
    intro layout text rest openEnded item items _ _ _ _ ih ihs
    simp only [List.mem_cons, forall_eq_or_imp]
    exact ⟨ih, ihs⟩

theorem token_of_regular {name : List Char} (hne : name ≠ [])
    (hblank : ∀ c ∈ name, Text.isBlank c = false) (h : ¬ Irregular name) : Token name := by
  obtain ⟨hbound, hstart⟩ := not_or.mp h
  refine ⟨hne, fun c hc => ?_, fun first more heq => ?_⟩
  · rw [isDelimiter, hblank c hc, Bool.false_or]
    exact Bool.eq_false_iff.mpr fun hc' => hbound ⟨c, hc, hc'⟩
  · exact Bool.eq_false_iff.mpr fun hnumber => hstart ⟨first, more, heq, hnumber⟩

/-- Well-formed data without floats, whose keywords are tokens, can be printed and read back. -/
theorem printable_of_wellFormed (h : x.EachNode WellFormed)
    (hfloat : ∀ a, ¬ Datum.Node (.float a) x)
    (hkeyword : ∀ name, Datum.Node (.keyword name) x → ¬ Irregular name.toList) : Printable x := by
  induction x using Datum.parts_induction with
  | atom x hatom =>
    have hself := h.self
    cases x with
    | nil => exact .nil
    | bool b => exact .bool b
    | int n => exact .int n
    | big n => exact .big n
    | float a => exact absurd (.self _) (hfloat a)
    | char c => exact .char c
    | string text => exact .string text
    | symbol s =>
      obtain ⟨ht, hnil, htrue, hfalse, hspecial⟩ := hself
      exact .symbol ht hnil htrue hfalse (eq_ofName_of_special_iff hspecial)
    | keyword name =>
      obtain ⟨hne, hblank, _⟩ := hself
      exact .keyword (token_of_regular (by simpa using hne) hblank (hkeyword name (.self _)))
    | primitive p => exact hself.elim
    | closure c => exact hself.elim
    | list | vector | map | table => cases hatom
  | table id => exact h.self.elim
  | list items ih =>
    obtain ⟨_, hitems⟩ := Datum.eachNode_list.mp h
    refine .list fun x hx => ih x hx (hitems x hx) ?_ ?_
    · exact fun a hnode => hfloat a (.listItem hx hnode)
    · exact fun name hnode => hkeyword name (.listItem hx hnode)
  | vector items ih =>
    obtain ⟨_, hitems⟩ := Datum.eachNode_vector.mp h
    refine .vector fun x hx => ih x hx (hitems x hx) ?_ ?_
    · exact fun a hnode => hfloat a (.vectorItem hx hnode)
    · exact fun name hnode => hkeyword name (.vectorItem hx hnode)
  | map entries ihkeys ihvalues =>
    obtain ⟨hself, hkeys, hvalues⟩ := Datum.eachNode_map.mp h
    refine .map (fun e he => ihkeys e he (hkeys e he) ?_ ?_)
      (fun e he => ihvalues e he (hvalues e he) ?_ ?_) (hself.imp fun hne => hne.2)
    · exact fun a hnode => hfloat a (.key he hnode)
    · exact fun name hnode => hkeyword name (.key he hnode)
    · exact fun a hnode => hfloat a (.value he hnode)
    · exact fun name hnode => hkeyword name (.value he hnode)

theorem read_of_mem_replies {d : Dialect} {n : Nat} {src : Source}
    (h : .ok (some x) ∈ replies d n src) :
    ∃ src' after, read d src' = (.ok (some x), after) := by
  induction n generalizing src with
  | zero => cases h
  | succ n ih =>
    rcases List.mem_cons.mp h with hhead | hmore
    · exact ⟨src, (read d src).2, Prod.ext hhead.symm rfl⟩
    · exact ih hmore

theorem read_of_denotes {floats openEnded : Bool} {text : List Char}
    (h : Denotes floats openEnded text x) :
    ∃ after, read (.standard floats) (.ofChars text) = (.ok (some x), after) ∧ after.rest = [] := by
  have hend : Delimited [] := by simp [Delimited]
  obtain ⟨line, hread⟩ := reads_of_denotes h [] (text.length + 1) 0 1 (fun _ => hend)
    (Nat.lt_succ_self _)
  rw [List.append_nil] at hread
  exact ⟨_, read_eq_some_iff.mpr hread, rfl⟩

theorem readFirst_printed (he : Printable x) (store : MapStore) :
    readFirst (.standard Settings.initial.preferFloats) (store.text .readable x) =
      .ok (some x) := by
  have htext : ∃ tableText, store.textWithin .readable store.size x =
      x.textWith .readable tableText := by
    cases store.size with
    | zero => exact ⟨_, rfl⟩
    | succ n => exact ⟨_, rfl⟩
  obtain ⟨tableText, htext⟩ := htext
  obtain ⟨openEnded, hdenotes⟩ := denoted_of_printable he tableText
  obtain ⟨after, hread, -⟩ := read_of_denotes hdenotes
  have hread' : read (.standard Settings.initial.preferFloats)
      (.ofChars (x.textWith .readable tableText)) = _ := hread
  rw [readFirst, MapStore.text, htext, Source.ofText, String.toList_ofList, hread']

/-- Only well-formed data are read, also behind errors and whichever way plain integers are read. A
form that is read and has no floats in it and no keywords but such as are tokens is read back from
its printed text. -/
theorem replies_wellFormed (floats : Bool) (text : List Char) (n : Nat) (x : Datum)
    (h : .ok (some x) ∈ replies (.standard floats) n (.ofChars text)) :
    (∀ node, Datum.Node node x → WellFormed node) ∧
    ((∀ a, ¬ Datum.Node (.float a) x) →
      (∀ name, Datum.Node (.keyword name) x → ¬ Irregular name.toList) →
      ∀ store : MapStore, readFirst (.standard Settings.initial.preferFloats)
        (store.text .readable x) = .ok (some x)) := by
  obtain ⟨src, after, hread⟩ := read_of_mem_replies h
  obtain ⟨_, _, _, _, hdenotes, _⟩ := formWithin_sound floats _ (read_eq_some_iff.mp hread)
  have hwell := wellFormed_of_denotes hdenotes
  refine ⟨hwell, fun hfloat hkeyword store => ?_⟩
  exact readFirst_printed (printable_of_wellFormed hwell hfloat hkeyword) store

theorem replies_wellFormed_stray :
    replies (.standard false) 2 (.ofChars ")(def x)".toList) =
      [.error (.delimiter none (some ')') ⟨1, 0⟩),
        .ok (some (.list [.symbol (.special .define), .named "x"]))] ∧
    WellFormed (.named "x") ∧
    ∀ store : MapStore, readFirst (.standard Settings.initial.preferFloats)
        (store.text .readable (.list [.symbol (.special .define), .named "x"])) =
      .ok (some (.list [.symbol (.special .define), .named "x"])) := by
  have hreplies : replies (.standard false) 2 (.ofChars ")(def x)".toList) =
      [.error (.delimiter none (some ')') ⟨1, 0⟩),
        .ok (some (.list [.symbol (.special .define), .named "x"]))] := by
    rfl
  obtain ⟨hwell, hback⟩ := replies_wellFormed false ")(def x)".toList 2
    (.list [.symbol (.special .define), .named "x"]) (by rw [hreplies]; simp)
  have hnodes : ∀ node, Datum.Node node (.list [.symbol (.special .define), .named "x"]) →
      node = .list [.symbol (.special .define), .named "x"] ∨ ∃ s, node = .symbol s := by
    intro node hnode
    cases hnode with
    | self => exact .inl rfl
    | listItem hitem hnode =>
      simp only [List.mem_cons, List.not_mem_nil, or_false] at hitem
      rcases hitem with rfl | rfl <;> cases hnode <;> exact .inr ⟨_, rfl⟩
  refine ⟨hreplies, hwell _ (.listItem (by simp) (.self _)), hback ?_ ?_⟩
  · intro a hnode
    rcases hnodes _ hnode with h | ⟨s, h⟩ <;> cases h
  · intro name hnode
    rcases hnodes _ hnode with h | ⟨s, h⟩ <;> cases h

end Reader

end TableLisp

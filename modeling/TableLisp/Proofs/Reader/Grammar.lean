import TableLisp.Proofs.Data.MapLiterals
import TableLisp.Proofs.Number.Language

/-! The grammar of the standard reader. `Denotes` says which texts stand for which data, without
reference to how they are read: numbers by the powers of the radix and by what is nearest, characters
by a table, maps by their items. The reader finds a datum exactly where such a text stands behind
layout; a text with an open end, which a further character could go on in, has to be followed by a
delimiter or by nothing. -/

namespace TableLisp.Reader

/-- Blank characters and those that the standard table binds. -/
def isDelimiter (c : Char) : Bool := Text.isBlank c || ReadTable.standardChars.contains c

/-- Nothing follows, or a delimiter. -/
def Delimited (rest : List Char) : Prop := ∀ c, rest.head? = some c → isDelimiter c = true

/-- Blanks, and comments with the newlines that end them. -/
inductive Layout : List Char → Prop where
  | nil : Layout []
  | blank {c : Char} {layout : List Char} : Text.isBlank c = true → Layout layout →
      Layout (c :: layout)
  | comment {body layout : List Char} : (∀ c ∈ body, c ≠ '\n') → Layout layout →
      Layout (';' :: (body ++ '\n' :: layout))

/-- A run of characters that are no delimiters and do not begin like a number. -/
structure Token (text : List Char) : Prop where
  ne_nil : text ≠ []
  free : ∀ c ∈ text, isDelimiter c = false
  not_number : ∀ first more, text = first :: more → Text.startsNumber first more.head? = false

/-- Data one after the other, with layout before each and after the last; `D` says what a single
text stands for, and whether it has an open end. -/
inductive Items (D : Bool → List Char → Datum → Prop) : List Char → List Datum → Prop where
  | nil {layout : List Char} : Layout layout → Items D layout []
  | cons {layout text rest : List Char} {openEnded : Bool} {item : Datum} {items : List Datum} :
      Layout layout → D openEnded text item → (openEnded = true → Delimited rest) →
      Items D rest items → Items D (layout ++ (text ++ rest)) (item :: items)

/-- The texts that stand for data, and whether they have an open end. -/
inductive Denotes (floats : Bool) : (openEnded : Bool) → List Char → Datum → Prop where
  | nil : Denotes floats true "nil".toList .nil
  | bool (b : Bool) : Denotes floats true (if b then "true" else "false").toList (.bool b)
  | symbol {text : List Char} {s : Symbol} : Token text → text ≠ "nil".toList →
      text ≠ "true".toList → text ≠ "false".toList → s.name.toList = text →
      ((∃ form, s = .special form) ↔ ∃ form : SpecialForm, form.name = s.name) →
      Denotes floats true text (.symbol s)
  | number {text : List Char} {d : Datum} : Numeral.Literal floats text d →
      Denotes floats true text d
  | character {first : Char} {more : List Char} {c : Char} :
      (∀ d ∈ more, isDelimiter d = false) → CharLiteral (first :: more) c →
      Denotes floats true ('\\' :: first :: more) (.char c)
  | string {body text : List Char} : Quoted.Spells body text →
      Denotes floats false ('"' :: (body ++ ['"'])) (.string (String.ofList text))
  | keyword {layout text : List Char} : Layout layout → Token text →
      Denotes floats true (':' :: (layout ++ text)) (.keyword (String.ofList text))
  | quotedKeyword {layout body text : List Char} : Layout layout → Quoted.Spells body text →
      Text.isIdentifier text = true →
      Denotes floats false (':' :: (layout ++ '"' :: (body ++ ['"'])))
        (.keyword (String.ofList text))
  | list {text : List Char} {items : List Datum} : Items (Denotes floats) text items →
      Denotes floats false ('(' :: (text ++ [')'])) (.list items)
  | vector {text : List Char} {items : List Datum} : Items (Denotes floats) text items →
      Denotes floats false ('[' :: (text ++ [']'])) (.vector items)
  | map {text : List Char} {items : List Datum} {entries : Entries} :
      Items (Denotes floats) text items → Entries.Literal items entries →
      Denotes floats false ('\x7b' :: (text ++ ['\x7d'])) (.map entries)
  | quote {openEnded : Bool} {layout text : List Char} {d : Datum} : Layout layout →
      Denotes floats openEnded text d →
      Denotes floats openEnded ('\x27' :: (layout ++ text)) (.form .quote [d])
  | quasiquote {openEnded : Bool} {layout text : List Char} {d : Datum} : Layout layout →
      Denotes floats openEnded text d →
      Denotes floats openEnded ('\x60' :: (layout ++ text)) (.form .quasiquote [d])
  | unquote {openEnded : Bool} {layout text : List Char} {d : Datum} : Layout layout →
      Denotes floats openEnded text d → (layout ++ text).head? ≠ some '@' →
      Denotes floats openEnded ('~' :: (layout ++ text)) (.form .unquote [d])
  | spliceUnquote {openEnded : Bool} {layout text : List Char} {d : Datum} : Layout layout →
      Denotes floats openEnded text d →
      Denotes floats openEnded ('~' :: '@' :: (layout ++ text)) (.form .spliceUnquote [d])

section

variable {c : Char} {rest more : List Char} {floats : Bool}

theorem isBound_standard (c : Char) :
    (ReadTable.standard c).isSome = ReadTable.standardChars.contains c := by
  unfold ReadTable.standard
  split <;> first | rfl | simp_all [ReadTable.standardChars]

theorem endsToken_standard (floats : Bool) (c : Char) :
    (Dialect.standard floats).endsToken c = isDelimiter c := by
  simp only [Dialect.endsToken, Dialect.isBound, Dialect.standard, isBound_standard, isDelimiter]

theorem hexValue?_of_isBlank (h : Text.isBlank c = true) : Text.hexValue? c = none := by
  have outside : ∀ low high : Char, (∀ n, low.toNat ≤ n → n ≤ high.toNat →
      n ≠ 0x20 ∧ 13 < n ∧ n < 0x85) → ¬ (low ≤ c ∧ c ≤ high) := by
    rintro low high hrange ⟨hlow, hhigh⟩
    obtain ⟨h₁, h₂, h₃⟩ := hrange c.toNat hlow hhigh
    simp [Text.isBlank] at h
    omega
  have digit := outside '0' '9' fun n h₁ h₂ => by
    have : ('0').toNat = 48 := rfl
    have : ('9').toNat = 57 := rfl
    omega
  have lower := outside 'a' 'f' fun n h₁ h₂ => by
    have : ('a').toNat = 97 := rfl
    have : ('f').toNat = 102 := rfl
    omega
  have upper := outside 'A' 'F' fun n h₁ h₂ => by
    have : ('A').toNat = 65 := rfl
    have : ('F').toNat = 70 := rfl
    omega
  simp only [Text.hexValue?, if_neg digit, if_neg lower, if_neg upper]

theorem proper_standard (floats : Bool) : (Dialect.standard floats).numeralRules.Proper := by
  intro c hc
  have hdelimiter : isDelimiter c = true := (endsToken_standard floats c).symm.trans hc
  rcases Bool.or_eq_true_iff.mp hdelimiter with hblank | hbound
  · refine ⟨hexValue?_of_isBlank hblank, ?_, ?_, ?_⟩
    · rintro rfl; exact absurd hblank (by decide)
    · rintro rfl; exact absurd hblank (by decide)
    · unfold Numeral.radixOf?
      split <;> first | rfl | exact absurd hblank (by decide)
  · have hmem : c ∈ ReadTable.standardChars := by simpa using hbound
    have hall : ReadTable.standardChars.all (fun c => decide (Text.hexValue? c = none ∧ c ≠ '.' ∧
        c ≠ 'n' ∧ Numeral.radixOf? c = none)) = true := by decide
    exact of_decide_eq_true (List.all_eq_true.mp hall c hmem)

theorem hexValue?_of_isDelimiter (h : isDelimiter c = true) : Text.hexValue? c = none :=
  (proper_standard false c ((endsToken_standard false c).trans h)).1

theorem free_of_digits {radix : Nat} {digits : List Char}
    (h : ∀ c ∈ digits, Text.isDigitOf radix c = true) : ∀ c ∈ digits, isDelimiter c = false := by
  intro c hc
  cases hdelimiter : isDelimiter c with
  | false => rfl
  | true =>
    have hdigit := h c hc
    rw [Text.isDigitOf, Text.digitValue?, hexValue?_of_isDelimiter hdelimiter] at hdigit
    cases hdigit

theorem free_suffix (wide : Bool) : ∀ c ∈ Numeral.suffixText wide, isDelimiter c = false := by
  intro c hc
  cases wide with
  | false => cases hc
  | true =>
    rw [List.mem_singleton.mp hc]
    decide

theorem free_fraction {fraction digits : List Char} (h : Numeral.Fraction fraction digits) :
    ∀ c ∈ fraction, isDelimiter c = false := by
  cases h with
  | absent => simp
  | present hd => exact List.forall_mem_cons.mpr ⟨by decide, free_of_digits hd⟩

theorem free_exponent {exponent : List Char} {power : Int}
    (h : Numeral.Exponent exponent power) : ∀ c ∈ exponent, isDelimiter c = false := by
  have hletter : ∀ e, e = 'e' ∨ e = 'E' → isDelimiter e = false := by
    rintro e (rfl | rfl) <;> decide
  rcases h with _ | ⟨he, _, hd⟩ | ⟨he, _, hd⟩ | ⟨he, _, hd⟩
  · simp
  · exact List.forall_mem_cons.mpr ⟨hletter _ he, free_of_digits hd.isDigitOf⟩
  all_goals
    exact List.forall_mem_cons.mpr ⟨hletter _ he,
      List.forall_mem_cons.mpr ⟨by decide, free_of_digits hd.isDigitOf⟩⟩

theorem free_of_unsigned {floats negative : Bool} {text : List Char} {n : Numeral}
    (h : Numeral.Unsigned floats negative text n) : ∀ c ∈ text, isDelimiter c = false := by
  cases h with
  | @radix marker radix digits wide hmarker _ hd =>
    have hfree : isDelimiter marker = false := by
      unfold Numeral.radixOf? at hmarker
      split at hmarker
      all_goals first | rfl | cases hmarker
    exact List.forall_mem_cons.mpr ⟨by decide, List.forall_mem_cons.mpr
      ⟨hfree, List.forall_mem_append.mpr ⟨free_of_digits hd, free_suffix wide⟩⟩⟩
  | octal wide _ hd =>
    exact List.forall_mem_cons.mpr ⟨by decide,
      List.forall_mem_append.mpr ⟨free_of_digits hd, free_suffix wide⟩⟩
  | padded wide hd _ =>
    exact List.forall_mem_cons.mpr ⟨by decide,
      List.forall_mem_append.mpr ⟨free_of_digits hd, free_suffix wide⟩⟩
  | decimal wide hfirst hd _ =>
    rw [← List.cons_append]
    exact List.forall_mem_append.mpr
      ⟨free_of_digits (List.forall_mem_cons.mpr ⟨hfirst, hd⟩), free_suffix wide⟩
  | floating _ hd hf he _ =>
    exact List.forall_mem_append.mpr ⟨free_of_digits hd,
      List.forall_mem_append.mpr ⟨free_fraction hf, free_exponent he⟩⟩

/-- No delimiter stands in a number literal. -/
theorem free_of_spelled {floats : Bool} {text : List Char} {n : Numeral}
    (h : Numeral.Spelled floats text n) : ∀ c ∈ text, isDelimiter c = false := by
  cases h with
  | unsigned h => exact free_of_unsigned h
  | plus h => exact List.forall_mem_cons.mpr ⟨by decide, free_of_unsigned h⟩
  | minus h => exact List.forall_mem_cons.mpr ⟨by decide, free_of_unsigned h⟩

theorem newline_not_free {text : List Char} (h : ∀ c ∈ text, isDelimiter c = false) :
    '\n' ∉ text := by
  intro hmem
  exact absurd (h _ hmem) (by decide)

/-- What is taken as a token has no delimiter in it and stands before one, or before the end. -/
theorem span_spec (floats : Bool) (src : Source) :
    (∀ c ∈ (src.span fun c => !(Dialect.standard floats).endsToken c).1, isDelimiter c = false) ∧
      Delimited (src.span fun c => !(Dialect.standard floats).endsToken c).2.rest := by
  obtain ⟨htaken, hstop⟩ := Source.span_spec (fun c => !(Dialect.standard floats).endsToken c) src
  constructor
  · intro c hc
    simpa [endsToken_standard] using htaken c hc
  · intro c hc
    simpa [endsToken_standard] using hstop c hc

/-- Is the text a token? -/
def isToken : List Char → Bool
  | [] => false
  | first :: more => (first :: more).all (fun c => !isDelimiter c) &&
      !Text.startsNumber first more.head?

theorem isToken_iff {text : List Char} : isToken text = true ↔ Token text := by
  constructor
  · intro h
    cases text with
    | nil => cases h
    | cons first more =>
      simp only [isToken, Bool.and_eq_true, List.all_eq_true, Bool.not_eq_true'] at h
      refine ⟨by simp, h.1, ?_⟩
      intro _ _ heq
      cases heq
      exact h.2
  · intro h
    obtain ⟨first, more, rfl⟩ := List.exists_cons_of_ne_nil h.ne_nil
    simp only [isToken, Bool.and_eq_true, List.all_eq_true, Bool.not_eq_true']
    exact ⟨h.free, h.not_number first more rfl⟩

instance (text : List Char) : Decidable (Token text) :=
  decidable_of_iff (isToken text = true) isToken_iff

theorem Layout.append {layout layout' : List Char} (h : Layout layout) (h' : Layout layout') :
    Layout (layout ++ layout') := by
  induction h with
  | nil => exact h'
  | blank hc _ ih => exact .blank hc ih
  | comment hbody _ ih =>
    rw [List.cons_append, List.append_assoc, List.cons_append]
    exact .comment hbody ih

theorem Delimited.of_append (h : Delimited (rest ++ more)) : Delimited rest := by
  intro c hc
  apply h c
  obtain ⟨tail, rfl⟩ := List.head?_eq_some_iff.mp hc
  rfl

theorem delimited_cons (h : isDelimiter c = true) : Delimited (c :: rest) := by
  intro d hd
  cases hd
  exact h

end

/-- Nothing can change in what a text of the grammar denotes. -/
theorem fixed_of_denotes {floats openEnded : Bool} {text : List Char} {d : Datum}
    (h : Denotes floats openEnded text d) : d.Fixed := by
  have hform : ∀ {head : SpecialForm} {d : Datum}, d.Fixed → (Datum.form head [d]).Fixed := by
    intro head d hd
    refine .list ?_
    simp only [List.mem_cons, List.not_mem_nil, or_false, forall_eq_or_imp, forall_eq]
    exact ⟨.atom rfl, hd⟩
  refine @Denotes.rec floats (fun _ _ d _ => d.Fixed) (fun _ items _ => ∀ x ∈ items, x.Fixed)
    ?nil ?bool ?symbol ?number ?character ?string ?keyword ?quotedKeyword ?list ?vector ?map
    ?quote ?quasiquote ?unquote ?spliceUnquote ?none ?more _ _ _ h
  case nil => exact .atom rfl
  case bool => exact fun _ => .atom rfl
  case symbol => exact fun _ _ _ _ _ _ => .atom rfl
  case number => exact fun h => .atom (by cases h <;> rfl)
  case character => exact fun _ _ => .atom rfl
  case string => exact fun _ => .atom rfl
  case keyword => exact fun _ _ => .atom rfl
  case quotedKeyword => exact fun _ _ _ => .atom rfl
  case list => exact fun _ ih => .list ih
  case vector => exact fun _ ih => .vector ih
  case map => exact fun _ hentries ih => hentries.fixed ih
  case quote => exact fun _ _ ih => hform ih
  case quasiquote => exact fun _ _ ih => hform ih
  case unquote => exact fun _ _ _ ih => hform ih
  case spliceUnquote => exact fun _ _ ih => hform ih
  case none => simp
  case more =>
    intro layout text rest openEnded item items _ _ _ _ ih ihs
    exact List.forall_mem_cons.mpr ⟨ih, ihs⟩

theorem Items.fixed {floats : Bool} {text : List Char} {items : List Datum}
    (h : Items (Denotes floats) text items) : ∀ x ∈ items, x.Fixed := by
  induction h with
  | nil => simp
  | cons _ hd _ _ ih => exact List.forall_mem_cons.mpr ⟨fixed_of_denotes hd, ih⟩

/-! ### What is read is in the grammar -/

section

variable {floats : Bool} {src after : Source} {r : Reading} {next : ReadStep}

/-- What an outcome of reading says about the text: a datum or a closing delimiter stands behind
layout. -/
def Finds (floats : Bool) (src : Source) : Reading → Source → Prop
  | .form d, after => ∃ layout text openEnded, Layout layout ∧ Denotes floats openEnded text d ∧
      (openEnded = true → Delimited after.rest) ∧ src.rest = layout ++ (text ++ after.rest)
  | .close c, after => ∃ layout, Layout layout ∧ src.rest = layout ++ c :: after.rest
  | .skip, _ => False
  | .eof, _ => True
  | .truncated _ _, _ => True

/-- Reading finds what the grammar says. -/
def Sound (floats : Bool) (next : ReadStep) : Prop :=
  ∀ ⦃src r after⦄, next src = (.ok r, after) → Finds floats src r after

theorem Finds.behind {layout : List Char} {src' : Source} (h : Finds floats src' r after)
    (hl : Layout layout) (hs : src.rest = layout ++ src'.rest) : Finds floats src r after := by
  cases r with
  | form d =>
    obtain ⟨layout', text, openEnded, hl', hd, hopen, hs'⟩ := h
    exact ⟨layout ++ layout', text, openEnded, hl.append hl', hd, hopen, by
      rw [hs, hs', List.append_assoc]⟩
  | close c =>
    obtain ⟨layout', hl', hs'⟩ := h
    exact ⟨layout ++ layout', hl.append hl', by rw [hs, hs', List.append_assoc]⟩
  | skip => exact h.elim
  | eof => trivial
  | truncated context pos => trivial

theorem withOperand_cases {context : String} {make : Datum → Except Error Reading}
    (h : withOperand next context make src = (.ok r, after)) :
    (∃ d, next src = (.ok (.form d), after) ∧ make d = .ok r) ∨
      ∃ context pos, r = .truncated context pos := by
  unfold withOperand operand at h
  rcases hnext : next src with ⟨e | d | c | _ | _ | ⟨context', pos⟩, src'⟩ <;> rw [hnext] at h
  · cases h
  · obtain ⟨hmake, rfl⟩ := Prod.mk.inj h
    exact .inl ⟨d, rfl, hmake⟩
  · cases h
  · cases h; exact .inr ⟨_, _, rfl⟩
  · cases h; exact .inr ⟨_, _, rfl⟩
  · cases h; exact .inr ⟨_, _, rfl⟩

theorem collect_sound (hn : Sound floats next) {kind : Collection} {start : Position} {k : Nat}
    {acc : List Datum} (h : collect next kind start k acc src = (.ok r, after)) :
    ∃ text items, Items (Denotes floats) text items ∧
      src.rest = text ++ kind.closer :: after.rest ∧
      reduce kind start (acc.reverse ++ items) = .ok r := by
  induction k generalizing acc src with
  | zero => cases h
  | succ k ih =>
    unfold collect at h
    split at h
    · cases h
    · rename_i d src' hnext
      obtain ⟨layout, text, openEnded, hl, hd, hopen, hs⟩ := hn hnext
      obtain ⟨text', items, hitems, hs', hreduce⟩ := ih h
      refine ⟨layout ++ (text ++ text'), d :: items, .cons hl hd ?_ hitems, ?_, ?_⟩
      · intro ho
        have hdel := hopen ho
        rw [hs'] at hdel
        exact hdel.of_append
      · rw [hs, hs']
        simp
      · simpa using hreduce
    · rename_i hnext
      exact (hn hnext).elim
    · rename_i c src' hnext
      obtain ⟨layout, hl, hs⟩ := hn hnext
      split at h
      · rename_i hc
        obtain ⟨hreduce, rfl⟩ := Prod.mk.inj h
        exact ⟨layout, [], .nil hl, by rw [hs, hc], by simpa using hreduce⟩
      · cases h
    · cases h
    · cases h

theorem finds_form {openEnded : Bool} {text : List Char} {d : Datum}
    (hd : Denotes floats openEnded text d) (hopen : openEnded = true → Delimited after.rest)
    (hs : src.rest = text ++ after.rest) : Finds floats src (.form d) after :=
  ⟨[], text, openEnded, .nil, hd, hopen, hs⟩

theorem finds_marked {mark : List Char} {inner : Source} {d e : Datum}
    (hs : src.rest = mark ++ inner.rest) (hinner : Finds floats inner (.form d) after)
    (hrule : ∀ {openEnded layout text}, Layout layout → Denotes floats openEnded text d →
      inner.rest = layout ++ (text ++ after.rest) →
      ∃ whole, Denotes floats openEnded whole e ∧ whole = mark ++ (layout ++ text)) :
    Finds floats src (.form e) after := by
  obtain ⟨layout, text, openEnded, hl, hd, hopen, hs'⟩ := hinner
  obtain ⟨whole, hwhole, rfl⟩ := hrule hl hd hs'
  exact finds_form hwhole hopen (by rw [hs, hs']; simp)

theorem special_iff_ofName (name : String) :
    (∃ form, Symbol.ofName name = .special form) ↔ ∃ form : SpecialForm, form.name = name := by
  unfold Symbol.ofName
  constructor
  · rintro ⟨form, h⟩
    split at h
    · exact ⟨_, SpecialForm.name_of_ofName? ‹_›⟩
    · cases h
  · rintro ⟨form, rfl⟩
    rw [SpecialForm.ofName?_name]
    exact ⟨form, rfl⟩

/-- A symbol is told from its name, if it is special just where its name is. -/
theorem eq_ofName_of_special_iff {s : Symbol}
    (h : (∃ form, s = .special form) ↔ ∃ form : SpecialForm, form.name = s.name) :
    s = .ofName s.name := by
  cases s with
  | special form => simp [Symbol.name, Symbol.ofName, SpecialForm.ofName?_name]
  | plain name =>
    cases hform : SpecialForm.ofName? name with
    | none => simp [Symbol.name, Symbol.ofName, hform]
    | some form =>
      obtain ⟨form', hplain⟩ := h.mpr ⟨form, SpecialForm.name_of_ofName? hform⟩
      cases hplain

theorem denotes_token {text : List Char} (h : Token text) :
    Denotes floats true text (ofToken text) := by
  unfold ofToken
  split
  · rename_i hname
    rw [← String.toList_ofList (l := text), hname]
    exact .nil
  · rename_i hname
    rw [← String.toList_ofList (l := text), hname]
    exact .bool true
  · rename_i hname
    rw [← String.toList_ofList (l := text), hname]
    exact .bool false
  · rename_i hnil htrue hfalse
    refine .symbol h ?_ ?_ ?_ (by rw [Symbol.name_ofName, String.toList_ofList]) ?_
    · rintro rfl; exact hnil String.ofList_toList
    · rintro rfl; exact htrue String.ofList_toList
    · rintro rfl; exact hfalse String.ofList_toList
    · rw [Symbol.name_ofName]
      exact special_iff_ofName _

theorem token_nil : Token "nil".toList := by decide

theorem token_bool (b : Bool) : Token (if b then "true" else "false").toList := by
  cases b <;> decide

theorem denotes_keyword {openEnded : Bool} {layout text : List Char} {start : Position}
    {d e : Datum} (hl : Layout layout) (hd : Denotes floats openEnded text d)
    (hk : keywordOf start d = .ok (.form e)) :
    Denotes floats openEnded (':' :: (layout ++ text)) e := by
  cases hd with
  | nil =>
    cases hk
    exact .keyword hl token_nil
  | bool b =>
    cases hk
    have hkey : Denotes floats true _ (.keyword _) := .keyword hl (token_bool b)
    rw [String.ofList_toList] at hkey
    exact hkey
  | symbol ht _ _ _ hname _ =>
    cases hk
    have hkey : Denotes floats true _ _ := .keyword hl ht
    rw [← hname, String.ofList_toList] at hkey
    rwa [hname] at hkey
  | number hn => cases hn <;> cases hk
  | @string body text hspells =>
    simp only [keywordOf, String.toList_ofList] at hk
    split at hk
    · rename_i hid
      cases hk
      exact .quotedKeyword hl hspells hid
    · cases hk
  | _ => cases hk

theorem form_of_keywordOf {start : Position} {d : Datum} (h : keywordOf start d = .ok r) :
    ∃ e, r = .form e := by
  unfold keywordOf refuseKeyword at h
  split at h
  · cases h; exact ⟨_, rfl⟩
  · split at h
    · cases h; exact ⟨_, rfl⟩
    · cases h
  · cases h; exact ⟨_, rfl⟩
  · cases h; exact ⟨_, rfl⟩
  · cases h

theorem readCharacter_sound (h : readCharacter (.standard floats) src = (.ok r, after)) :
    (∃ first more c, r = .form (.char c) ∧ src.rest = first :: more ++ after.rest ∧
      (∀ d ∈ more, isDelimiter d = false) ∧ CharLiteral (first :: more) c ∧
      Delimited after.rest) ∨ ∃ context pos, r = .truncated context pos := by
  unfold readCharacter Source.next? at h
  cases hrest : src.rest with
  | nil =>
    rw [hrest] at h
    cases h
    exact .inr ⟨_, _, rfl⟩
  | cons first rest =>
    rw [hrest] at h
    dsimp only at h
    split at h
    · rename_i c hdecode
      cases h
      obtain ⟨hfree, hdel⟩ := span_spec floats { src with rest := rest, offset := src.offset + 1 }
      refine .inl ⟨first, _, c, rfl, ?_, hfree, decodeChar?_eq_some_iff.mp hdecode, hdel⟩
      rw [List.cons_append, Source.rest_span]
    · cases h

theorem readString_sound (h : readString src = (.ok r, after)) :
    ∃ body text, r = .form (.string (String.ofList text)) ∧ Quoted.Spells body text ∧
      src.rest = body ++ '"' :: after.rest := by
  unfold readString Quoted.scan at h
  dsimp only at h
  split at h
  · rename_i lit after' hscan
    cases h
    obtain ⟨hlit, rfl⟩ := Prod.mk.inj hscan
    obtain ⟨body, hs, hspells⟩ := Quoted.spells_of_scanFrom
      (Prod.ext hlit (Prod.ext rfl rfl))
    exact ⟨body, lit.text, rfl, hspells, hs⟩
  · cases h

/-- What follows a comment is nothing or a newline. -/
theorem rest_comment (src : Source) :
    ∃ body, src.rest = body ++ (src.span (· != '\n')).2.rest ∧ (∀ c ∈ body, c ≠ '\n') ∧
      ((src.span (· != '\n')).2.rest = [] ∨
        ∃ more, (src.span (· != '\n')).2.rest = '\n' :: more) := by
  obtain ⟨hbody, hstop⟩ := Source.span_spec (· != '\n') src
  refine ⟨_, (Source.rest_span _ src).symm, fun c hc => by simpa using hbody c hc, ?_⟩
  cases hrest : (src.span (· != '\n')).2.rest with
  | nil => exact .inl rfl
  | cons c more =>
    have hc := hstop c (by simp [hrest])
    simp only [bne_eq_false_iff_eq] at hc
    exact .inr ⟨more, by rw [hc]⟩

theorem collection_sound (hn : Sound floats next) (kind : Collection) {start : Position} {k : Nat}
    {inner : Source} (hs : src.rest = kind.opener :: inner.rest)
    (h : collect next kind start k [] inner = (.ok r, after)) : Finds floats src r after := by
  obtain ⟨text, items, hitems, hinner, hreduce⟩ := collect_sound hn h
  have hsrc : src.rest = kind.opener :: (text ++ [kind.closer]) ++ after.rest := by
    rw [hs, hinner]
    simp
  unfold reduce at hreduce
  cases kind with
  | list => cases hreduce; exact finds_form (.list hitems) (by simp) hsrc
  | vector => cases hreduce; exact finds_form (.vector hitems) (by simp) hsrc
  | map =>
    dsimp only at hreduce
    split at hreduce
    · rename_i heven
      cases hreduce
      have hentries := (Entries.literal_iff hitems.fixed).mpr ⟨heven, rfl⟩
      exact finds_form (.map hitems hentries) (by simp) hsrc
    · cases hreduce

theorem wrapped_name (head : SpecialForm) (d : Datum) :
    wrapped head.name d = .ok (.form (.form head [d])) := by
  simp [wrapped, Datum.named, Symbol.ofName, SpecialForm.ofName?_name, Datum.form]

/-- A mark that wraps the form behind it. -/
theorem wrapped_sound (hn : Sound floats next) (mark : List Char) (head : SpecialForm)
    {inner : Source} {context : String} (hs : src.rest = mark ++ inner.rest)
    (h : withOperand next context (wrapped head.name) inner = (.ok r, after))
    (hrule : ∀ {openEnded layout text d}, Layout layout → Denotes floats openEnded text d →
      inner.rest = layout ++ (text ++ after.rest) →
      ∃ whole, Denotes floats openEnded whole (.form head [d]) ∧
        whole = mark ++ (layout ++ text)) :
    Finds floats src r after := by
  rcases withOperand_cases h with ⟨d, hnext, hmake⟩ | ⟨context, pos, rfl⟩
  · rw [wrapped_name] at hmake
    cases hmake
    exact finds_marked hs (hn hnext) fun hl hd hinner => hrule hl hd hinner
  · trivial

/-- A tilde: the character behind it tells the two marks apart. -/
theorem unquote_sound (hn : Sound floats next) {k : Nat} {inner : Source}
    (hs : src.rest = '~' :: inner.rest)
    (h : handle (.standard floats) next k '~' inner .unquote = (.ok r, after)) :
    Finds floats src r after := by
  unfold handle Source.next? at h
  cases hrest : inner.rest with
  | nil =>
    rw [hrest] at h
    refine wrapped_sound hn ['~'] .unquote hs h fun {_ layout text _} hl hd hinner => ?_
    rw [hrest] at hinner
    have hnone : layout ++ text = [] := by simp_all
    exact ⟨_, .unquote hl hd (by simp [hnone]), rfl⟩
  | cons c more =>
    rw [hrest] at h
    by_cases hc : c = '@'
    · subst hc
      have hsplice : src.rest = ['~', '@'] ++ more := by rw [hs, hrest]; rfl
      exact wrapped_sound hn ['~', '@'] .spliceUnquote hsplice h fun hl hd _ =>
        ⟨_, .spliceUnquote hl hd, rfl⟩
    · replace h : withOperand next "~" (wrapped "unquote") inner = (.ok r, after) := by
        simpa [hc] using h
      refine wrapped_sound hn ['~'] .unquote hs h fun {_ layout text _} hl hd hinner => ?_
      refine ⟨_, .unquote hl hd fun hhead => hc ?_, rfl⟩
      rw [hrest, ← List.append_assoc] at hinner
      obtain ⟨tail, htail⟩ := List.head?_eq_some_iff.mp hhead
      rw [htail] at hinner
      exact (List.cons.inj hinner).1

/-- What a handler of the standard table finds, unless there is nothing to show for it. -/
theorem handle_sound (hn : Sound floats next) {c : Char} {k : Nat} {inner : Source}
    {handler : Handler} (ht : ReadTable.standard c = some handler)
    (hs : src.rest = c :: inner.rest)
    (h : handle (.standard floats) next k c inner handler = (.ok r, after)) :
    Finds floats src r after ∨ (r = .skip ∧ (c = '\n' ∧ after.rest = inner.rest ∨
      c = ';' ∧ after = (inner.span (· != '\n')).2)) := by
  unfold ReadTable.standard at ht
  split at ht
  all_goals cases ht
  · exact .inl (collection_sound hn .list hs h)
  · exact .inl (collection_sound hn .vector hs h)
  · exact .inl (collection_sound hn .map hs h)
  · cases h; exact .inl ⟨[], .nil, hs⟩
  · cases h; exact .inl ⟨[], .nil, hs⟩
  · cases h; exact .inl ⟨[], .nil, hs⟩
  · exact .inl (wrapped_sound hn ['\x27'] .quote hs h fun hl hd _ => ⟨_, .quote hl hd, rfl⟩)
  · exact .inl (wrapped_sound hn ['\x60'] .quasiquote hs h fun hl hd _ =>
      ⟨_, .quasiquote hl hd, rfl⟩)
  · exact .inl (unquote_sound hn hs h)
  · rcases withOperand_cases h with ⟨d, hnext, hmake⟩ | ⟨context, pos, rfl⟩
    · obtain ⟨e, rfl⟩ := form_of_keywordOf hmake
      have hmark : src.rest = [':'] ++ inner.rest := hs
      exact .inl (finds_marked hmark (hn hnext) fun hl hd _ =>
        ⟨_, denotes_keyword hl hd hmake, rfl⟩)
    · exact .inl trivial
  · rcases readCharacter_sound h with ⟨first, more, d, rfl, hrest, hfree, hlit, hdel⟩ | ⟨_, _, rfl⟩
    · refine .inl (finds_form (.character hfree hlit) (fun _ => hdel) ?_)
      rw [hs, hrest]
      rfl
    · exact .inl trivial
  · obtain ⟨body, text, rfl, hspells, hrest⟩ := readString_sound h
    refine .inl (finds_form (.string hspells) (by simp) ?_)
    rw [hs, hrest]
    simp
  · cases h; exact .inr ⟨rfl, .inr ⟨rfl, rfl⟩⟩
  · cases h; exact .inr ⟨rfl, .inl ⟨rfl, rfl⟩⟩

theorem readToken_sound {c : Char} {inner : Source} (hs : src.rest = c :: inner.rest)
    (hfree : isDelimiter c = false) (hstart : Text.startsNumber c inner.peek? = false)
    (h : readToken (.standard floats) c inner = (.ok r, after)) : Finds floats src r after := by
  unfold readToken at h
  obtain ⟨htaken, hdel⟩ := span_spec floats inner
  have hrest := Source.rest_span (fun c => !(Dialect.standard floats).endsToken c) inner
  generalize inner.span (fun c => !(Dialect.standard floats).endsToken c) = taken at *
  obtain ⟨more, behind⟩ := taken
  cases h
  refine finds_form (denotes_token ⟨by simp, ?_, ?_⟩) (fun _ => hdel)
    (by rw [hs, List.cons_append, hrest])
  · rintro d (_ | ⟨_, hd⟩)
    · exact hfree
    · exact htaken d hd
  · rintro first rest heq
    cases heq
    cases hmore : more with
    | cons d tail =>
      rw [Source.peek?, ← hrest, hmore] at hstart
      exact hstart
    | nil =>
      simp only [Text.startsNumber, Bool.or_eq_false_iff] at hstart
      simp [Text.startsNumber, hstart.1]

/-! The end of the text is found by the loop alone, never by a handler. -/

theorem reduce_ne_eof (kind : Collection) (start : Position) (items : List Datum) :
    reduce kind start items ≠ .ok .eof := by
  unfold reduce
  split
  · simp
  · simp
  · split <;> simp

theorem collect_ne_eof {kind : Collection} {start : Position} {k : Nat} {acc : List Datum} :
    collect next kind start k acc src ≠ (.ok .eof, after) := by
  induction k generalizing acc src with
  | zero => simp [collect]
  | succ k ih =>
    unfold collect
    split
    · simp
    · exact ih
    · exact ih
    · split
      · intro h
        exact reduce_ne_eof _ _ _ (Prod.mk.inj h).1
      · simp
    · simp
    · simp

theorem withOperand_ne_eof {context : String} {make : Datum → Except Error Reading}
    (hmake : ∀ d, make d ≠ .ok .eof) : withOperand next context make src ≠ (.ok .eof, after) := by
  intro h
  rcases withOperand_cases h with ⟨d, _, hd⟩ | ⟨_, _, hr⟩
  · exact hmake d hd
  · cases hr

theorem handle_ne_eof {dialect : Dialect} {k : Nat} {c : Char} (handler : Handler) :
    handle dialect next k c src handler ≠ (.ok .eof, after) := by
  have hwrapped : ∀ (head : String) (d : Datum), wrapped head d ≠ .ok .eof := by simp [wrapped]
  cases handler with
  | collect kind => exact collect_ne_eof
  | wrap head => exact withOperand_ne_eof (hwrapped head)
  | unquote =>
    dsimp only [handle]
    split
    · exact withOperand_ne_eof (hwrapped _)
    · exact withOperand_ne_eof (hwrapped _)
  | keyword =>
    apply withOperand_ne_eof
    intro d hd
    obtain ⟨e, he⟩ := form_of_keywordOf hd
    cases he
  | character =>
    dsimp only [handle, readCharacter]
    split
    · simp
    · split <;> simp
  | string =>
    dsimp only [handle, readString]
    split <;> simp
  | discard =>
    apply withOperand_ne_eof
    simp
  | _ => simp [handle]

theorem standard_none_iff {c : Char} : ReadTable.standard c = none ↔
    ReadTable.standardChars.contains c = false := by
  rw [← isBound_standard, Option.isSome_eq_false_iff, Option.isNone_iff_eq_none]

theorem formWithin_nil (bound offset line : Nat) :
    formWithin (.standard floats) bound ⟨[], offset, line⟩ = (.ok .eof, ⟨[], offset, line⟩) := by
  cases bound <;> rfl

theorem formWithin_newline (bound : Nat) (more : List Char) (offset line : Nat) :
    formWithin (.standard floats) (bound + 1) ⟨'\n' :: more, offset, line⟩ =
      formWithin (.standard floats) bound ⟨more, offset + 1, line + 1⟩ := rfl

theorem standard_of_blank {c : Char} (hc : Text.isBlank c = true) (hn : c ≠ '\n') :
    ReadTable.standard c = none := by
  unfold ReadTable.standard
  split <;> first | rfl | exact absurd rfl hn | exact absurd hc (by decide)

theorem formWithin_blank {c : Char} (hc : Text.isBlank c = true) (floats : Bool) (bound : Nat)
    (more : List Char) (offset line : Nat) :
    ∃ line', formWithin (.standard floats) (bound + 1) ⟨c :: more, offset, line⟩ =
      formWithin (.standard floats) bound ⟨more, offset + 1, line'⟩ := by
  by_cases hn : c = '\n'
  · subst hn
    exact ⟨line + 1, formWithin_newline bound more offset line⟩
  · have hfree := standard_of_blank hc hn
    exact ⟨line, by simp [formWithin, Source.next?, Dialect.standard, hfree, hc]⟩

theorem span_comment {body rest : List Char} (hbody : ∀ c ∈ body, c ≠ '\n')
    (hrest : rest = [] ∨ ∃ more, rest = '\n' :: more) (offset line : Nat) :
    Source.span (· != '\n') ⟨body ++ rest, offset, line⟩ =
      (body, ⟨rest, offset + body.length, line⟩) := by
  apply Source.span_append
  · intro c hc
    simpa using hbody c hc
  · intro c hc
    rcases hrest with rfl | ⟨more, rfl⟩
    · cases hc
    · cases hc; rfl

theorem formWithin_comment {body rest : List Char} (hbody : ∀ c ∈ body, c ≠ '\n')
    (hrest : rest = [] ∨ ∃ more, rest = '\n' :: more) (bound offset line : Nat) :
    formWithin (.standard floats) (bound + 1) ⟨';' :: (body ++ rest), offset, line⟩ =
      formWithin (.standard floats) bound ⟨rest, offset + 1 + body.length, line⟩ := by
  simp [formWithin, Source.next?, Dialect.standard, ReadTable.standard, handle,
    span_comment hbody hrest]

/-- A character that is neither blank nor begins a comment begins what is found; there is
something to find. -/
theorem dispatch_sound {bound : Nat} (hn : Sound floats (formWithin (.standard floats) bound))
    {c : Char} {inner : List Char} {offset line : Nat} (hblank : Text.isBlank c = false)
    (hcomment : c ≠ ';')
    (h : formWithin (.standard floats) (bound + 1) ⟨c :: inner, offset, line⟩ = (.ok r, after)) :
    Finds floats ⟨c :: inner, offset, line⟩ r after ∧ r ≠ .eof := by
  rw [formWithin] at h
  simp only [Source.next?, Dialect.standard] at h
  cases ht : ReadTable.standard c with
  | some handler =>
    rw [ht] at h
    dsimp only at h
    have hfinds : ∀ {r after}, handle (.standard floats) (formWithin (.standard floats) bound) bound
        c ⟨inner, offset + 1, line⟩ handler = (.ok r, after) →
        Finds floats ⟨c :: inner, offset, line⟩ r after ∧ r ≠ .eof := by
      intro r after hhandle
      refine ⟨?_, fun hr => handle_ne_eof handler (hr ▸ hhandle)⟩
      have hs : Source.rest ⟨c :: inner, offset, line⟩ = c :: inner := rfl
      rcases handle_sound hn ht hs hhandle with hfinds | ⟨_, ⟨rfl, _⟩ | ⟨rfl, _⟩⟩
      · exact hfinds
      · exact absurd hblank (by decide)
      · exact absurd rfl hcomment
    split at h
    · rename_i after' hskip
      exact (hfinds hskip).1.elim
    · exact hfinds h
  | none =>
    rw [ht] at h
    simp only [hblank, Bool.false_eq_true, if_false] at h
    have hfree : isDelimiter c = false := by
      rw [isDelimiter, hblank, standard_none_iff.mp ht]
      rfl
    split at h
    · rename_i hstart
      unfold readNumeral at h
      split at h
      · rename_i n after' hscan
        cases h
        obtain ⟨run, hrun, hends, hspelled⟩ :=
          Numeral.scan_sound (proper_standard floats) hstart hscan
        have hliteral := Numeral.literal_of_spelled hspelled
        refine ⟨finds_form (.number hliteral) (fun _ d hd => ?_) ?_, by simp⟩
        · rw [← endsToken_standard floats]
          exact hends d hd
        · rw [List.cons_append, ← hrun]
      · cases h
    · rename_i hstart
      refine ⟨readToken_sound rfl hfree (by simpa using hstart) h, ?_⟩
      cases h
      simp

/-- The dispatch loop finds what the grammar says. -/
theorem formWithin_sound (floats : Bool) (bound : Nat) :
    Sound floats (formWithin (.standard floats) bound) := by
  induction bound using Nat.strongRecOn with
  | ind bound ih =>
    rintro ⟨rest, offset, line⟩ r after h
    match bound, rest, h with
    | 0, _, h => cases h; trivial
    | bound + 1, [], h => cases h; trivial
    | bound + 1, c :: inner, h =>
      have hn : Sound floats (formWithin (.standard floats) bound) := ih bound (by omega)
      by_cases hblank : Text.isBlank c = true
      · obtain ⟨line', hstep⟩ := formWithin_blank hblank floats bound inner offset line
        exact (hn (hstep.symm.trans h)).behind (.blank hblank .nil) rfl
      by_cases hcomment : c = ';'
      · subst hcomment
        obtain ⟨body, hinner, hbody, hrest⟩ := rest_comment ⟨inner, offset, line⟩
        generalize (Source.span (· != '\n') ⟨inner, offset, line⟩).2.rest = rest at hinner hrest
        subst hinner
        rw [formWithin_comment hbody hrest] at h
        -- the newline that ends the comment is passed over in the next step
        match bound, rest, hrest with
        | bound, [], _ =>
          rw [formWithin_nil] at h
          cases h
          trivial
        | 0, _, _ => cases h; trivial
        | bound + 1, d :: more, hrest =>
          obtain rfl : d = '\n' := by simpa using hrest
          rw [formWithin_newline] at h
          exact (ih bound (by omega) h).behind (.comment hbody .nil) (by simp)
      · exact (dispatch_sound hn (by simpa using hblank) hcomment h).1

/-- Where no datum is found, a newline at the end makes the text layout: it may end in a comment. -/
theorem layout_of_eof {bound : Nat} (hb : src.rest.length < bound)
    (h : formWithin (.standard floats) bound src = (.ok .eof, after)) :
    Layout (src.rest ++ ['\n']) := by
  induction bound generalizing src with
  | zero => cases hb
  | succ bound ih =>
    obtain ⟨rest, offset, line⟩ := src
    cases rest with
    | nil => exact .blank (by decide) .nil
    | cons c inner =>
      simp only [List.length_cons, Nat.add_lt_add_iff_right] at hb
      by_cases hblank : Text.isBlank c = true
      · obtain ⟨line', hstep⟩ := formWithin_blank hblank floats bound inner offset line
        exact .blank hblank (ih hb (hstep.symm.trans h))
      by_cases hcomment : c = ';'
      · subst hcomment
        obtain ⟨body, hinner, hbody, hrest⟩ := rest_comment ⟨inner, offset, line⟩
        generalize (Source.span (· != '\n') ⟨inner, offset, line⟩).2.rest = rest at hinner hrest
        subst hinner
        rw [formWithin_comment hbody hrest] at h
        have hlayout := ih (by simp only [List.length_append] at hb ⊢; omega) h
        rcases hrest with rfl | ⟨more, rfl⟩
        · simpa using Layout.comment hbody .nil
        · cases hlayout with
          | blank _ hmore =>
            have hcomment := Layout.comment hbody hmore
            simpa using hcomment
      · have hsound := formWithin_sound floats bound
        exact absurd rfl (dispatch_sound hsound (by simpa using hblank) hcomment h).2

end

end TableLisp.Reader

import TableLisp.Proofs.Text.Literals

/-! Number literals. `Spelled` says which texts are literals and what number each denotes; the scan
finds a number exactly where such a text stands in front of a delimiter or the end. -/

namespace TableLisp.Numeral

open Text (isDecimal isDigitOf ofDigits Positional positional_ofDigits)

/-- The suffix that asks for an unbounded integer. -/
def suffixText (wide : Bool) : List Char := if wide then ['n'] else []

def signed (negative : Bool) (n : Nat) : Int := if negative then -(n : Int) else n

/-- An integer literal of the given value, with or without the suffix. -/
def ofValue (wide : Bool) (value : Int) : Numeral := if wide then .big value else ofInt value

/-- The float nearest to `digits * 10 ^ scale`, with the given sign. -/
def ofFloat (negative : Bool) (digits : List Char) (scale : Int) : Numeral :=
  let x := Binary64.ofDecimal (ofDigits 10 digits) scale
  .float (if negative then x.neg else x)

/-- A point with digits, or nothing; and those digits. -/
inductive Fraction : List Char → List Char → Prop where
  | absent : Fraction [] []
  | present {digits : List Char} : (∀ c ∈ digits, isDecimal c = true) →
      Fraction ('.' :: digits) digits

/-- An exponent, or nothing; and the power of ten that it stands for. -/
inductive Exponent : List Char → Int → Prop where
  | absent : Exponent [] 0
  | unsigned {e : Char} {digits : List Char} {n : Nat} : e = 'e' ∨ e = 'E' → digits ≠ [] →
      Positional 10 digits n → Exponent (e :: digits) n
  | plus {e : Char} {digits : List Char} {n : Nat} : e = 'e' ∨ e = 'E' → digits ≠ [] →
      Positional 10 digits n → Exponent (e :: '+' :: digits) n
  | minus {e : Char} {digits : List Char} {n : Nat} : e = 'e' ∨ e = 'E' → digits ≠ [] →
      Positional 10 digits n → Exponent (e :: '-' :: digits) (-(n : Int))

/-- Literals without their sign, and the numbers that they denote with it; `floats` says that plain
integers are floats. A zero before other digits makes them octal, if they can be. -/
inductive Unsigned (floats negative : Bool) : List Char → Numeral → Prop where
  | radix {marker : Char} {radix : Nat} {digits : List Char} (wide : Bool) :
      radixOf? marker = some radix → digits ≠ [] → (∀ c ∈ digits, isDigitOf radix c = true) →
      Unsigned floats negative ('0' :: marker :: (digits ++ suffixText wide))
        (ofValue wide (signed negative (ofDigits radix digits)))
  | octal {digits : List Char} (wide : Bool) : digits ≠ [] →
      (∀ c ∈ digits, isDigitOf 8 c = true) →
      Unsigned floats negative ('0' :: (digits ++ suffixText wide))
        (ofValue wide (signed negative (ofDigits 8 digits)))
  | padded {digits : List Char} (wide : Bool) : (∀ c ∈ digits, isDecimal c = true) →
      (∃ c ∈ digits, isDigitOf 8 c = false) →
      Unsigned floats negative ('0' :: (digits ++ suffixText wide))
        (ofValue wide (signed negative (ofDigits 10 digits)))
  | decimal {first : Char} {more : List Char} (wide : Bool) : isDecimal first = true →
      (∀ c ∈ more, isDecimal c = true) → (first = '0' → more = []) →
      Unsigned floats negative (first :: (more ++ suffixText wide))
        (if floats && !wide then ofFloat negative (first :: more) 0
          else ofValue wide (signed negative (ofDigits 10 (first :: more))))
  | floating {whole fraction digits exponent : List Char} {power : Int} : whole ≠ [] →
      (∀ c ∈ whole, isDecimal c = true) → Fraction fraction digits → Exponent exponent power →
      fraction ++ exponent ≠ [] →
      Unsigned floats negative (whole ++ (fraction ++ exponent))
        (ofFloat negative (whole ++ digits) (power - digits.length))

/-- Number literals and the numbers that they denote. -/
inductive Spelled (floats : Bool) : List Char → Numeral → Prop where
  | unsigned {text : List Char} {n : Numeral} : Unsigned floats false text n → Spelled floats text n
  | plus {text : List Char} {n : Numeral} : Unsigned floats false text n →
      Spelled floats ('+' :: text) n
  | minus {text : List Char} {n : Numeral} : Unsigned floats true text n →
      Spelled floats ('-' :: text) n

/-- Nothing follows, or a blank or bound character. -/
def Rules.Ends (rules : Rules) (rest : List Char) : Prop :=
  ∀ c, rest.head? = some c → (Text.isBlank c || rules.bound c) = true

/-- No character that ends a literal can go on in one. -/
def Rules.Proper (rules : Rules) : Prop :=
  ∀ c, (Text.isBlank c || rules.bound c) = true →
    Text.hexValue? c = none ∧ c ≠ '.' ∧ c ≠ 'n' ∧ radixOf? c = none

section

variable {whole fraction digits exponent : List Char} {power : Int}

theorem ofDigits?_eq_some {radix : Nat} (hne : digits ≠ [])
    (hd : ∀ c ∈ digits, isDigitOf radix c = true) :
    Text.ofDigits? radix digits = some (ofDigits radix digits) := by
  have hempty : digits.isEmpty = false := by simpa using hne
  simp [Text.ofDigits?, hempty, List.all_eq_true.mpr hd]

theorem ofDigits?_of_positional {radix n : Nat} (hne : digits ≠ []) (h : Positional radix digits n) :
    Text.ofDigits? radix digits = some n := by
  rw [ofDigits?_eq_some hne h.isDigitOf, h.ofDigits_eq]

theorem Exponent.head (he : Exponent exponent power) :
    ∀ c, exponent.head? = some c → c = 'e' ∨ c = 'E' := by
  intro c hc
  cases he with
  | absent => cases hc
  | unsigned h _ _ => cases hc; exact h
  | plus h _ _ => cases hc; exact h
  | minus h _ _ => cases hc; exact h

theorem Exponent.not_decimal (he : Exponent exponent power) :
    ∀ c, exponent.head? = some c → isDecimal c = false := by
  intro c hc
  rcases he.head c hc with rfl | rfl <;> decide

theorem Fraction.decimal_digits (hf : Fraction fraction digits) :
    ∀ c ∈ digits, isDecimal c = true := by
  cases hf with
  | absent => simp
  | present hd => exact hd

theorem Fraction.not_decimal (hf : Fraction fraction digits) (he : Exponent exponent power) :
    ∀ c, (fraction ++ exponent).head? = some c → isDecimal c = false := by
  cases hf with
  | present _ => intro c hc; cases hc; decide
  | absent => exact he.not_decimal

theorem power?_eq_some (he : Exponent exponent power) : Decimal.power? exponent = some power := by
  cases he with
  | absent => rfl
  | @unsigned e digits n h hne hd =>
    simp only [Decimal.power?, h, if_true]
    split
    · exact absurd (hd.isDigitOf '-' (by simp)) (by decide)
    · exact absurd (hd.isDigitOf '+' (by simp)) (by decide)
    · simp [ofDigits?_of_positional hne hd]
  | plus h hne hd => simp [Decimal.power?, h, ofDigits?_of_positional hne hd]
  | minus h hne hd => simp [Decimal.power?, h, ofDigits?_of_positional hne hd]

theorem splitFraction_eq (hf : Fraction fraction digits) (he : Exponent exponent power) :
    Decimal.splitFraction (fraction ++ exponent) = (digits, exponent) := by
  cases hf with
  | present hd =>
    obtain ⟨htake, hdrop⟩ := takeWhile_run hd he.not_decimal
    simp [Decimal.splitFraction, htake, hdrop]
  | absent =>
    rw [List.nil_append]
    unfold Decimal.splitFraction
    split
    · rcases he.head '.' rfl with h | h <;> cases h
    · rfl

theorem read?_eq_some (hw : whole ≠ []) (hd : ∀ c ∈ whole, isDecimal c = true)
    (hf : Fraction fraction digits) (he : Exponent exponent power) :
    Decimal.read? (whole ++ (fraction ++ exponent)) =
      some (.ofDecimal (ofDigits 10 (whole ++ digits)) (power - digits.length)) := by
  obtain ⟨htake, hdrop⟩ := takeWhile_run hd (hf.not_decimal he)
  simp [Decimal.read?, htake, hdrop, splitFraction_eq hf he, power?_eq_some he, hw]

end

namespace Scan

variable {s s' s'' : Scan} {p : Char → Bool} {c : Char} {run more rest : List Char} {wide : Bool}

/-- The scan went on over `run`. -/
structure Moved (s : Scan) (run : List Char) (s' : Scan) : Prop where
  rest : s.src.rest = run ++ s'.src.rest
  offset : s'.src.offset = s.src.offset + run.length
  line : s'.src.line = s.src.line

theorem Moved.refl (s : Scan) : s.Moved [] s := ⟨rfl, rfl, rfl⟩

theorem Moved.trans (h : s.Moved run s') (h' : s'.Moved more s'') : s.Moved (run ++ more) s'' where
  rest := by rw [h.rest, h'.rest, List.append_assoc]
  offset := by rw [h'.offset, h.offset, List.length_append, Nat.add_assoc]
  line := h'.line.trans h.line

theorem Moved.behind (h : s.Moved run s') (hs : s.src.rest = run ++ rest) : s'.src.rest = rest :=
  List.append_cancel_left (h.rest.symm.trans hs)

theorem Moved.src_eq (h : s.Moved run s') {offset line : Nat}
    (hs : s.src = ⟨run ++ rest, offset, line⟩) :
    s'.src = ⟨rest, offset + run.length, line⟩ := by
  have hrest : s'.src.rest = rest := h.behind (by rw [hs])
  have hoffset := h.offset
  have hline := h.line
  rw [hs] at hoffset hline
  cases hsrc : s'.src
  simp_all

theorem accept?_cons (hs : s.src.rest = c :: rest) (hc : p c = true) :
    ∃ s', s.accept? p = some (c, s') ∧ s.Moved [c] s' := by
  refine ⟨⟨s.lexeme ++ [c], { s.src with rest := rest, offset := s.src.offset + 1 }⟩, ?_, ?_⟩
  · simp [accept?, Source.next?, hs, hc]
  · exact ⟨hs, rfl, rfl⟩

theorem accept?_none (hs : ∀ c, s.src.rest.head? = some c → p c = false) :
    s.accept? p = none := by
  unfold accept? Source.next?
  cases hrest : s.src.rest with
  | nil => rfl
  | cons c more => simp [hs c (by simp [hrest])]

theorem accept?_some (h : s.accept? p = some (c, s')) : s.Moved [c] s' ∧ p c = true := by
  unfold accept? Source.next? at h
  cases hrest : s.src.rest with
  | nil => simp [hrest] at h
  | cons d more =>
    simp only [hrest] at h
    split at h
    · rename_i hp
      cases h
      exact ⟨⟨hrest, rfl, rfl⟩, hp⟩
    · cases h

theorem not_of_accept?_none (h : s.accept? p = none) :
    ∀ c, s.src.rest.head? = some c → p c = false := by
  intro c hc
  cases hp : p c with
  | false => rfl
  | true =>
    obtain ⟨more, hrest⟩ := List.head?_eq_some_iff.mp hc
    obtain ⟨s', hs', _⟩ := accept?_cons hrest hp
    rw [h] at hs'
    cases hs'

theorem take_run (hs : s.src.rest = run ++ rest) (hrun : ∀ c ∈ run, p c = true)
    (hrest : ∀ c, rest.head? = some c → p c = false) :
    ∃ s', s.take p = (run, s') ∧ s.Moved run s' := by
  obtain ⟨lexeme, text, offset, line⟩ := s
  subst hs
  refine ⟨⟨lexeme ++ run, ⟨rest, offset + run.length, line⟩⟩, ?_, ⟨rfl, rfl, rfl⟩⟩
  simp only [take, Source.span_append hrun hrest]

theorem take_spec (p : Char → Bool) (s : Scan) :
    s.Moved (s.take p).1 (s.take p).2 ∧ (∀ c ∈ (s.take p).1, p c = true) ∧
      ∀ c, (s.take p).2.src.rest.head? = some c → p c = false :=
  ⟨⟨(Source.rest_span p s.src).symm, rfl, rfl⟩, Source.span_spec p s.src⟩

theorem suffix_eq (hs : s.src.rest = suffixText wide ++ rest) (hrest : rest.head? ≠ some 'n') :
    ∃ s', s.suffix = (wide, s') ∧ s.Moved (suffixText wide) s' := by
  cases wide with
  | true =>
    obtain ⟨s', hs', hm⟩ := accept?_cons (p := (· == 'n')) hs (by decide)
    exact ⟨s', by simp [suffix, hs'], hm⟩
  | false =>
    have hnone : s.accept? (· == 'n') = none := by
      apply accept?_none
      rw [show s.src.rest = rest from hs]
      rintro c hc
      by_cases hn : c = 'n'
      · exact absurd (hn ▸ hc) hrest
      · simpa using hn
    exact ⟨s, by simp [suffix, hnone], .refl s⟩

theorem suffix_spec (s : Scan) : s.Moved (suffixText s.suffix.1) s.suffix.2 := by
  unfold suffix
  split
  · rename_i c s' h
    obtain ⟨hm, hc⟩ := accept?_some h
    rw [beq_iff_eq.mp hc] at hm
    exact hm
  · exact .refl s

theorem stop_eq_ok_iff {rules : Rules} :
    s.stop rules.bound = .ok () ↔ rules.Ends s.src.rest := by
  constructor
  · intro h c hc
    unfold stop at h
    split at h
    · cases h
    · rename_i hnone
      have hnot := not_of_accept?_none hnone c hc
      cases hb : Text.isBlank c || rules.bound c with
      | true => rfl
      | false => simp [hb] at hnot
  · intro h
    have hnone : s.accept? (fun c => !(Text.isBlank c || rules.bound c)) = none :=
      accept?_none fun c hc => by simp [h c hc]
    unfold stop
    rw [hnone]

end Scan

section

variable {rules : Rules} {s s' : Scan} {negative : Bool} {n : Numeral} {radix : Nat}
variable {digits whole rest : List Char}

theorem integer_eq_ok (hne : digits ≠ []) (hd : ∀ c ∈ digits, isDigitOf radix c = true)
    {wide : Bool} :
    integer digits radix negative wide s =
      .ok (ofValue wide (signed negative (ofDigits radix digits)), s) := by
  simp only [integer, ofDigits?_eq_some hne hd]
  rfl

theorem scanEnd_sound {answer : Bool → Scan → Answer} (h : scanEnd rules answer s = .ok (n, s')) :
    ∃ wide s₁, s.Moved (suffixText wide) s₁ ∧ rules.Ends s₁.src.rest ∧
      answer wide s₁ = .ok (n, s') := by
  unfold scanEnd at h
  dsimp only at h
  split at h
  · cases h
  · rename_i hstop
    exact ⟨s.suffix.1, s.suffix.2, s.suffix_spec, Scan.stop_eq_ok_iff.mp hstop, h⟩

theorem scanEnd_complete (answer : Bool → Scan → Answer) {wide : Bool} (hp : rules.Proper)
    (hs : s.src.rest = suffixText wide ++ rest) (hr : rules.Ends rest) :
    ∃ s₁, scanEnd rules answer s = answer wide s₁ ∧ s.Moved (suffixText wide) s₁ := by
  have hn : rest.head? ≠ some 'n' := fun h => (hp 'n' (hr 'n' h)).2.2.1 rfl
  obtain ⟨s₁, hsuffix, hm⟩ := Scan.suffix_eq hs hn
  have hstop : s₁.stop rules.bound = .ok () := by
    rw [Scan.stop_eq_ok_iff, hm.behind hs]
    exact hr
  exact ⟨s₁, by simp only [scanEnd, hsuffix, hstop], hm⟩

theorem scanRadix_sound (h : scanRadix rules radix negative s = .ok (n, s')) :
    ∃ digits wide, s.Moved (digits ++ suffixText wide) s' ∧ rules.Ends s'.src.rest ∧
      digits ≠ [] ∧ (∀ c ∈ digits, isDigitOf radix c = true) ∧
      n = ofValue wide (signed negative (ofDigits radix digits)) := by
  unfold scanRadix at h
  obtain ⟨hm, hd, _⟩ := s.take_spec (isDigitOf radix)
  dsimp only at h
  split at h
  · cases h
  · rename_i hne
    have hne' : (s.take (isDigitOf radix)).1 ≠ [] := by simpa using hne
    obtain ⟨wide, s₁, hm₁, hends, hint⟩ := scanEnd_sound h
    rw [integer_eq_ok hne' hd] at hint
    cases hint
    exact ⟨_, wide, hm.trans hm₁, hends, hne', hd, rfl⟩

theorem Rules.Proper.not_digit (hp : rules.Proper) (hr : rules.Ends rest) :
    ∀ c, rest.head? = some c → isDigitOf radix c = false := by
  intro c hc
  simp [isDigitOf, Text.digitValue?, (hp c (hr c hc)).1]

theorem Rules.Proper.not_digit_suffix (hp : rules.Proper) (hr : rules.Ends rest) (wide : Bool) :
    ∀ c, (suffixText wide ++ rest).head? = some c → isDigitOf radix c = false := by
  cases wide with
  | true =>
    have hn : Text.hexValue? 'n' = none := rfl
    intro c hc
    cases hc
    simp [isDigitOf, Text.digitValue?, hn]
  | false => exact hp.not_digit hr

theorem scanRadix_complete {wide : Bool} (hp : rules.Proper)
    (hs : s.src.rest = digits ++ suffixText wide ++ rest) (hr : rules.Ends rest)
    (hne : digits ≠ []) (hd : ∀ c ∈ digits, isDigitOf radix c = true) :
    ∃ s', scanRadix rules radix negative s =
        .ok (ofValue wide (signed negative (ofDigits radix digits)), s') ∧
      s.Moved (digits ++ suffixText wide) s' := by
  rw [List.append_assoc] at hs
  obtain ⟨s₁, htake, hm₁⟩ := Scan.take_run hs hd (hp.not_digit_suffix hr wide)
  obtain ⟨s₂, hend, hm₂⟩ := scanEnd_complete (integer digits radix negative) hp (hm₁.behind hs) hr
  refine ⟨s₂, ?_, hm₁.trans hm₂⟩
  have hempty : digits.isEmpty = false := by simpa using hne
  simp only [scanRadix, htake, hempty, hend, integer_eq_ok hne hd]
  rfl

theorem scanPoint_spec (s : Scan) :
    ∃ digits, Fraction (scanPoint s).1 digits ∧ s.Moved (scanPoint s).1 (scanPoint s).2 := by
  unfold scanPoint
  split
  · exact ⟨[], .absent, .refl s⟩
  · rename_i c s₁ h
    obtain ⟨hm, hc⟩ := Scan.accept?_some h
    obtain ⟨hm₁, hd, _⟩ := s₁.take_spec isDecimal
    rw [beq_iff_eq.mp hc] at hm
    exact ⟨_, .present hd, hm.trans hm₁⟩

theorem scanPoint_eq {fraction : List Char} (hf : Fraction fraction digits)
    (hs : s.src.rest = fraction ++ rest)
    (hrest : ∀ c, rest.head? = some c → isDecimal c = false ∧ c ≠ '.') :
    ∃ s', scanPoint s = (fraction, s') ∧ s.Moved fraction s' := by
  cases hf with
  | absent =>
    have hnone : s.accept? (· == '.') = none := by
      apply Scan.accept?_none
      rw [hs]
      intro c hc
      simpa using (hrest c hc).2
    exact ⟨s, by simp [scanPoint, hnone], .refl s⟩
  | present hd =>
    obtain ⟨s₁, haccept, hm₁⟩ := Scan.accept?_cons (p := (· == '.')) hs (by decide)
    obtain ⟨s₂, htake, hm₂⟩ := Scan.take_run (hm₁.behind hs) hd fun c hc => (hrest c hc).1
    exact ⟨s₂, by simp [scanPoint, haccept, htake], hm₁.trans hm₂⟩

theorem scanSign_spec (s : Scan) :
    ((scanSign s).1 = [] ∨ (scanSign s).1 = ['+'] ∨ (scanSign s).1 = ['-']) ∧
      s.Moved (scanSign s).1 (scanSign s).2 := by
  unfold scanSign
  split
  · rename_i c s₁ h
    obtain ⟨hm, hc⟩ := Scan.accept?_some h
    simp only [Bool.or_eq_true, beq_iff_eq] at hc
    rcases hc with rfl | rfl
    · exact ⟨.inr (.inl rfl), hm⟩
    · exact ⟨.inr (.inr rfl), hm⟩
  · exact ⟨.inl rfl, .refl s⟩

theorem scanExponent_sound {exponent : List Char} (h : scanExponent s = .ok (exponent, s')) :
    ∃ power, Exponent exponent power ∧ s.Moved exponent s' := by
  unfold scanExponent at h
  split at h
  · cases h; exact ⟨0, .absent, .refl s⟩
  · rename_i e s₁ haccept
    obtain ⟨hm₁, he⟩ := Scan.accept?_some haccept
    obtain ⟨hsign, hm₂⟩ := scanSign_spec s₁
    obtain ⟨hm₃, hd, _⟩ := (scanSign s₁).2.take_spec isDecimal
    simp only [Bool.or_eq_true, beq_iff_eq] at he
    dsimp only at h
    split at h
    · cases h
    · rename_i hne
      cases h
      have hne' : ((scanSign s₁).2.take isDecimal).1 ≠ [] := by simpa using hne
      have hm := hm₁.trans (hm₂.trans hm₃)
      rcases hsign with hsign | hsign | hsign
      · rw [hsign] at hm ⊢
        exact ⟨_, .unsigned he hne' (positional_ofDigits hd), hm⟩
      · rw [hsign] at hm ⊢
        exact ⟨_, .plus he hne' (positional_ofDigits hd), hm⟩
      · rw [hsign] at hm ⊢
        exact ⟨_, .minus he hne' (positional_ofDigits hd), hm⟩

theorem scanSign_eq {sign : List Char} (hsign : sign = [] ∨ sign = ['+'] ∨ sign = ['-'])
    (hs : s.src.rest = sign ++ rest) (hrest : ∀ c, rest.head? = some c → isDecimal c = true) :
    ∃ s', scanSign s = (sign, s') ∧ s.Moved sign s' := by
  rcases hsign with rfl | rfl | rfl
  · have hnone : s.accept? (fun c => c == '+' || c == '-') = none := by
      apply Scan.accept?_none
      rw [hs]
      intro c hc
      have hdecimal := hrest c hc
      by_cases hplus : c = '+'
      · subst hplus; exact absurd hdecimal (by decide)
      · by_cases hminus : c = '-'
        · subst hminus; exact absurd hdecimal (by decide)
        · simp [hplus, hminus]
    exact ⟨s, by unfold scanSign; rw [hnone], .refl s⟩
  · obtain ⟨s', haccept, hm⟩ := Scan.accept?_cons (p := fun c => c == '+' || c == '-') hs
      (by decide)
    exact ⟨s', by unfold scanSign; rw [haccept], hm⟩
  · obtain ⟨s', haccept, hm⟩ := Scan.accept?_cons (p := fun c => c == '+' || c == '-') hs
      (by decide)
    exact ⟨s', by unfold scanSign; rw [haccept], hm⟩

theorem scanExponent_complete {exponent : List Char} {power : Int} (he : Exponent exponent power)
    (hs : s.src.rest = exponent ++ rest)
    (hrest : ∀ c, rest.head? = some c → isDecimal c = false ∧ c ≠ 'e' ∧ c ≠ 'E') :
    ∃ s', scanExponent s = .ok (exponent, s') ∧ s.Moved exponent s' := by
  have present : ∀ {e : Char} {sign digits : List Char}, e = 'e' ∨ e = 'E' →
      (sign = [] ∨ sign = ['+'] ∨ sign = ['-']) → digits ≠ [] →
      (∀ c ∈ digits, isDecimal c = true) → s.src.rest = e :: (sign ++ (digits ++ rest)) →
      ∃ s', scanExponent s = .ok (e :: sign ++ digits, s') ∧
        s.Moved (e :: sign ++ digits) s' := by
    intro e sign digits he hsign hne hd hs
    obtain ⟨d, more, rfl⟩ := List.exists_cons_of_ne_nil hne
    obtain ⟨s₁, haccept, hm₁⟩ := Scan.accept?_cons (p := fun c => c == 'e' || c == 'E') hs
      (by rcases he with rfl | rfl <;> decide)
    have hs₁ := hm₁.behind hs
    obtain ⟨s₂, hscan, hm₂⟩ := scanSign_eq hsign hs₁ fun c hc => by cases hc; exact hd d (by simp)
    have hs₂ := hm₂.behind hs₁
    obtain ⟨s₃, htake, hm₃⟩ := Scan.take_run hs₂ hd fun c hc => (hrest c hc).1
    refine ⟨s₃, ?_, hm₁.trans (hm₂.trans hm₃)⟩
    unfold scanExponent
    rw [haccept]
    simp [hscan, htake]
  cases he with
  | absent =>
    have hnone : s.accept? (fun c => c == 'e' || c == 'E') = none := by
      apply Scan.accept?_none
      rw [hs]
      intro c hc
      simp [hrest c hc]
    exact ⟨s, by unfold scanExponent; rw [hnone], .refl s⟩
  | unsigned he hne hd => exact present he (.inl rfl) hne hd.isDigitOf hs
  | plus he hne hd => exact present he (.inr (.inl rfl)) hne hd.isDigitOf hs
  | minus he hne hd => exact present he (.inr (.inr rfl)) hne hd.isDigitOf hs

theorem floating_eq_ok {fraction exponent : List Char} {power : Int} (hw : whole ≠ [])
    (hd : ∀ c ∈ whole, isDecimal c = true) (hf : Fraction fraction digits)
    (he : Exponent exponent power) :
    floating (whole ++ fraction ++ exponent) negative s =
      .ok (ofFloat negative (whole ++ digits) (power - digits.length), s) := by
  rw [List.append_assoc]
  simp only [floating, read?_eq_some hw hd hf he]
  rfl

theorem decimal_answer {floats wide : Bool} (hw : whole ≠ [])
    (hd : ∀ c ∈ whole, isDecimal c = true) :
    (if floats && !wide then floating whole negative s else integer whole 10 negative wide s) =
      .ok (if floats && !wide then ofFloat negative whole 0
        else ofValue wide (signed negative (ofDigits 10 whole)), s) := by
  by_cases hfloat : (floats && !wide) = true
  · have hread : floating (whole ++ [] ++ []) negative s =
        .ok (ofFloat negative (whole ++ []) (0 - ([] : List Char).length), s) :=
      floating_eq_ok hw hd .absent .absent
    rw [if_pos hfloat, if_pos hfloat]
    simpa using hread
  · rw [if_neg hfloat, if_neg hfloat, integer_eq_ok hw hd]

theorem scanFraction_sound (hw : whole ≠ []) (hd : ∀ c ∈ whole, isDecimal c = true)
    (h : scanFraction rules whole negative s = .ok (n, s')) :
    ∃ fraction digits exponent power, Fraction fraction digits ∧ Exponent exponent power ∧
      s.Moved (fraction ++ exponent) s' ∧ rules.Ends s'.src.rest ∧
      n = ofFloat negative (whole ++ digits) (power - digits.length) := by
  obtain ⟨digits, hf, hm₁⟩ := scanPoint_spec s
  unfold scanFraction at h
  dsimp only at h
  split at h
  · cases h
  · rename_i exponent s₂ hexp
    obtain ⟨power, he, hm₂⟩ := scanExponent_sound hexp
    split at h
    · cases h
    · rename_i hstop
      rw [floating_eq_ok hw hd hf he] at h
      cases h
      exact ⟨_, digits, exponent, power, hf, he, hm₁.trans hm₂, Scan.stop_eq_ok_iff.mp hstop, rfl⟩

theorem scanFraction_complete {fraction exponent : List Char} {power : Int} (hp : rules.Proper)
    (hw : whole ≠ []) (hd : ∀ c ∈ whole, isDecimal c = true) (hf : Fraction fraction digits)
    (he : Exponent exponent power) (hs : s.src.rest = fraction ++ exponent ++ rest)
    (hr : rules.Ends rest) :
    ∃ s', scanFraction rules whole negative s =
        .ok (ofFloat negative (whole ++ digits) (power - digits.length), s') ∧
      s.Moved (fraction ++ exponent) s' := by
  have hrest : ∀ c, rest.head? = some c → isDecimal c = false ∧ c ≠ 'e' ∧ c ≠ 'E' ∧ c ≠ '.' := by
    intro c hc
    obtain ⟨hhex, hpoint, _⟩ := hp c (hr c hc)
    refine ⟨hp.not_digit hr c hc, ?_, ?_, hpoint⟩
    · rintro rfl; cases hhex
    · rintro rfl; cases hhex
  have hbehind : ∀ c, (exponent ++ rest).head? = some c → isDecimal c = false ∧ c ≠ '.' := by
    intro c hc
    cases hexponent : exponent with
    | nil =>
      rw [hexponent] at hc
      exact ⟨(hrest c hc).1, (hrest c hc).2.2.2⟩
    | cons e more =>
      rw [hexponent] at hc
      have hchar := he.head c (by rw [hexponent]; exact hc)
      rcases hchar with rfl | rfl <;> decide
  rw [List.append_assoc] at hs
  obtain ⟨s₁, hpoint, hm₁⟩ := scanPoint_eq hf hs hbehind
  have hs₁ := hm₁.behind hs
  obtain ⟨s₂, hexp, hm₂⟩ := scanExponent_complete he hs₁ fun c hc =>
    ⟨(hrest c hc).1, (hrest c hc).2.1, (hrest c hc).2.2.1⟩
  have hstop : s₂.stop rules.bound = .ok () := by
    rw [Scan.stop_eq_ok_iff, hm₂.behind hs₁]
    exact hr
  refine ⟨s₂, ?_, hm₁.trans hm₂⟩
  simp only [scanFraction, hpoint, hexp, hstop, floating_eq_ok hw hd hf he]

theorem isFractionNext_iff :
    isFractionNext s = true ↔ ∃ c, s.src.rest.head? = some c ∧ (c = '.' ∨ c = 'e' ∨ c = 'E') := by
  simp [isFractionNext, Source.peek?, Option.any_eq_true, or_assoc]

theorem ne_nil_of_isFractionNext {run : List Char} (hp : rules.Proper)
    (hf : isFractionNext s = true) (hm : s.Moved run s') (hr : rules.Ends s'.src.rest) :
    run ≠ [] := by
  rintro rfl
  obtain ⟨c, hc, hchar⟩ := isFractionNext_iff.mp hf
  rw [hm.rest] at hc
  obtain ⟨hhex, hpoint, _⟩ := hp c (hr c hc)
  rcases hchar with rfl | rfl | rfl
  · exact hpoint rfl
  · cases hhex
  · cases hhex

theorem isFractionNext_suffix {wide : Bool} (hp : rules.Proper) (hr : rules.Ends rest)
    (hs : s.src.rest = suffixText wide ++ rest) : isFractionNext s = false := by
  apply Bool.eq_false_iff.mpr
  intro hf
  obtain ⟨c, hc, hchar⟩ := isFractionNext_iff.mp hf
  rw [hs] at hc
  cases wide with
  | true => cases hc; simp at hchar
  | false =>
    obtain ⟨hhex, hpoint, _⟩ := hp c (hr c hc)
    rcases hchar with rfl | rfl | rfl
    · exact hpoint rfl
    · cases hhex
    · cases hhex

theorem isFractionNext_fraction {fraction exponent : List Char} {power : Int}
    (hf : Fraction fraction digits) (he : Exponent exponent power)
    (hne : fraction ++ exponent ≠ []) (hs : s.src.rest = fraction ++ exponent ++ rest) :
    isFractionNext s = true := by
  apply isFractionNext_iff.mpr
  rw [hs]
  cases hf with
  | present _ => exact ⟨'.', rfl, .inl rfl⟩
  | absent =>
    obtain ⟨c, more, hexp⟩ := List.exists_cons_of_ne_nil hne
    simp only [List.nil_append] at hexp
    subst hexp
    exact ⟨c, rfl, .inr (he.head c rfl)⟩

theorem scanDecimal_sound {first : Char} (hp : rules.Proper) (hfirst : isDecimal first = true)
    (hzero : first = '0' → ∀ c, s.src.rest.head? = some c → isDecimal c = false)
    (h : scanDecimal rules first negative s = .ok (n, s')) :
    ∃ run, s.Moved run s' ∧ rules.Ends s'.src.rest ∧
      Unsigned rules.preferFloats negative (first :: run) n := by
  obtain ⟨hm₁, hd, _⟩ := s.take_spec isDecimal
  have hwhole : ∀ c ∈ first :: (s.take isDecimal).1, isDecimal c = true :=
    List.forall_mem_cons.mpr ⟨hfirst, hd⟩
  unfold scanDecimal at h
  dsimp only at h
  split at h
  · rename_i hnext
    obtain ⟨fraction, digits, exponent, power, hf, he, hm₂, hr, rfl⟩ :=
      scanFraction_sound (by simp) hwhole h
    have hne := ne_nil_of_isFractionNext hp hnext hm₂ hr
    exact ⟨_, hm₁.trans hm₂, hr, .floating (by simp) hwhole hf he hne⟩
  · obtain ⟨wide, s₂, hm₂, hr, hanswer⟩ := scanEnd_sound h
    have hmore : first = '0' → (s.take isDecimal).1 = [] := by
      intro hz
      cases hmore : (s.take isDecimal).1 with
      | nil => rfl
      | cons c more =>
        have hhead : s.src.rest.head? = some c := by rw [hm₁.rest, hmore]; rfl
        have hc := hd c (by rw [hmore]; simp)
        rw [hzero hz c hhead] at hc
        cases hc
    rw [decimal_answer (by simp) hwhole] at hanswer
    cases hanswer
    exact ⟨_, hm₁.trans hm₂, hr, .decimal wide hfirst hd hmore⟩

theorem scanLeadingZero_sound (hp : rules.Proper)
    (hnext : ∃ c, s.src.rest.head? = some c ∧ isDecimal c = true)
    (h : scanLeadingZero rules negative s = .ok (n, s')) :
    ∃ run, s.Moved run s' ∧ rules.Ends s'.src.rest ∧
      Unsigned rules.preferFloats negative ('0' :: run) n := by
  obtain ⟨hm₁, hd, hstop⟩ := s.take_spec isDecimal
  have hne : (s.take isDecimal).1 ≠ [] := by
    intro hnil
    obtain ⟨c, hc, hdec⟩ := hnext
    rw [hm₁.rest, hnil] at hc
    rw [hstop c hc] at hdec
    cases hdec
  have hwhole : ∀ c ∈ '0' :: (s.take isDecimal).1, isDecimal c = true :=
    List.forall_mem_cons.mpr ⟨by decide, hd⟩
  unfold scanLeadingZero at h
  dsimp only at h
  split at h
  · rename_i hnext
    obtain ⟨fraction, digits, exponent, power, hf, he, hm₂, hr, rfl⟩ :=
      scanFraction_sound (by simp) hwhole h
    have hne := ne_nil_of_isFractionNext hp hnext hm₂ hr
    exact ⟨_, hm₁.trans hm₂, hr, .floating (by simp) hwhole hf he hne⟩
  · obtain ⟨wide, s₂, hm₂, hr, hanswer⟩ := scanEnd_sound h
    cases hoctal : (s.take isDecimal).1.all (isDigitOf 8) with
    | true =>
      have hd' := List.all_eq_true.mp hoctal
      rw [hoctal, if_pos rfl, integer_eq_ok hne hd'] at hanswer
      cases hanswer
      exact ⟨_, hm₁.trans hm₂, hr, .octal wide hne hd'⟩
    | false =>
      have hsome : ∃ c ∈ (s.take isDecimal).1, isDigitOf 8 c = false := by
        simpa using hoctal
      rw [hoctal, if_neg (by simp), integer_eq_ok hne hd] at hanswer
      cases hanswer
      exact ⟨_, hm₁.trans hm₂, hr, .padded wide hd hsome⟩

theorem isDecimal_of_octal {c : Char} (h : isDigitOf 8 c = true) : isDecimal c = true := by
  obtain ⟨v, hv⟩ := Option.isSome_iff_exists.mp h
  obtain ⟨hhex, hlt⟩ := Option.filter_eq_some_iff.mp hv
  have hten : decide (v < 10) = true := by simp at hlt ⊢; omega
  exact Option.isSome_iff_exists.mpr ⟨v, Option.filter_eq_some_iff.mpr ⟨hhex, hten⟩⟩

theorem radixOf?_of_isDecimal {c : Char} (h : isDecimal c = true) : radixOf? c = none := by
  unfold radixOf?
  split <;> first | rfl | exact absurd h (by decide)

theorem scanUnsigned_sound {first : Char} (hp : rules.Proper) (hfirst : isDecimal first = true)
    (h : scanUnsigned rules first negative s = .ok (n, s')) :
    ∃ run, s.Moved run s' ∧ rules.Ends s'.src.rest ∧
      Unsigned rules.preferFloats negative (first :: run) n := by
  unfold scanUnsigned at h
  split at h
  · rename_i hz
    subst hz
    cases hrest : s.src.rest with
    | nil =>
      simp only [Source.next?, hrest] at h
      exact scanDecimal_sound hp hfirst (by simp [hrest]) h
    | cons c more =>
      simp only [Source.next?, hrest] at h
      split at h
      · rename_i radix hradix
        obtain ⟨digits, wide, hm, hr, hne, hd, rfl⟩ := scanRadix_sound h
        have hstep : s.Moved [c] ⟨s.lexeme ++ [c],
            { s.src with rest := more, offset := s.src.offset + 1 }⟩ := ⟨hrest, rfl, rfl⟩
        exact ⟨_, hstep.trans hm, hr, .radix wide hradix hne hd⟩
      · split at h
        · rename_i hdec
          exact scanLeadingZero_sound hp ⟨c, by simp [hrest], hdec⟩ h
        · rename_i hdec
          refine scanDecimal_sound hp hfirst (fun _ d hd => ?_) h
          simp only [hrest, List.head?_cons, Option.some.injEq] at hd
          simpa [hd] using hdec
  · rename_i hz
    exact scanDecimal_sound hp hfirst (fun hzero => absurd hzero hz) h

theorem scanUnsigned_other {first : Char} (hfirst : first = '0' →
      ∀ c, s.src.rest.head? = some c → radixOf? c = none ∧ isDecimal c = false) :
    scanUnsigned rules first negative s = scanDecimal rules first negative s := by
  unfold scanUnsigned
  split
  · rename_i hz
    cases hrest : s.src.rest with
    | nil => simp only [Source.next?, hrest]
    | cons c more =>
      obtain ⟨hradix, hdec⟩ := hfirst hz c (by simp [hrest])
      simp [Source.next?, hrest, hradix, hdec]
  · rfl

theorem scanUnsigned_zero {c : Char} {more : List Char} (hrest : s.src.rest = c :: more)
    (hdec : isDecimal c = true) :
    scanUnsigned rules '0' negative s = scanLeadingZero rules negative s := by
  simp [scanUnsigned, Source.next?, hrest, radixOf?_of_isDecimal hdec, hdec]

/-- Digits behind a zero, in the radix that they are taken in. -/
theorem scanLeadingZero_complete {wide : Bool} (hp : rules.Proper) (hr : rules.Ends rest)
    (hs : s.src.rest = digits ++ suffixText wide ++ rest) (hne : digits ≠ [])
    (hd : ∀ c ∈ digits, isDecimal c = true)
    (hradix : (if digits.all (isDigitOf 8) then 8 else 10) = radix)
    (hdigits : ∀ c ∈ digits, isDigitOf radix c = true) :
    ∃ s', scanUnsigned rules '0' negative s =
        .ok (ofValue wide (signed negative (ofDigits radix digits)), s') ∧
      s.Moved (digits ++ suffixText wide) s' := by
  rw [List.append_assoc] at hs
  obtain ⟨c, more, hcons⟩ := List.exists_cons_of_ne_nil hne
  have hzero : scanUnsigned rules '0' negative s = scanLeadingZero rules negative s :=
    scanUnsigned_zero (by rw [hs, hcons]; rfl) (hd c (by simp [hcons]))
  obtain ⟨s₁, htake, hm₁⟩ := Scan.take_run hs hd (hp.not_digit_suffix hr wide)
  have hs₁ := hm₁.behind hs
  obtain ⟨s₂, hend, hm₂⟩ := scanEnd_complete (integer digits radix negative) hp hs₁ hr
  refine ⟨s₂, ?_, hm₁.trans hm₂⟩
  rw [hzero]
  simp only [scanLeadingZero, htake, isFractionNext_suffix hp hr hs₁, hradix, hend,
    integer_eq_ok hne hdigits]
  rfl

theorem scanDecimal_complete {first : Char} {more : List Char} {wide : Bool} (hp : rules.Proper)
    (hr : rules.Ends rest) (hs : s.src.rest = more ++ suffixText wide ++ rest)
    (hfirst : isDecimal first = true) (hd : ∀ c ∈ more, isDecimal c = true)
    (hzero : first = '0' → more = []) :
    ∃ s', scanUnsigned rules first negative s =
        .ok (if rules.preferFloats && !wide then ofFloat negative (first :: more) 0
          else ofValue wide (signed negative (ofDigits 10 (first :: more))), s') ∧
      s.Moved (more ++ suffixText wide) s' := by
  rw [List.append_assoc] at hs
  have hother : scanUnsigned rules first negative s = scanDecimal rules first negative s := by
    apply scanUnsigned_other
    intro hz c hc
    rw [hs, hzero hz, List.nil_append] at hc
    refine ⟨?_, hp.not_digit_suffix hr wide c hc⟩
    cases wide with
    | true => cases hc; rfl
    | false => exact (hp c (hr c hc)).2.2.2
  obtain ⟨s₁, htake, hm₁⟩ := Scan.take_run hs hd (hp.not_digit_suffix hr wide)
  have hs₁ := hm₁.behind hs
  obtain ⟨s₂, hend, hm₂⟩ := scanEnd_complete (fun wide s =>
    if rules.preferFloats && !wide then floating (first :: more) negative s
    else integer (first :: more) 10 negative wide s) hp hs₁ hr
  refine ⟨s₂, ?_, hm₁.trans hm₂⟩
  rw [decimal_answer (by simp) (List.forall_mem_cons.mpr ⟨hfirst, hd⟩)] at hend
  rw [hother]
  simp only [scanDecimal, htake, isFractionNext_suffix hp hr hs₁]
  exact hend

theorem scanFloating_complete {first : Char} {more fraction exponent : List Char} {power : Int}
    (hp : rules.Proper) (hr : rules.Ends rest)
    (hs : s.src.rest = more ++ (fraction ++ exponent) ++ rest)
    (hd : ∀ c ∈ first :: more, isDecimal c = true) (hf : Fraction fraction digits)
    (he : Exponent exponent power) (hne : fraction ++ exponent ≠ []) :
    ∃ s', scanUnsigned rules first negative s =
        .ok (ofFloat negative (first :: more ++ digits) (power - digits.length), s') ∧
      s.Moved (more ++ (fraction ++ exponent)) s' := by
  rw [List.append_assoc] at hs
  have hhead : ∀ c, (fraction ++ exponent ++ rest).head? = some c → isDecimal c = false := by
    intro c hc
    obtain ⟨d, tail, hcons⟩ := List.exists_cons_of_ne_nil hne
    rw [hcons] at hc
    exact hf.not_decimal he c (by rw [hcons]; exact hc)
  have hmore : ∀ c ∈ more, isDecimal c = true := fun c hc => hd c (by simp [hc])
  obtain ⟨s₁, htake, hm₁⟩ := Scan.take_run hs hmore hhead
  have hs₁ := hm₁.behind hs
  have hnext := isFractionNext_fraction hf he hne hs₁
  obtain ⟨s₂, hscan, hm₂⟩ : ∃ s₂, scanFraction rules (first :: more) negative s₁ =
      .ok (ofFloat negative (first :: more ++ digits) (power - digits.length), s₂) ∧
      s₁.Moved (fraction ++ exponent) s₂ := scanFraction_complete hp (by simp) hd hf he hs₁ hr
  refine ⟨s₂, ?_, hm₁.trans hm₂⟩
  -- a zero that a digit follows takes the other way, to the same fraction
  by_cases hpadded : first = '0' ∧ more ≠ []
  · obtain ⟨rfl, hne'⟩ := hpadded
    obtain ⟨c, tail, hcons⟩ := List.exists_cons_of_ne_nil hne'
    rw [scanUnsigned_zero (by rw [hs, hcons]; rfl) (hmore c (by simp [hcons]))]
    simp only [scanLeadingZero, htake, hnext, if_true]
    exact hscan
  · rw [scanUnsigned_other]
    · simp only [scanDecimal, htake, hnext, if_true]
      exact hscan
    · intro hz c hc
      have hnil : more = [] := by
        cases more with
        | nil => rfl
        | cons d tail => exact absurd ⟨hz, by simp⟩ hpadded
      rw [hs, hnil] at hc
      obtain ⟨d, hd', hchar⟩ := isFractionNext_iff.mp hnext
      rw [hs₁] at hd'
      rw [List.nil_append, hd'] at hc
      cases hc
      rcases hchar with rfl | rfl | rfl <;> decide

/-- The scan of a literal without its sign finds what the literal denotes. -/
theorem scanUnsigned_complete {first : Char} {run : List Char} (hp : rules.Proper)
    (hr : rules.Ends rest) (hs : s.src.rest = run ++ rest)
    (h : Unsigned rules.preferFloats negative (first :: run) n) :
    ∃ s', scanUnsigned rules first negative s = .ok (n, s') ∧ s.Moved run s' := by
  generalize htext : first :: run = text at h
  cases h with
  | @radix marker radix digits wide hradix hne hd =>
    cases htext
    let s₀ : Scan := ⟨s.lexeme ++ [marker],
      { s.src with rest := digits ++ suffixText wide ++ rest, offset := s.src.offset + 1 }⟩
    have hstep : s.Moved [marker] s₀ := ⟨hs, rfl, rfl⟩
    obtain ⟨s', hscan, hm⟩ := scanRadix_complete (s := s₀) hp rfl hr hne hd
    refine ⟨s', ?_, hstep.trans hm⟩
    have hrest : s.src.rest = marker :: (digits ++ suffixText wide ++ rest) := hs
    simp only [scanUnsigned, Source.next?, hrest, hradix, if_true]
    exact hscan
  | @octal digits wide hne hd =>
    cases htext
    have hdec : ∀ c ∈ digits, isDecimal c = true := fun c hc => isDecimal_of_octal (hd c hc)
    exact scanLeadingZero_complete hp hr hs hne hdec (if_pos (List.all_eq_true.mpr hd)) hd
  | @padded digits wide hd hsome =>
    cases htext
    obtain ⟨c, hc, hnot⟩ := hsome
    have hall : ¬ digits.all (isDigitOf 8) = true := fun hall => by
      rw [List.all_eq_true.mp hall c hc] at hnot
      cases hnot
    exact scanLeadingZero_complete hp hr hs (List.ne_nil_of_mem hc) hd (if_neg hall) hd
  | @decimal first more wide hfirst hd hzero =>
    cases htext
    exact scanDecimal_complete hp hr hs hfirst hd hzero
  | @floating whole fraction digits exponent power hw hd hf he hne =>
    obtain ⟨d, more, rfl⟩ := List.exists_cons_of_ne_nil hw
    cases htext
    exact scanFloating_complete hp hr hs hd hf he hne

theorem Unsigned.first {first : Char} {run : List Char} {floats : Bool}
    (h : Unsigned floats negative (first :: run) n) : isDecimal first = true := by
  generalize htext : first :: run = text at h
  cases h with
  | radix _ _ _ _ => cases htext; decide
  | octal _ _ _ => cases htext; decide
  | padded _ _ _ => cases htext; decide
  | decimal _ h _ _ => cases htext; exact h
  | @floating whole _ _ _ _ hw hd _ _ _ =>
    obtain ⟨d, more, rfl⟩ := List.exists_cons_of_ne_nil hw
    cases htext
    exact hd _ (by simp)

theorem Unsigned.ne_nil {text : List Char} {floats : Bool}
    (h : Unsigned floats negative text n) : text ≠ [] := by
  cases h with
  | floating hw _ _ _ _ => simp [hw]
  | _ => simp

theorem Spelled.ne_nil {text : List Char} {floats : Bool} (h : Spelled floats text n) :
    text ≠ [] := by
  cases h with
  | unsigned h => exact h.ne_nil
  | plus h => simp
  | minus h => simp

/-- The text goes on with a number literal in front of something that ends it. -/
theorem scan_sound {first : Char} {src after : Source} (hp : rules.Proper)
    (hstart : Text.startsNumber first src.peek? = true)
    (h : scan rules first src = (.ok n, after)) :
    ∃ run, src.rest = run ++ after.rest ∧ rules.Ends after.rest ∧
      Spelled rules.preferFloats (first :: run) n := by
  unfold scan at h
  split at h
  · rename_i value s' hscan
    cases h
    unfold scanSigned at hscan
    split at hscan
    · rename_i hsign
      split at hscan
      · cases hscan
      · rename_i c more hnext
        split at hscan
        · rename_i hdec
          obtain ⟨run, hm, hr, hspelled⟩ := scanUnsigned_sound hp hdec hscan
          have hrest : src.rest = c :: more.rest := by
            unfold Source.next? at hnext
            split at hnext <;> cases hnext
            assumption
          refine ⟨c :: run, by rw [hrest, hm.rest]; rfl, hr, ?_⟩
          rcases hsign with rfl | rfl
          · exact .plus hspelled
          · exact .minus hspelled
        · cases hscan
    · rename_i hsign
      have hdec : isDecimal first = true := by
        rw [not_or] at hsign
        simpa [Text.startsNumber, hsign.1, hsign.2] using hstart
      obtain ⟨run, hm, hr, hspelled⟩ := scanUnsigned_sound hp hdec hscan
      exact ⟨run, hm.rest, hr, .unsigned hspelled⟩
  · cases h

/-- A number literal in front of something that ends it is read, up to its end. -/
theorem scan_complete {first : Char} {run : List Char} (hp : rules.Proper) (hr : rules.Ends rest)
    (h : Spelled rules.preferFloats (first :: run) n) (offset line : Nat) :
    scan rules first ⟨run ++ rest, offset, line⟩ =
      (.ok n, ⟨rest, offset + run.length, line⟩) := by
  have behindSign : ∀ {text : List Char}, (first = '+' ∨ first = '-') → run = text →
      Unsigned rules.preferFloats (first = '-') text n →
      scan rules first ⟨run ++ rest, offset, line⟩ =
        (.ok n, ⟨rest, offset + run.length, line⟩) := by
    rintro text hsign rfl hspelled
    obtain ⟨c, more, rfl⟩ := List.exists_cons_of_ne_nil hspelled.ne_nil
    obtain ⟨s', hscan, hm⟩ := scanUnsigned_complete
      (s := ⟨[first, c], ⟨more ++ rest, offset + 1, line⟩⟩) hp hr rfl hspelled
    simp only [scan, scanSigned, hsign, if_true, Source.next?, List.cons_append, hspelled.first]
    rw [hscan]
    simp only [hm.src_eq rfl, List.length_cons, Nat.add_assoc, Nat.add_comm 1]
  generalize htext : first :: run = text at h
  cases h with
  | unsigned hspelled =>
    subst htext
    have hfirst := hspelled.first
    have hsign : ¬ (first = '+' ∨ first = '-') := by
      rintro (rfl | rfl) <;> exact absurd hfirst (by decide)
    obtain ⟨s', hscan, hm⟩ := scanUnsigned_complete
      (s := ⟨[first], ⟨run ++ rest, offset, line⟩⟩) hp hr rfl hspelled
    simp only [scan, scanSigned, if_neg hsign]
    rw [hscan]
    simp only [hm.src_eq rfl]
  | plus hspelled => cases htext; exact behindSign (.inl rfl) rfl hspelled
  | minus hspelled => cases htext; exact behindSign (.inr rfl) rfl hspelled

end

end TableLisp.Numeral

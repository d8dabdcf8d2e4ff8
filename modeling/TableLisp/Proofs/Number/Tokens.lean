import TableLisp.Proofs.Reader.Grammar

/-! The scan for a number, where one may begin: it accepts the tokens that are number literals, stops
behind them and finds what they denote. -/

namespace TableLisp.Numeral

open Reader (isDelimiter)

/-- What stands in front of the next delimiter. -/
def token (text : List Char) : List Char := text.takeWhile fun c => !isDelimiter c

variable {floats : Bool} {n : Numeral} {first : Char} {more : List Char} {offset line : Nat}
variable {after : Source}

theorem exists_behind_token (text : List Char) :
    ∃ rest, token text ++ rest = text ∧ Reader.Delimited rest := by
  refine ⟨text.dropWhile fun c => !isDelimiter c, List.takeWhile_append_dropWhile, fun c hc => ?_⟩
  have hhead := List.head?_dropWhile_not (fun c => !isDelimiter c) text
  rw [hc] at hhead
  simpa using hhead

theorem scan_token (offset line : Nat) (h : Spelled floats (token (first :: more)) n) :
    ∃ rest, first :: more = token (first :: more) ++ rest ∧
      scan (Dialect.standard floats).numeralRules first ⟨more, offset, line⟩ =
        (.ok n, ⟨rest, offset + ((token (first :: more)).length - 1), line⟩) := by
  obtain ⟨rest, htext, hdelimited⟩ := exists_behind_token (first :: more)
  have hends : (Dialect.standard floats).numeralRules.Ends rest := fun c hc =>
    (Reader.endsToken_standard floats c).trans (hdelimited c hc)
  obtain ⟨c, run, hrun⟩ := List.exists_cons_of_ne_nil h.ne_nil
  rw [hrun] at h htext ⊢
  obtain ⟨rfl, hmore⟩ := List.cons.inj htext
  have hscan := scan_complete (Reader.proper_standard floats) hends h offset line
  refine ⟨rest, htext.symm, ?_⟩
  rw [← hmore]
  exact hscan

theorem spelled_token (hstart : Text.startsNumber first more.head? = true)
    (h : scan (Dialect.standard floats).numeralRules first ⟨more, offset, line⟩ = (.ok n, after)) :
    Spelled floats (token (first :: more)) n := by
  obtain ⟨run, hrest, hends, hspelled⟩ := scan_sound (Reader.proper_standard floats) hstart h
  have hfree : ∀ c ∈ first :: run, (!isDelimiter c) = true := fun c hc => by
    simp [Reader.free_of_spelled hspelled c hc]
  have hstop : ∀ c, after.rest.head? = some c → (!isDelimiter c) = false := fun c hc => by
    simp [(Reader.endsToken_standard floats c).symm.trans (hends c hc)]
  have htoken : token (first :: more) = first :: run := by
    have hmore : first :: more = (first :: run) ++ after.rest := congrArg (first :: ·) hrest
    rw [token, hmore]
    exact (takeWhile_run hfree hstop).1
  rw [htoken]
  exact hspelled

/-- The scan accepts the number literals, stops behind them and finds what they denote. -/
theorem scan_eq_ok_iff_mem_number (floats : Bool) (first : Char) (more : List Char)
    (offset line : Nat) (hstart : Text.startsNumber first more.head? = true) :
    let scanned := scan (Dialect.standard floats).numeralRules first ⟨more, offset, line⟩
    let tok := token (first :: more)
    ((∃ n, scanned.1 = .ok n) ↔ tok ∈ Grammar.number) ∧
    ∀ n, scanned.1 = .ok n →
      (first :: more = tok ++ scanned.2.rest ∧ scanned.2.offset = offset + (tok.length - 1) ∧
        scanned.2.line = line) ∧
      (∀ sign body wide radix digits, tok = sign ++ (body ++ suffixText wide) →
        sign ∈ Grammar.sign → InRadix body radix digits →
        AsInteger floats sign body wide (denoted sign radix digits) n) ∧
      (∀ sign body, tok = sign ++ body → sign ∈ Grammar.sign → body ∈ Grammar.floating →
        AsFloat sign body n) := by
  intro scanned tok
  have hfound : ∀ {n}, scanned.1 = .ok n → Spelled floats tok n :=
    fun hn => spelled_token hstart (Prod.ext hn rfl)
  have hscan : ∀ {n}, Spelled floats tok n → ∃ rest, first :: more = tok ++ rest ∧
      scanned = (.ok n, ⟨rest, offset + (tok.length - 1), line⟩) := scan_token offset line
  -- a token spells one number only, the one that the scan finds
  have hunique : ∀ {n n'}, scanned.1 = .ok n → Spelled floats tok n' → n' = n := by
    intro n n' hn hn'
    obtain ⟨rest, _, heq⟩ := hscan hn'
    rw [heq] at hn
    exact Except.ok.inj hn
  constructor
  · rw [mem_number_iff floats]
    constructor
    · rintro ⟨n, hn⟩
      exact ⟨n, hfound hn⟩
    · rintro ⟨n, hn⟩
      obtain ⟨rest, _, heq⟩ := hscan hn
      exact ⟨n, by rw [heq]⟩
  · intro n hn
    refine ⟨?_, ?_, ?_⟩
    · obtain ⟨rest, hrest, heq⟩ := hscan (hfound hn)
      rw [heq]
      exact ⟨hrest, rfl, rfl⟩
    · intro sign body wide radix digits htok hsign hradix
      obtain ⟨n', hunsigned, hvalue⟩ := unsigned_of_inRadix floats sign wide hradix
      have hspelled := spelled_of_unsigned hsign hunsigned
      rw [← htok] at hspelled
      rwa [hunique hn hspelled] at hvalue
    · intro sign body htok hsign hfloating
      obtain ⟨n', hunsigned, hvalue⟩ := unsigned_of_floating floats sign hfloating
      have hspelled := spelled_of_unsigned hsign hunsigned
      rw [← htok] at hspelled
      rwa [hunique hn hspelled] at hvalue

/-- An octal number with a sign, one more than 64 bits can hold below zero, in front of a
parenthesis: it is no float, also where floats are preferred. -/
theorem scan_eq_ok_iff_mem_number_octal :
    let digits := "1000000000000000000001".toList
    let more := '0' :: (digits ++ [')'])
    let scanned := scan (Dialect.standard true).numeralRules '-' ⟨more, 1, 1⟩
    Text.startsNumber '-' more.head? = true ∧ token ('-' :: more) ∈ Grammar.number ∧
      scanned.1 = .ok (.big (-(2 ^ 63 + 1))) ∧ scanned.2.rest = [')'] := by
  intro digits more scanned
  have hstart : Text.startsNumber '-' more.head? = true := by rfl
  have htoken : token ('-' :: more) = ['-'] ++ (('0' :: digits) ++ suffixText false) := by rfl
  have hsign : ['-'] ∈ Grammar.sign := Grammar.mem_sign.mpr (.inr (.inr rfl))
  have hradix : InRadix ('0' :: digits) 8 digits :=
    .octal (Grammar.mem_run.mpr ⟨by simp [digits], List.all_eq_true.mp (by rfl)⟩)
  have hnumber : token ('-' :: more) ∈ Grammar.number := by
    rw [htoken]
    refine Language.append_mem_mul hsign (.inl (Language.append_mem_mul ?_ ?_))
    · exact mem_integer.mpr ⟨8, digits, hradix⟩
    · exact Grammar.mem_suffix.mpr ⟨false, rfl⟩
  obtain ⟨haccepts, hfinds⟩ := scan_eq_ok_iff_mem_number true '-' more 1 1 hstart
  obtain ⟨n, hn⟩ := haccepts.mpr hnumber
  obtain ⟨⟨hrest, _⟩, hinteger, _⟩ := hfinds n hn
  obtain ⟨_, hkept⟩ := hinteger ['-'] ('0' :: digits) false 8 digits htoken hsign hradix
  have hvalue : denoted ['-'] 8 digits = -(2 ^ 63 + 1) := by decide
  have hbig := (hkept fun h => not_plain_zero h.2).2 (by rw [hvalue]; decide)
  rw [hvalue] at hbig
  have hwhole : '-' :: more = token ('-' :: more) ++ [')'] := by rfl
  exact ⟨hstart, hnumber, hbig ▸ hn, List.append_cancel_left (hrest.symm.trans hwhole)⟩

end TableLisp.Numeral

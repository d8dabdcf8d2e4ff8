import Mathlib.Algebra.Group.Nat.Defs
import Mathlib.Data.List.Forall2
import TableLisp.Proofs.Text.Scanners

/-! How a string literal ends. A literal is a run of pieces: ordinary characters, escapes of one
letter and escapes by code. What comes behind the pieces is the closing quote, the end of the text
or an escape that stands for no character, and that decides what the scan answers and where it
stops. A literal that was written has no newline in it and is read back. -/

namespace TableLisp

namespace Quoted

open Text (isDigitOf Positional)

/-- An escape that stands for no character, as far as it is read, with the text behind it: a letter
of no escape, digits of a code that are too few, or the code of a surrogate. -/
inductive BadEscape : List Char → List Char → SyntaxFault → Prop where
  | letter {letter : Char} {rest : List Char} : letter ≠ 'u' →
      (∀ c, (letter, c) ∉ letterEscapes) → BadEscape ['\\', letter] rest (.escape letter)
  | short {digits rest : List Char} : digits.length < 4 →
      (∀ d ∈ digits, isDigitOf 16 d = true) →
      (∀ d, rest.head? = some d → isDigitOf 16 d = false) →
      BadEscape ('\\' :: 'u' :: digits) rest (.unicodeEscape digits)
  | surrogate {digits rest : List Char} {n : Nat} : digits.length = 4 → Positional 16 digits n →
      0xD800 ≤ n → n ≤ 0xDFFF →
      BadEscape ('\\' :: 'u' :: digits) rest (.unicodeEscape digits)

/-- What the scan of a literal that began at `start` answers, and what it leaves: the first thing
that is no piece decides. -/
inductive Ends (start : Position) (src : Source) : Except Error Literal × Source → Prop where
  | closed {pieces : List (List Char)} {text rest : List Char} :
      List.Forall₂ Piece pieces text → src.rest = pieces.flatten ++ '"' :: rest →
      Ends start src (.ok ⟨text, pieces.flatten.count '\n'⟩,
        ⟨rest, src.offset + pieces.flatten.length + 1, src.line⟩)
  | cut {pieces : List (List Char)} {text : List Char} : List.Forall₂ Piece pieces text →
      src.rest = pieces.flatten ∨ src.rest = pieces.flatten ++ ['\\'] →
      Ends start src (.error (.openString start), ⟨[], src.offset + src.rest.length, src.line⟩)
  | bad {pieces : List (List Char)} {text escape rest : List Char} {fault : SyntaxFault} :
      List.Forall₂ Piece pieces text → BadEscape escape rest fault →
      src.rest = pieces.flatten ++ (escape ++ rest) →
      Ends start src
        (.error (.malformedText ⟨start.line + pieces.flatten.count '\n',
            src.offset + pieces.flatten.length + 2⟩ fault),
          ⟨rest, src.offset + pieces.flatten.length + escape.length, src.line⟩)

variable {start : Position} {src : Source} {text rest escape : List Char}
variable {pieces : List (List Char)} {fault : SyntaxFault}

theorem spells_flatten (h : List.Forall₂ Piece pieces text) : Spells pieces.flatten text := by
  induction h with
  | nil => exact .nil
  | cons hpiece _ ih => exact .cons hpiece ih

theorem codeDigits_append_of_digits {digits : List Char}
    (hd : ∀ d ∈ digits, isDigitOf 16 d = true) (hlen : digits.length ≤ 4)
    (hrest : digits.length = 4 ∨ ∀ d, rest.head? = some d → isDigitOf 16 d = false) :
    codeDigits (digits ++ rest) = digits := by
  unfold codeDigits
  rw [List.take_append, List.take_of_length_le hlen]
  refine (takeWhile_run hd fun d hhead => ?_).1
  rcases hrest with hfour | hrest
  · simp [hfour] at hhead
  · refine hrest d ?_
    cases rest with
    | nil => simp at hhead
    | cons r rest =>
      rw [List.head?_take] at hhead
      split at hhead
      · cases hhead
      · exact hhead

/-- A code that names no character is refused where its digits begin. -/
theorem scanFrom_badCode {more : List Char} (h : Text.ofHexCode? (codeDigits more) = none)
    (offset newlines : Nat) :
    scanFrom start ('\\' :: 'u' :: more) offset newlines = badCode start more offset newlines := by
  -- of fewer than four characters no code is tried
  rcases more with _ | ⟨x, _ | ⟨y, _ | ⟨z, _ | ⟨w, tail⟩⟩⟩⟩
  case cons.cons.cons.cons =>
    have hnone : Text.ofHexCode? [x, y, z, w] = none := by
      refine Option.eq_none_iff_forall_ne_some.mpr fun c hc => ?_
      obtain ⟨hlen, hcode⟩ := Text.ofHexCode?_eq_some_iff.mp hc
      have hdigits : codeDigits ([x, y, z, w] ++ tail) = [x, y, z, w] :=
        codeDigits_append_of_digits hcode.isDigitOf (Nat.le_of_eq hlen) (.inl hlen)
      rw [List.cons_append, List.cons_append, List.cons_append, List.cons_append,
        List.nil_append] at hdigits
      rw [hdigits, hc] at h
      cases h
    simp only [scanFrom, hnone]
  all_goals rfl

theorem scanFrom_badEscape (h : BadEscape escape rest fault) (offset newlines : Nat) :
    scanFrom start (escape ++ rest) offset newlines =
      (.error (.malformedText ⟨start.line + newlines, offset + 2⟩ fault), rest,
        offset + escape.length) := by
  have hcode : ∀ digits : List Char, codeDigits (digits ++ rest) = digits →
      Text.ofHexCode? digits = none →
      scanFrom start ('\\' :: 'u' :: digits ++ rest) offset newlines =
        (.error (.malformedText ⟨start.line + newlines, offset + 2⟩ (.unicodeEscape digits)), rest,
          offset + ('\\' :: 'u' :: digits).length) := by
    -- what is behind the digits is put back
    intro digits hdigits hnone
    rw [List.cons_append, List.cons_append, scanFrom_badCode (hdigits.symm ▸ hnone), badCode,
      hdigits, List.drop_left, List.length_cons, List.length_cons]
    congr 2
    omega
  cases h with
  | @letter letter _ hu hletter =>
    have hnone : escape? letter = none := by
      refine Option.eq_none_iff_forall_ne_some.mpr fun c hc => ?_
      exact hletter c (escape?_eq_some_iff.mp hc)
    rw [List.cons_append, List.cons_append, List.nil_append, scanFrom, hnone]
    · rfl
    · exact hu
  | @short digits _ hlen hd hrest =>
    refine hcode digits (codeDigits_append_of_digits hd (Nat.le_of_lt hlen) (.inr hrest)) ?_
    simp [Text.ofHexCode?, Nat.ne_of_lt hlen]
  | @surrogate digits _ n hlen hvalue hlow hhigh =>
    exact hcode digits
      (codeDigits_append_of_digits hvalue.isDigitOf (Nat.le_of_eq hlen) (.inl hlen))
      ((Text.ofHexCode?_eq_none_iff hlen hvalue).mpr ⟨hlow, hhigh⟩)

theorem Ends.scan_eq {reply : Except Error Literal × Source} (h : Ends start src reply) :
    scan start src = reply := by
  obtain ⟨chars, offset, line⟩ := src
  cases h with
  | @closed pieces text rest hpieces hrest =>
    obtain rfl : chars = _ := hrest
    simp only [scan, scanFrom_of_spells (spells_flatten hpieces), Nat.zero_add]
  | @cut pieces text hpieces hrest =>
    rcases (hrest : chars = _ ∨ chars = _) with rfl | rfl
    · have hscan : scanFrom start (pieces.flatten ++ []) offset 0 = _ :=
        scanFrom_append (spells_flatten hpieces) [] offset 0
      rw [List.append_nil] at hscan
      simp only [scan, hscan]
      rfl
    · simp only [scan, scanFrom_append (spells_flatten hpieces), scanFrom, List.length_append]
      rfl
  | @bad pieces text escape rest fault hpieces hescape hrest =>
    obtain rfl : chars = _ := hrest
    simp only [scan, scanFrom_append (spells_flatten hpieces), scanFrom_badEscape hescape,
      Nat.zero_add]
    rfl

/-- Behind the pieces of a literal: the closing quote, the end of the text, or a bad escape. -/
inductive Terminal : List Char → Prop where
  | quote (rest : List Char) : Terminal ('"' :: rest)
  | nothing : Terminal []
  | backslash : Terminal ['\\']
  | bad {escape rest : List Char} {fault : SyntaxFault} : BadEscape escape rest fault →
      Terminal (escape ++ rest)

theorem codeDigits_spec (more : List Char) : (codeDigits more).length ≤ 4 ∧
    (∀ d ∈ codeDigits more, isDigitOf 16 d = true) ∧
    ((codeDigits more).length < 4 →
      ∀ d, (more.drop (codeDigits more).length).head? = some d → isDigitOf 16 d = false) := by
  refine ⟨?_, fun d hd => List.all_eq_true.mp List.all_takeWhile d hd, fun hlen d hhead => ?_⟩
  · exact Nat.le_trans (List.takeWhile_prefix _).length_le (List.length_take_le 4 more)
  · have hnot := List.head?_dropWhile_not (isDigitOf 16) (more.take 4)
    have hdrop : (more.take 4).dropWhile (isDigitOf 16) =
        (more.take 4).drop (codeDigits more).length := by
      conv_rhs => rw [← List.takeWhile_append_dropWhile (p := isDigitOf 16) (l := more.take 4)]
      exact List.drop_left.symm
    rw [List.head?_drop] at hhead
    rw [hdrop, List.head?_drop, List.getElem?_take_of_lt hlen, hhead] at hnot
    exact hnot

theorem code_piece_or_bad (more : List Char) :
    (∃ digits c rest, Piece ('\\' :: 'u' :: digits) c ∧ more = digits ++ rest) ∨
      ∃ digits rest, BadEscape ('\\' :: 'u' :: digits) rest (.unicodeEscape digits) ∧
        more = digits ++ rest := by
  obtain ⟨hle, hd, hnext⟩ := codeDigits_spec more
  have hmore := (codeDigits_append_drop more).symm
  by_cases hlen : (codeDigits more).length = 4
  · cases hcode : Text.ofHexCode? (codeDigits more) with
    | some c => exact .inl ⟨_, c, _, .code hlen (Text.ofHexCode?_eq_some_iff.mp hcode).2, hmore⟩
    | none =>
      have hvalue := Text.positional_ofDigits hd
      obtain ⟨hlow, hhigh⟩ := (Text.ofHexCode?_eq_none_iff hlen hvalue).mp hcode
      exact .inr ⟨_, _, .surrogate hlen hvalue hlow hhigh, hmore⟩
  · have hshort : (codeDigits more).length < 4 := by omega
    exact .inr ⟨_, _, .short hshort hd (hnext hshort), hmore⟩

theorem piece_or_terminal (text : List Char) :
    (∃ piece c rest, Piece piece c ∧ text = piece ++ rest) ∨ Terminal text := by
  rcases text with _ | ⟨c, more⟩
  · exact .inr .nothing
  by_cases hq : c = '"'
  · subst hq
    exact .inr (.quote more)
  by_cases hb : c = '\\'
  · subst hb
    rcases more with _ | ⟨letter, more⟩
    · exact .inr .backslash
    by_cases hu : letter = 'u'
    · subst hu
      rcases code_piece_or_bad more with ⟨digits, c, rest, hpiece, rfl⟩ | ⟨digits, rest, hbad, rfl⟩
      · exact .inl ⟨_, c, rest, hpiece, rfl⟩
      · exact .inr (.bad hbad)
    by_cases hletter : ∃ c, (letter, c) ∈ letterEscapes
    · obtain ⟨c, hc⟩ := hletter
      exact .inl ⟨_, c, more, .letter hc, rfl⟩
    · exact .inr (.bad (.letter hu (not_exists.mp hletter)))
  · exact .inl ⟨_, c, more, .ordinary hq hb, rfl⟩

theorem Piece.length_pos {piece : List Char} {c : Char} (h : Piece piece c) :
    0 < piece.length := by
  cases h <;> simp

/-- Pieces are taken off for as long as one comes first, which each time leaves a shorter text. -/
theorem exists_pieces (text : List Char) : ∃ pieces decoded tail,
    List.Forall₂ Piece pieces decoded ∧ text = pieces.flatten ++ tail ∧ Terminal tail := by
  rcases piece_or_terminal text with ⟨piece, c, rest, hpiece, htext⟩ | hterminal
  · obtain ⟨pieces, decoded, tail, hpieces, hrest, hterminal⟩ := exists_pieces rest
    refine ⟨piece :: pieces, c :: decoded, tail, .cons hpiece hpieces, ?_, hterminal⟩
    rw [htext, hrest, List.flatten_cons, List.append_assoc]
  · exact ⟨[], [], text, .nil, rfl, hterminal⟩
termination_by text.length
decreasing_by
  have hpos := hpiece.length_pos
  rw [htext, List.length_append]
  omega

/-- Every text decides what the scan answers. -/
theorem exists_ends (start : Position) (src : Source) : ∃ reply, Ends start src reply := by
  obtain ⟨pieces, text, tail, hpieces, hrest, hterminal⟩ := exists_pieces src.rest
  cases hterminal with
  | quote rest => exact ⟨_, .closed hpieces hrest⟩
  | nothing => exact ⟨_, .cut hpieces (.inl (hrest.trans (List.append_nil _)))⟩
  | backslash => exact ⟨_, .cut hpieces (.inr hrest)⟩
  | bad hbad => exact ⟨_, .bad hpieces hbad hrest⟩

theorem newline_not_mem_writeChar (c : Char) : '\n' ∉ writeChar c := by
  unfold writeChar
  split
  case h_8 hline _ _ _ _ =>
    intro hmem
    exact hline (List.mem_singleton.mp hmem).symm
  all_goals decide

/-- The scan of a literal: the first thing in the text that is no piece decides what it answers and
where it stops. What was written is read back, without newlines, and what follows it is left. -/
theorem scan_decodes_literals (start : Position) :
    (∀ src reply, scan start src = reply ↔ Ends start src reply) ∧
    ∀ text rest offset line, ∃ printed, write text = '"' :: printed ∧
      scan start ⟨printed ++ rest, offset, line⟩ =
        (.ok ⟨text, 0⟩, ⟨rest, offset + printed.length, line⟩) := by
  refine ⟨fun src reply => ⟨?_, Ends.scan_eq⟩, fun text rest offset line => ?_⟩
  · rintro rfl
    obtain ⟨reply, hends⟩ := exists_ends start src
    rwa [hends.scan_eq]
  · refine ⟨text.flatMap writeChar ++ ['"'], rfl, ?_⟩
    have hcount : (text.flatMap writeChar).count '\n' = 0 := by
      refine List.count_eq_zero.mpr fun hmem => ?_
      obtain ⟨c, _, hc⟩ := List.mem_flatMap.mp hmem
      exact newline_not_mem_writeChar c hc
    simp only [scan, List.append_assoc, List.cons_append, List.nil_append,
      scanFrom_of_spells (spells_flatMap_writeChar text), hcount, Nat.zero_add, List.length_append,
      List.length_cons, List.length_nil]
    rfl

end Quoted

end TableLisp

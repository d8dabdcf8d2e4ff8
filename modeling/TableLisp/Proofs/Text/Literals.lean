import TableLisp.Proofs.Text.Digits
import TableLisp.Reader.Form

/-! String and character literals. What they denote is stated by tables and by the codes of
characters, apart from how they are read, and reading them finds exactly that. -/

namespace TableLisp

namespace Quoted

/-- The letters that may stand behind a backslash, with what they stand for. -/
def letterEscapes : List (Char × Char) :=
  [('n', '\n'), ('t', '\t'), ('r', '\r'), ('b', '\x08'), ('f', '\x0c'), ('\\', '\\'), ('"', '"')]

/-- A piece of a literal and the character that it stands for. -/
inductive Piece : List Char → Char → Prop where
  | ordinary {c : Char} : c ≠ '"' → c ≠ '\\' → Piece [c] c
  | letter {letter c : Char} : (letter, c) ∈ letterEscapes → Piece ['\\', letter] c
  | code {digits : List Char} {c : Char} : digits.length = 4 →
      Text.Positional 16 digits c.toNat → Piece ('\\' :: 'u' :: digits) c

/-- What stands between the quotes, and the text that it denotes. -/
inductive Spells : List Char → List Char → Prop where
  | nil : Spells [] []
  | cons {piece body text : List Char} {c : Char} : Piece piece c → Spells body text →
      Spells (piece ++ body) (c :: text)

theorem escape?_eq_some_iff {letter c : Char} :
    escape? letter = some c ↔ (letter, c) ∈ letterEscapes := by
  constructor
  · intro h
    unfold escape? at h
    split at h <;> cases h <;> decide
  · intro h
    have hall : ∀ e ∈ letterEscapes, escape? e.1 = some e.2 := by decide
    exact hall (letter, c) h

theorem exists_four {digits : List Char} (h : digits.length = 4) :
    ∃ x y z w, digits = [x, y, z, w] := by
  rcases digits with _ | ⟨x, _ | ⟨y, _ | ⟨z, _ | ⟨w, _ | ⟨v, more⟩⟩⟩⟩⟩
  case cons.cons.cons.cons.nil => exact ⟨x, y, z, w, rfl⟩
  all_goals simp at h

theorem Piece.newline {piece : List Char} {c : Char} (h : Piece piece c) :
    piece = ['\n'] ∨ '\n' ∉ piece := by
  cases h with
  | ordinary _ _ =>
    by_cases hc : c = '\n'
    · exact .inl (by rw [hc])
    · exact .inr (by simpa using Ne.symm hc)
  | letter hmem =>
    refine .inr ?_
    have hall : ∀ e ∈ letterEscapes, '\n' ∉ ['\\', e.1] := by decide
    exact hall _ hmem
  | code _ hcode =>
    refine .inr ?_
    rintro (_ | ⟨_, _ | ⟨_, hmem⟩⟩)
    exact absurd (hcode.isDigitOf _ hmem) (by decide)

theorem piece_writeChar (c : Char) : Piece (writeChar c) c := by
  unfold writeChar
  split
  case h_8 hquote hslash _ _ _ _ _ => exact .ordinary hquote hslash
  all_goals exact .letter (by decide)

theorem spells_flatMap_writeChar (text : List Char) : Spells (text.flatMap writeChar) text := by
  induction text with
  | nil => exact .nil
  | cons c text ih => exact .cons (piece_writeChar c) ih

/-- A literal with a text in front of its own. -/
def Literal.prepend (text : List Char) (lit : Literal) : Literal :=
  { lit with text := text ++ lit.text }

theorem map_prepend_cons (c : Char) (text : List Char) (result : Except Error Literal) :
    (result.map (Literal.prepend text)).map (Literal.cons c) =
      result.map (Literal.prepend (c :: text)) := by
  cases result <;> rfl

/-- One turn of the scan takes a piece; only a newline by itself counts. -/
theorem scanFrom_piece {start : Position} {piece : List Char} {c : Char} (h : Piece piece c)
    (tail : List Char) (offset newlines : Nat) :
    scanFrom start (piece ++ tail) offset newlines =
      let behind := scanFrom start tail (offset + piece.length) (newlines + piece.count '\n')
      (behind.1.map (.cons c), behind.2) := by
  cases h with
  | ordinary hq hb =>
    have hlines : (if c = '\n' then newlines + 1 else newlines) = newlines + [c].count '\n' := by
      by_cases hc : c = '\n'
      · simp [hc]
      · simp [hc]
    rw [List.singleton_append, scanFrom, hlines]
    · rfl
    · exact hq
    · exact fun h => absurd h hb
    · exact fun _ h => absurd h hb
    · exact fun _ _ h => absurd h hb
  | @letter letter _ hmem =>
    have hescape := escape?_eq_some_iff.mpr hmem
    have hu : letter ≠ 'u' := by rintro rfl; cases hescape
    have hn : letter ≠ '\n' := by rintro rfl; cases hescape
    have hlines : ['\\', letter].count '\n' = 0 := by simp [hn]
    rw [hlines, List.cons_append, List.cons_append, scanFrom, hescape]
    · rfl
    · exact hu
  | code hlen hcode =>
    obtain ⟨x, y, z, w, rfl⟩ := exists_four hlen
    have hlines : ('\\' :: 'u' :: [x, y, z, w]).count '\n' = 0 := by
      refine List.count_eq_zero.mpr ((Piece.code hlen hcode).newline.resolve_left ?_)
      simp
    have hvalue := Text.ofHexCode?_eq_some_iff.mpr ⟨hlen, hcode⟩
    rw [hlines]
    simp only [List.cons_append, List.nil_append, scanFrom, hvalue]
    rfl

/-- What is spelled is read, and the scan goes on behind it. -/
theorem scanFrom_append {start : Position} {body text : List Char} (h : Spells body text)
    (tail : List Char) (offset newlines : Nat) :
    scanFrom start (body ++ tail) offset newlines =
      let behind := scanFrom start tail (offset + body.length) (newlines + body.count '\n')
      (behind.1.map (.prepend text), behind.2) := by
  induction h generalizing offset newlines with
  | nil =>
    rcases hscan : scanFrom start tail offset newlines with ⟨e | lit, left⟩ <;>
      simp [hscan, Except.map, Literal.prepend]
  | cons hpiece _ ih =>
    rw [List.append_assoc, scanFrom_piece hpiece, ih, List.length_append, List.count_append,
      Nat.add_assoc, Nat.add_assoc]
    exact Prod.ext (map_prepend_cons _ _ _) rfl

theorem scanFrom_of_spells {start : Position} {body text : List Char} (h : Spells body text)
    (rest : List Char) (offset newlines : Nat) :
    scanFrom start (body ++ '"' :: rest) offset newlines =
      (.ok ⟨text, newlines + body.count '\n'⟩, rest, offset + body.length + 1) := by
  rw [scanFrom_append h, scanFrom]
  simp [Except.map, Literal.prepend]

theorem cons_of_map {char : Char} {result : Except Error Literal} {lit : Literal}
    {rest rest' : List Char} {after after' : Nat}
    (h : (result.map (.cons char), rest', after') = (.ok lit, rest, after)) :
    ∃ lit', lit = .cons char lit' ∧ result = .ok lit' ∧
      (result, rest', after') = (.ok lit', rest, after) := by
  cases result with
  | error e => cases h
  | ok lit' => cases h; exact ⟨lit', rfl, rfl, rfl⟩

theorem spells_of_scanFrom {start : Position} {src rest : List Char} {offset newlines after : Nat}
    {lit : Literal} (h : scanFrom start src offset newlines = (.ok lit, rest, after)) :
    ∃ body, src = body ++ '"' :: rest ∧ Spells body lit.text := by
  fun_induction scanFrom start src offset newlines generalizing lit with
  | case2 more offset newlines => cases h; exact ⟨[], rfl, .nil⟩
  | case4 offset newlines a b c d tail char hd result rest' offset' hs ih =>
    obtain ⟨lit', rfl, rfl, hrest⟩ := cons_of_map h
    obtain ⟨body, rfl, hbody⟩ := ih (hs.trans hrest)
    obtain ⟨hlen, hcode⟩ := Text.ofHexCode?_eq_some_iff.mp hd
    exact ⟨'\\' :: 'u' :: [a, b, c, d] ++ body, by simp, .cons (.code hlen hcode) hbody⟩
  | case7 letter more offset newlines hu char he result rest' offset' hs ih =>
    obtain ⟨lit', rfl, rfl, hrest⟩ := cons_of_map h
    obtain ⟨body, rfl, hbody⟩ := ih (hs.trans hrest)
    exact ⟨'\\' :: letter :: body, rfl, .cons (.letter (escape?_eq_some_iff.mp he)) hbody⟩
  | case9 c more offset newlines hq hb₁ hb₂ hb₃ result rest' offset' hs ih =>
    obtain ⟨lit', rfl, rfl, hrest⟩ := cons_of_map h
    obtain ⟨body, rfl, hbody⟩ := ih (hs.trans hrest)
    have hb : c ≠ '\\' := by
      intro hc
      cases hm : body ++ '"' :: rest with
      | nil => simp at hm
      | cons letter more => exact hb₃ letter more hc hm
    exact ⟨c :: body, rfl, .cons (.ordinary hq hb) hbody⟩
  | _ => cases h

end Quoted

namespace Reader

/-- The names of characters. -/
def charNames : List (String × Char) :=
  [("newline", '\n'), ("space", ' '), ("tab", '\t'), ("backspace", '\x08'), ("formfeed", '\x0c'),
    ("return", '\r')]

/-- What stands behind the backslash of a character literal, and the character that it denotes. -/
inductive CharLiteral : List Char → Char → Prop where
  | single (c : Char) : CharLiteral [c] c
  | named {name : String} {c : Char} : (name, c) ∈ charNames → CharLiteral name.toList c
  | code {digits : List Char} {c : Char} : digits.length = 4 → Text.Positional 16 digits c.toNat →
      CharLiteral ('u' :: digits) c

theorem mem_namedChars_iff {entry : String × Char} : entry ∈ namedChars ↔ entry ∈ charNames := by
  have hperm : namedChars.Perm charNames := by decide
  exact hperm.mem_iff

theorem decodeChar?_eq_some_iff {literal : List Char} {c : Char} :
    decodeChar? literal = some c ↔ CharLiteral literal c := by
  constructor
  · intro h
    unfold decodeChar? at h
    split at h
    · cases h; exact .single c
    · split at h
      · rename_i hf
        cases h
        have hname := List.find?_some hf
        rw [← beq_iff_eq.mp hname]
        exact .named (mem_namedChars_iff.mp (List.mem_of_find?_eq_some hf))
      · split at h
        · obtain ⟨hlen, hcode⟩ := Text.ofHexCode?_eq_some_iff.mp h
          exact .code hlen hcode
        · cases h
  · intro h
    cases h with
    | single c => rfl
    | named hmem =>
      have hall : ∀ entry ∈ charNames, decodeChar? entry.1.toList = some entry.2 := by decide
      exact hall _ hmem
    | code hlen hcode =>
      obtain ⟨x, y, z, w, rfl⟩ := Quoted.exists_four hlen
      have hnone : namedChars.find? (·.1.toList == ['u', x, y, z, w]) = none := by
        simp [namedChars]
      simp only [decodeChar?, hnone, Text.ofHexCode?_eq_some_iff.mpr ⟨hlen, hcode⟩]

end Reader

theorem takeWhile_run {p : Char → Bool} {run rest : List Char} (hrun : ∀ c ∈ run, p c = true)
    (hrest : ∀ c, rest.head? = some c → p c = false) :
    (run ++ rest).takeWhile p = run ∧ (run ++ rest).dropWhile p = rest := by
  have hnone : rest.takeWhile p = [] ∧ rest.dropWhile p = rest := by
    cases rest with
    | nil => exact ⟨rfl, rfl⟩
    | cons c more => simp [hrest c rfl]
  simp [List.takeWhile_append_of_pos hrun, List.dropWhile_append_of_pos hrun, hnone]

namespace Source

theorem span_append {p : Char → Bool} {run rest : List Char} (hrun : ∀ c ∈ run, p c = true)
    (hrest : ∀ c, rest.head? = some c → p c = false) (offset line : Nat) :
    span p ⟨run ++ rest, offset, line⟩ = (run, ⟨rest, offset + run.length, line⟩) := by
  simp [span, takeWhile_run hrun hrest]

theorem span_spec (p : Char → Bool) (src : Source) :
    (∀ c ∈ (src.span p).1, p c = true) ∧
      ∀ c, (src.span p).2.rest.head? = some c → p c = false := by
  constructor
  · intro c hc
    exact List.all_eq_true.mp List.all_takeWhile c hc
  · intro c hc
    have hnot := List.head?_dropWhile_not p src.rest
    rw [show (src.rest.dropWhile p).head? = some c from hc] at hnot
    exact hnot

end Source

end TableLisp

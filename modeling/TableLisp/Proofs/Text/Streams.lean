import Mathlib.Tactic.SplitIfs
import TableLisp.Text.Stream

/-! A stream is a list of characters with a cursor, whatever it is made of and in whichever order it
is asked. What it starts with is the text, or what the lines of bytes stand for up to the first that
is not UTF-8. As no character but the newline has a newline byte in its encoding, the lines of a text
that is encoded are those of the text, so that it makes no difference how a text is given. -/

namespace TableLisp

namespace Text

/-- The bytes of the characters in UTF-8. -/
def utf8 (chars : List Char) : List UInt8 := chars.flatMap String.utf8EncodeChar

variable {chars more : List Char} {bytes body rest : List UInt8} {c : Char}

@[simp] theorem utf8_nil : utf8 [] = [] := rfl

@[simp] theorem utf8_append : utf8 (chars ++ more) = utf8 chars ++ utf8 more := List.flatMap_append

theorem toArray_utf8 (chars : List Char) :
    (⟨(utf8 chars).toArray⟩ : ByteArray) = (String.ofList chars).toByteArray := by
  ext1
  simp [utf8, List.utf8Encode]

theorem toUTF8_eq_utf8 (text : String) : text.toUTF8.data.toList = utf8 text.toList := by
  have harray := congrArg ByteArray.data (toArray_utf8 text.toList)
  rw [String.ofList_toList] at harray
  rw [String.toUTF8_eq_toByteArray, ← harray]

theorem fromUTF8?_eq_some_iff {array : ByteArray} {text : String} :
    String.fromUTF8? array = some text ↔ text.toByteArray = array := by
  unfold String.fromUTF8?
  constructor
  · intro h
    split at h
    · cases h
      rfl
    · cases h
  · rintro rfl
    rw [dif_pos text.isValidUTF8]
    rfl

theorem ofUtf8?_eq_some_iff : ofUtf8? bytes = some chars ↔ utf8 chars = bytes := by
  rw [ofUtf8?, Option.map_eq_some_iff]
  constructor
  · rintro ⟨text, htext, rfl⟩
    rw [← toUTF8_eq_utf8, String.toUTF8_eq_toByteArray, fromUTF8?_eq_some_iff.mp htext]
  · rintro rfl
    exact ⟨String.ofList chars, fromUTF8?_eq_some_iff.mpr (toArray_utf8 chars).symm,
      String.toList_ofList⟩

theorem utf8_injective : Function.Injective utf8 := by
  intro chars more h
  have hdecoded := ofUtf8?_eq_some_iff.mpr h
  rwa [ofUtf8?_eq_some_iff.mpr rfl, Option.some.injEq, eq_comm] at hdecoded

theorem ofUtf8?_eq_none_iff : ofUtf8? bytes = none ↔ ∀ chars, utf8 chars ≠ bytes := by
  rw [Option.eq_none_iff_forall_ne_some]
  exact forall_congr' fun chars => not_congr ofUtf8?_eq_some_iff

/-- Only the newline has a newline byte in its encoding: all bytes of a longer encoding are greater
than those of a shorter one. -/
theorem newline_mem_encodeChar (h : 10 ∈ String.utf8EncodeChar c) : c = '\n' := by
  have hbyte : ∀ {n : Nat}, 10 = UInt8.ofNat n → n % 256 = 10 := by
    intro n hn
    simpa using (congrArg UInt8.toNat hn).symm
  have hcode : c.val.toNat = 10 := by
    unfold String.utf8EncodeChar at h
    dsimp only at h
    split_ifs at h <;> simp only [List.mem_cons, List.not_mem_nil, or_false] at h
    · have := hbyte h
      omega
    · rcases h with h | h <;> have := hbyte h <;> omega
    · rcases h with h | h | h <;> have := hbyte h <;> omega
    · rcases h with h | h | h | h <;> have := hbyte h <;> omega
  exact Char.ext (UInt32.toNat_inj.mp hcode)

theorem newline_not_mem_utf8 (h : '\n' ∉ chars) : 10 ∉ utf8 chars := by
  intro hmem
  obtain ⟨c, hc, hbyte⟩ := List.mem_flatMap.mp hmem
  exact h (newline_mem_encodeChar hbyte ▸ hc)

/-- Bytes that are cut behind each newline byte. -/
inductive LinesOf : List UInt8 → List (List UInt8) → Prop where
  | nil : LinesOf [] []
  | last {body : List UInt8} : body ≠ [] → 10 ∉ body → LinesOf body [body]
  | ended {body more : List UInt8} {lines : List (List UInt8)} : 10 ∉ body → LinesOf more lines →
      LinesOf (body ++ 10 :: more) ((body ++ [10]) :: lines)

theorem byteLines_ended (h : 10 ∉ body) :
    byteLines (body ++ 10 :: rest) = (body ++ [10]) :: byteLines rest := by
  induction body with
  | nil => simp [byteLines]
  | cons b body ih =>
    obtain ⟨hb, hbody⟩ := not_or.mp (mt List.mem_cons.mpr h)
    simp [byteLines, ih hbody, Ne.symm hb]

theorem byteLines_last (hne : body ≠ []) (h : 10 ∉ body) : byteLines body = [body] := by
  induction body with
  | nil => exact absurd rfl hne
  | cons b body ih =>
    obtain ⟨hb, hbody⟩ := not_or.mp (mt List.mem_cons.mpr h)
    cases body with
    | nil => simp [byteLines, Ne.symm hb]
    | cons b' body => rw [byteLines, if_neg (Ne.symm hb), ih (by simp) hbody]

/-- A text without the separator is its last line; any other begins with a line that ends in one. -/
@[elab_as_elim]
theorem line_induction {α : Type} {sep : α} {P : List α → Prop} (last : ∀ body, sep ∉ body → P body)
    (ended : ∀ body more, sep ∉ body → P more → P (body ++ sep :: more)) (text : List α) :
    P text := by
  by_cases hsep : sep ∈ text
  · obtain ⟨body, more, htext, hbody⟩ := List.eq_append_cons_of_mem hsep
    rw [htext]
    exact ended body more hbody (line_induction last ended more)
  · exact last text hsep
termination_by text.length
decreasing_by
  rw [htext, List.length_append, List.length_cons]
  omega

theorem linesOf_byteLines (bytes : List UInt8) : LinesOf bytes (byteLines bytes) := by
  induction bytes using line_induction with
  | last body hbody =>
    by_cases hne : body = []
    · subst hne
      exact .nil
    · rw [byteLines_last hne hbody]
      exact .last hne hbody
  | ended body more hbody ih =>
    rw [byteLines_ended hbody]
    exact .ended hbody ih

/-- A text comes back from the lines of its encoding. -/
theorem decodeLines_utf8 (chars : List Char) : decodeLines (byteLines (utf8 chars)) = chars := by
  induction chars using line_induction with
  | last body hbody =>
    cases body with
    | nil => rfl
    | cons c more =>
      have hne : utf8 (c :: more) ≠ [] := fun h => List.cons_ne_nil c more (utf8_injective h)
      rw [byteLines_last hne (newline_not_mem_utf8 hbody), decodeLines,
        ofUtf8?_eq_some_iff.mpr rfl, decodeLines]
      simp
  | ended body more hbody ih =>
    have hline : utf8 (body ++ ['\n']) = utf8 body ++ [10] := utf8_append
    have hutf8 : utf8 (body ++ '\n' :: more) = utf8 body ++ 10 :: utf8 more := utf8_append
    rw [hutf8, byteLines_ended (newline_not_mem_utf8 hbody), decodeLines,
      ofUtf8?_eq_some_iff.mpr hline, ih]
    simp

theorem decodeLines_spec (lines : List (List UInt8)) :
    ∃ good bad, lines = good ++ bad ∧ (∀ line ∈ good, ∃ chars, utf8 chars = line) ∧
      (∀ line, bad.head? = some line → ∀ chars, utf8 chars ≠ line) ∧
      utf8 (decodeLines lines) = good.flatten := by
  induction lines with
  | nil => exact ⟨[], [], rfl, by simp, by simp, rfl⟩
  | cons line lines ih =>
    cases hline : ofUtf8? line with
    | none =>
      refine ⟨[], line :: lines, rfl, by simp, ?_, by simp [decodeLines, hline]⟩
      rintro _ ⟨⟩
      exact ofUtf8?_eq_none_iff.mp hline
    | some chars =>
      obtain ⟨good, bad, rfl, hgood, hbad, hdecoded⟩ := ih
      have hchars := ofUtf8?_eq_some_iff.mp hline
      refine ⟨line :: good, bad, rfl, ?_, hbad, ?_⟩
      · exact List.forall_mem_cons.mpr ⟨⟨chars, hchars⟩, hgood⟩
      · rw [decodeLines, hline, utf8_append, hdecoded, hchars, List.flatten_cons]

end Text

namespace LineBuffer

/-- The characters that a buffer still gives. -/
def remaining (buffer : LineBuffer) : List Char :=
  buffer.pending ++ if buffer.exhausted then [] else Text.decodeLines buffer.lines

theorem fill_spec (lines : List (List UInt8)) : (fill lines).remaining = Text.decodeLines lines ∧
    ((fill lines).pending = [] → (fill lines).exhausted = true) := by
  induction lines with
  | nil => exact ⟨rfl, fun _ => rfl⟩
  | cons line lines ih =>
    rw [fill, Text.decodeLines]
    cases Text.ofUtf8? line with
    | none => exact ⟨rfl, fun _ => rfl⟩
    | some chars =>
      cases chars with
      | nil => exact ih
      | cons c more => exact ⟨rfl, by simp⟩

theorem next_spec (buffer : LineBuffer) :
    buffer.next.1 = buffer.remaining.head? ∧ buffer.next.2.remaining = buffer.remaining.tail := by
  -- once filled, a buffer without a pending character is exhausted
  have hfilled : ∀ filled : LineBuffer, (filled.pending = [] → filled.exhausted = true) →
      filled.pending.head? = filled.remaining.head? ∧
        remaining { filled with pending := filled.pending.tail } = filled.remaining.tail := by
    rintro ⟨lines, pending, exhausted⟩ h
    cases pending with
    | nil => simp [remaining, show exhausted = true from h rfl]
    | cons c more => simp [remaining]
  unfold next
  dsimp only
  split
  · rename_i hfill
    simp only [Bool.and_eq_true, List.isEmpty_iff, Bool.not_eq_true'] at hfill
    obtain ⟨hfills, hexhausted⟩ := fill_spec buffer.lines
    have hsame : (fill buffer.lines).remaining = buffer.remaining := by
      rw [hfills, remaining, hfill.1, hfill.2]
      rfl
    rw [← hsame]
    exact hfilled _ hexhausted
  · rename_i hkeep
    refine hfilled buffer fun hnil => ?_
    simpa [hnil] using hkeep

end LineBuffer

namespace Supply

def remaining : Supply → List Char
  | .text chars taken => chars.toList.drop taken
  | .bytes buffer => buffer.remaining

theorem next_spec (supply : Supply) :
    supply.next.1 = supply.remaining.head? ∧ supply.next.2.remaining = supply.remaining.tail := by
  cases supply with
  | bytes buffer => exact buffer.next_spec
  | text chars taken =>
    have hhead : (chars.toList.drop taken).head? = chars[taken]? := by
      rw [List.head?_drop, Array.getElem?_toList]
    rw [next, remaining, hhead]
    cases hchar : chars[taken]? with
    | some c => exact ⟨rfl, List.tail_drop.symm⟩
    | none =>
      have hnil : chars.toList.drop taken = [] := List.head?_eq_none_iff.mp (hhead.trans hchar)
      exact ⟨rfl, by rw [remaining, hnil]; rfl⟩

end Supply

namespace Stream

/-- What a stream can be asked. -/
inductive Call where
  | advance
  | peek
  | unread (c : Char)
  | isFinished
  | offset
  deriving DecidableEq, Repr

inductive Answer where
  | char (c : Option Char)
  | done
  | flag (b : Bool)
  | count (n : Nat)
  deriving DecidableEq, Repr

def answer (s : Stream) : Call → Answer × Stream
  | .advance => (.char s.advance.1, s.advance.2)
  | .peek => (.char s.peek.1, s.peek.2)
  | .unread c => (.done, s.unread c)
  | .isFinished => (.flag s.isFinished.1, s.isFinished.2)
  | .offset => (.count s.offset, s)

end Stream

/-- What a list with a cursor answers. -/
def Source.answer (src : Source) : Stream.Call → Stream.Answer × Source
  | .advance =>
    match src.next? with
    | some (c, after) => (.char (some c), after)
    | none => (.char none, src)
  | .peek => (.char src.peek?, src)
  | .unread c => (.done, src.unread c)
  | .isFinished => (.flag src.isFinished, src)
  | .offset => (.count src.offset, src)

namespace Stream

/-- The answers to calls, one after the other. -/
def answers {σ : Type} (answer : σ → Call → Answer × σ) : List Call → σ → List Answer
  | [], _ => []
  | call :: calls, s => (answer s call).1 :: answers answer calls (answer s call).2

/-- The stream stands where the cursor stands. -/
structure Shows (s : Stream) (src : Source) : Prop where
  rest : src.rest = s.pushback ++ s.supply.remaining
  offset : src.offset = s.offset
  finished : s.finished = true → src.rest = []

variable {s : Stream} {src : Source}

theorem shows_ofSupply {supply : Supply} {chars : List Char} (h : supply.remaining = chars) :
    (ofSupply supply).Shows (.ofChars chars) where
  rest := h.symm
  offset := rfl
  finished := by simp [ofSupply]

theorem Shows.unread (h : s.Shows src) (c : Char) : (s.unread c).Shows (src.unread c) where
  rest := by simp [Stream.unread, h.rest]
  offset := by simp [Stream.unread, Source.unread, h.offset]
  finished := by simp [Stream.unread]

theorem Shows.advance_some {c : Char} {after : Source} (h : s.Shows src)
    (hnext : src.next? = some (c, after)) : ∃ s', s.advance = (some c, s') ∧ s'.Shows after := by
  obtain ⟨rest, offset, line⟩ := src
  obtain ⟨supply, pushback, finished, offset'⟩ := s
  obtain ⟨hrest, hoffset, hfinished⟩ := h
  cases rest with
  | nil => cases hnext
  | cons first more =>
    cases hnext
    have hopen : finished = false := Bool.eq_false_iff.mpr fun hend => by cases hfinished hend
    subst hopen
    have hoffset' : offset + 1 = offset' + 1 := congrArg (· + 1) hoffset
    cases pushback with
    | cons back backs =>
      obtain ⟨rfl, rfl⟩ := List.cons.inj hrest
      exact ⟨_, rfl, rfl, hoffset', fun hend => by cases hend⟩
    | nil =>
      obtain ⟨hhead, htail⟩ := supply.next_spec
      rw [show supply.remaining = c :: more from hrest.symm] at hhead htail
      rcases hsupply : supply.next with ⟨found, supply'⟩
      rw [hsupply] at hhead htail
      obtain rfl : found = some c := hhead
      simp only [advance, Bool.false_eq_true, if_false, hsupply]
      exact ⟨_, rfl, htail.symm, hoffset', fun hend => by cases hend⟩

theorem Shows.advance_none (h : s.Shows src) (hnil : src.rest = []) :
    ∃ s', s.advance = (none, s') ∧ s'.Shows src ∧ s'.finished = true := by
  obtain ⟨hpushback, hremaining⟩ := List.append_eq_nil_iff.mp (h.rest.symm.trans hnil)
  cases hfinished : s.finished with
  | true =>
    simp only [advance, hpushback, hfinished, if_true]
    exact ⟨s, rfl, h, hfinished⟩
  | false =>
    obtain ⟨hhead, htail⟩ := s.supply.next_spec
    rw [hremaining] at hhead htail
    rcases hsupply : s.supply.next with ⟨found, supply'⟩
    rw [hsupply] at hhead htail
    obtain rfl : found = none := hhead
    simp only [advance, hpushback, hfinished, Bool.false_eq_true, if_false, hsupply]
    exact ⟨_, rfl, ⟨hnil.trans htail.symm, h.offset, fun _ => hnil⟩, rfl⟩

/-- Looking at a character leaves the cursor where it is, also if it is read and put back for that. -/
theorem Shows.peek (h : s.Shows src) : ∃ s', s.peek = (src.peek?, s') ∧ s'.Shows src ∧
    s'.finished = src.isFinished := by
  obtain ⟨rest, offset, line⟩ := src
  cases rest with
  | nil =>
    obtain ⟨s', hadvance, hshows, hfinished⟩ := h.advance_none rfl
    exact ⟨s', by rw [Stream.peek, hadvance]; rfl, hshows, hfinished⟩
  | cons c more =>
    obtain ⟨s', hadvance, hshows⟩ := h.advance_some rfl
    exact ⟨s'.unread c, by rw [Stream.peek, hadvance]; rfl, hshows.unread c, rfl⟩

theorem Shows.isFinished (h : s.Shows src) :
    ∃ s', s.isFinished = (src.isFinished, s') ∧ s'.Shows src := by
  unfold Stream.isFinished
  split
  · split
    · rename_i hfinished
      exact ⟨s, by simp [Source.isFinished, h.finished hfinished], h⟩
    · obtain ⟨s', hpeek, hshows, hfinished⟩ := h.peek
      exact ⟨s', by rw [hpeek, ← hfinished], hshows⟩
  · rename_i hpushback
    refine ⟨s, ?_, h⟩
    rw [Source.isFinished, h.rest]
    simp_all

/-- A stream answers as the list with a cursor does, and goes on to stand where that stands. -/
theorem Shows.answer (h : s.Shows src) (call : Call) :
    ∃ s', s.answer call = ((src.answer call).1, s') ∧ s'.Shows (src.answer call).2 := by
  cases call with
  | advance =>
    obtain ⟨rest, offset, line⟩ := src
    cases rest with
    | nil =>
      obtain ⟨s', hadvance, hshows, _⟩ := h.advance_none rfl
      exact ⟨s', by rw [Stream.answer, hadvance]; rfl, hshows⟩
    | cons c more =>
      obtain ⟨s', hadvance, hshows⟩ := h.advance_some rfl
      exact ⟨s', by rw [Stream.answer, hadvance]; rfl, hshows⟩
  | peek =>
    obtain ⟨s', hpeek, hshows, _⟩ := h.peek
    exact ⟨s', by rw [Stream.answer, hpeek]; rfl, hshows⟩
  | unread c => exact ⟨s.unread c, rfl, h.unread c⟩
  | isFinished =>
    obtain ⟨s', hfinished, hshows⟩ := h.isFinished
    exact ⟨s', by rw [Stream.answer, hfinished]; rfl, hshows⟩
  | offset => exact ⟨s, by rw [Stream.answer, ← h.offset]; rfl, h⟩

theorem Shows.answers (h : s.Shows src) (calls : List Call) :
    Stream.answers Stream.answer calls s = Stream.answers Source.answer calls src := by
  induction calls generalizing s src with
  | nil => rfl
  | cons call calls ih =>
    obtain ⟨s', hanswer, hshows⟩ := h.answer call
    rw [Stream.answers, Stream.answers, hanswer, ih hshows]

theorem shows_ofText (text : String) : (ofText text).Shows (.ofText text) :=
  shows_ofSupply (by simp [Supply.remaining])

theorem shows_ofBytes (bytes : List UInt8) : (ofBytes bytes).Shows (.ofBytes bytes) :=
  shows_ofSupply rfl

/-- A stream is a list of characters with a cursor, in whichever order it is asked. The list is the
text, or what the first lines of the bytes stand for, as far as they are UTF-8. A text and its
encoding make the same list, so that no reader can tell them apart. -/
theorem stream_is_cursor :
    (∀ text calls, answers Stream.answer calls (ofText text) =
      answers Source.answer calls (.ofText text)) ∧
    (∀ bytes, ∃ good bad chars, Text.LinesOf bytes (good ++ bad) ∧
      (∀ line ∈ good, ∃ chars, Text.utf8 chars = line) ∧
      (∀ line, bad.head? = some line → ∀ chars, Text.utf8 chars ≠ line) ∧
      Text.utf8 chars = good.flatten ∧ Source.ofBytes bytes = .ofChars chars ∧
      ∀ calls, answers Stream.answer calls (ofBytes bytes) =
        answers Source.answer calls (.ofChars chars)) ∧
    (∀ text : String, Source.ofBytes text.toUTF8.data.toList = .ofText text ∧
      ∀ calls, answers Stream.answer calls (ofBytes text.toUTF8.data.toList) =
        answers Stream.answer calls (ofText text)) := by
  have hencoded : ∀ text : String, Source.ofBytes text.toUTF8.data.toList = .ofText text := by
    intro text
    rw [Source.ofBytes, Text.toUTF8_eq_utf8, Text.decodeLines_utf8, Source.ofText]
  refine ⟨fun text calls => (shows_ofText text).answers calls, fun bytes => ?_, fun text => ?_⟩
  · obtain ⟨good, bad, hlines, hgood, hbad, hdecoded⟩ :=
      Text.decodeLines_spec (Text.byteLines bytes)
    refine ⟨good, bad, _, ?_, hgood, hbad, hdecoded, rfl, (shows_ofBytes bytes).answers⟩
    rw [← hlines]
    exact Text.linesOf_byteLines bytes
  · refine ⟨hencoded text, fun calls => ?_⟩
    rw [(shows_ofBytes _).answers, hencoded, (shows_ofText text).answers]

end Stream

end TableLisp

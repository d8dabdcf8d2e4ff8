import TableLisp.Text.Blank

/-!
A source of characters: those still to be read, how many were read, and the line that is being
read. A character that was read can be put back.
-/

namespace TableLisp

/-- A place in a text: lines count from one, characters from zero. -/
structure Position where
  line : Nat
  offset : Nat
  deriving DecidableEq, Repr

structure Source where
  rest : List Char
  offset : Nat
  line : Nat
  deriving DecidableEq, Repr

namespace Source

def ofChars (text : List Char) : Source := ⟨text, 0, 1⟩

def ofText (text : String) : Source := ofChars text.toList

def position (src : Source) : Position := ⟨src.line, src.offset⟩

/-- The place of the character that was read last. -/
def lastPosition (src : Source) : Position := ⟨src.line, src.offset - 1⟩

def next? (src : Source) : Option (Char × Source) :=
  match src.rest with
  | [] => none
  | c :: more => some (c, { src with rest := more, offset := src.offset + 1 })

def peek? (src : Source) : Option Char := src.rest.head?

def unread (c : Char) (src : Source) : Source :=
  { src with rest := c :: src.rest, offset := src.offset - 1 }

def isFinished (src : Source) : Bool := src.rest.isEmpty

def countLines (n : Nat) (src : Source) : Source := { src with line := src.line + n }

/-- Reads characters for as long as they satisfy `p`. -/
def span (p : Char → Bool) (src : Source) : List Char × Source :=
  let taken := src.rest.takeWhile p
  (taken, { src with rest := src.rest.dropWhile p, offset := src.offset + taken.length })

@[simp] theorem next?_ofChars_cons (c : Char) (text : List Char) :
    (ofChars (c :: text)).next? = some (c, ⟨text, 1, 1⟩) := rfl

@[simp] theorem rest_unread (c : Char) (src : Source) : (src.unread c).rest = c :: src.rest := rfl

theorem next?_eq_none_iff (src : Source) : src.next? = none ↔ src.isFinished = true := by
  cases src with
  | mk rest offset line => cases rest <;> simp [next?, isFinished]

/-- A character is read; while it satisfies `p` there is more to read, and the one that does not is
put back. -/
theorem span_eq (p : Char → Bool) (src : Source) :
    src.span p = match src.next? with
      | none => ([], src)
      | some (c, after) =>
        if p c then (c :: (after.span p).1, (after.span p).2) else ([], after.unread c) := by
  obtain ⟨rest, offset, line⟩ := src
  cases rest with
  | nil => rfl
  | cons c more =>
    cases hc : p c with
    | true => simp [span, next?, hc, Nat.add_comm, Nat.add_left_comm]
    | false => simp [span, next?, unread, hc]

theorem rest_span (p : Char → Bool) (src : Source) :
    (src.span p).1 ++ (src.span p).2.rest = src.rest := by
  simp [span]

theorem offset_span (p : Char → Bool) (src : Source) :
    (src.span p).2.offset = src.offset + (src.span p).1.length := rfl

theorem line_span (p : Char → Bool) (src : Source) : (src.span p).2.line = src.line := rfl

end Source

end TableLisp

import TableLisp.Text.Lines

/-!
A stream of characters, as they come. They are taken from a text in memory, or from bytes that are
decoded line by line when characters are asked for. Characters that were put back come first, and
the end is remembered once it was met.
-/

namespace TableLisp

structure LineBuffer where
  /-- The lines that were not taken yet. -/
  lines : List (List UInt8)
  /-- What is left of the line that was taken last. -/
  pending : List Char
  /-- Was the end met, or a line that is not UTF-8? -/
  exhausted : Bool

namespace LineBuffer

/-- Takes lines until there is a character, or there are no more. -/
def fill : List (List UInt8) → LineBuffer
  | [] => ⟨[], [], true⟩
  | line :: lines =>
    match Text.ofUtf8? line with
    | none => ⟨lines, [], true⟩
    | some [] => fill lines
    | some (c :: more) => ⟨lines, c :: more, false⟩

def next (buffer : LineBuffer) : Option Char × LineBuffer :=
  let filled := if buffer.pending.isEmpty && !buffer.exhausted then fill buffer.lines else buffer
  (filled.pending.head?, { filled with pending := filled.pending.tail })

end LineBuffer

inductive Supply where
  /-- A text, and how many of its characters were taken. -/
  | text (chars : Array Char) (taken : Nat)
  | bytes (buffer : LineBuffer)

def Supply.next : Supply → Option Char × Supply
  | .text chars taken =>
    match chars[taken]? with
    | some c => (some c, .text chars (taken + 1))
    | none => (none, .text chars taken)
  | .bytes buffer =>
    let (c, buffer) := buffer.next
    (c, .bytes buffer)

structure Stream where
  supply : Supply
  /-- What was put back, the last first. -/
  pushback : List Char
  /-- Was the end met, with nothing put back since? -/
  finished : Bool
  offset : Nat

namespace Stream

def ofSupply (supply : Supply) : Stream := ⟨supply, [], false, 0⟩

def ofText (text : String) : Stream := ofSupply (.text text.toList.toArray 0)

def ofBytes (bytes : List UInt8) : Stream := ofSupply (.bytes ⟨Text.byteLines bytes, [], false⟩)

def advance (s : Stream) : Option Char × Stream :=
  match s.pushback with
  | c :: more => (some c, { s with pushback := more, offset := s.offset + 1 })
  | [] =>
    if s.finished then (none, s)
    else
      match s.supply.next with
      | (some c, supply) => (some c, { s with supply, offset := s.offset + 1 })
      | (none, supply) => (none, { s with supply, finished := true })

def unread (c : Char) (s : Stream) : Stream :=
  { s with pushback := c :: s.pushback, offset := s.offset - 1, finished := false }

def peek (s : Stream) : Option Char × Stream :=
  match s.advance with
  | (some c, s) => (some c, s.unread c)
  | (none, s) => (none, s)

/-- Is there nothing left? A character is read to find out, unless the answer is known. -/
def isFinished (s : Stream) : Bool × Stream :=
  if s.pushback.isEmpty then
    if s.finished then (true, s)
    else
      let s := s.peek.2
      (s.finished, s)
  else (false, s)

end Stream

end TableLisp

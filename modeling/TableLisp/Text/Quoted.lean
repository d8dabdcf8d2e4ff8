import TableLisp.Error

/-!
String literals: text between double quotes in which a backslash begins an escape. `Quoted.write`
writes one, and `Quoted.scan` reads the rest of one after its opening quote. A newline may stand
in a literal as it is; how many did is part of the result.
-/

namespace TableLisp.Quoted

def escape? : Char → Option Char
  | 'n' => some '\n'
  | 't' => some '\t'
  | 'r' => some '\r'
  | 'b' => some '\x08'
  | 'f' => some '\x0c'
  | '\\' => some '\\'
  | '"' => some '"'
  | _ => none

def writeChar : Char → List Char
  | '"' => ['\\', '"']
  | '\\' => ['\\', '\\']
  | '\n' => ['\\', 'n']
  | '\t' => ['\\', 't']
  | '\r' => ['\\', 'r']
  | '\x08' => ['\\', 'b']
  | '\x0c' => ['\\', 'f']
  | c => [c]

def write (text : List Char) : List Char := '"' :: text.flatMap writeChar ++ ['"']

/-- A literal that was read: its text, and the newlines that stand in it unescaped. -/
structure Literal where
  text : List Char
  newlines : Nat
  deriving DecidableEq, Repr

def Literal.cons (c : Char) (lit : Literal) : Literal := { lit with text := c :: lit.text }

/-- Up to four hexadecimal digits, which is as far as an escape by code is read. -/
def codeDigits (text : List Char) : List Char := (text.take 4).takeWhile (Text.isDigitOf 16)

/-- An escape by code that names no character: its digits are read, what follows them is not. -/
def badCode (start : Position) (more : List Char) (offset newlines : Nat) :
    Except Error Literal × List Char × Nat :=
  let digits := codeDigits more
  (.error (.malformedText ⟨start.line + newlines, offset + 2⟩ (.unicodeEscape digits)),
    more.drop digits.length, offset + 2 + digits.length)

/-- Reads on in a literal that began at `start`, after `offset` characters of the text and after
`newlines` unescaped newlines of the literal. The answer has what was left unread and the offset
there. -/
def scanFrom (start : Position) :
    List Char → Nat → Nat → Except Error Literal × List Char × Nat
  | [], offset, _ => (.error (.openString start), [], offset)
  | '"' :: more, offset, newlines => (.ok ⟨[], newlines⟩, more, offset + 1)
  | ['\\'], offset, _ => (.error (.openString start), [], offset + 1)
  | '\\' :: 'u' :: more, offset, newlines =>
    match more with
    | a :: b :: c :: d :: tail =>
      match Text.ofHexCode? [a, b, c, d] with
      | some char =>
        let (result, rest, offset) := scanFrom start tail (offset + 6) newlines
        (result.map (.cons char), rest, offset)
      | none => badCode start more offset newlines
    | _ => badCode start more offset newlines
  | '\\' :: letter :: more, offset, newlines =>
    match escape? letter with
    | some char =>
      let (result, rest, offset) := scanFrom start more (offset + 2) newlines
      (result.map (.cons char), rest, offset)
    | none =>
      (.error (.malformedText ⟨start.line + newlines, offset + 2⟩ (.escape letter)), more,
        offset + 2)
  | c :: more, offset, newlines =>
    let (result, rest, offset) :=
      scanFrom start more (offset + 1) (if c = '\n' then newlines + 1 else newlines)
    (result.map (.cons c), rest, offset)

def scan (start : Position) (src : Source) : Except Error Literal × Source :=
  let (result, rest, offset) := scanFrom start src.rest src.offset 0
  (result, { src with rest := rest, offset := offset })

end TableLisp.Quoted

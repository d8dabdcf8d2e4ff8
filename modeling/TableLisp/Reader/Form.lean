import TableLisp.Datum.Equality
import TableLisp.Datum.Printer
import TableLisp.Reader.Table
import TableLisp.Text.Identifier

/-!
Reading forms. There is no separate pass for tokens: at each character the table is asked for a
handler; without one, the character is blank or begins a number or a name. A handler answers with a
form, or that a delimiter closes something, or that there is nothing to show for what it read, or
that the text ended where a form was due.

The handlers read nested forms through a function they are given, so that what they do can be
stated once for all such functions. Each nested form lies strictly further on in the text, which
bounds the nesting by the length of the text.
-/

namespace TableLisp

inductive Reading where
  | form (d : Datum)
  | close (delimiter : Char)
  | skip
  | eof
  | truncated (context : String) (pos : Position)

/-- A step of reading: its outcome or an error, and the source behind it. -/
abbrev ReadStep := Source → Except Error Reading × Source

namespace Reader

def stray (delimiter : Char) (src : Source) : Error :=
  .delimiter none (some delimiter) src.lastPosition

/-- The form that a prefix applies to. If the text ends first, the outcome names the prefix. -/
def operand (next : ReadStep) (context : String) (src : Source) : Except Error Reading × Source :=
  match next src with
  | (.ok (.close delimiter), src) => (.error (stray delimiter src), src)
  | (.ok .skip, after) => (.ok (.truncated context src.position), after)
  | (.ok .eof, after) => (.ok (.truncated context src.position), after)
  | outcome => outcome

/-- Reads an operand and makes a form of it; any other outcome is passed on. -/
def withOperand (next : ReadStep) (context : String) (make : Datum → Except Error Reading)
    (src : Source) : Except Error Reading × Source :=
  match operand next context src with
  | (.ok (.form d), src) => (make d, src)
  | outcome => outcome

def reduce (kind : Collection) (start : Position) (items : List Datum) :
    Except Error Reading :=
  match kind with
  | .list => .ok (.form (.list items))
  | .vector => .ok (.form (.vector items))
  | .map =>
    if items.length % 2 = 0 then
      .ok (.form (.ofPairs Datum.equalFixed (Entries.pairUp items)))
    else .error (.malformedText start (.oddMap items.length))

/-- Collects at most `bound` forms, up to the closer of the collection that began at `start`. The
forms collected so far are in reverse. -/
def collect (next : ReadStep) (kind : Collection) (start : Position) :
    (bound : Nat) → List Datum → Source → Except Error Reading × Source
  | 0, _, src => (.error (.delimiter (some kind.closer) none start), src)
  | bound + 1, items, src =>
    match next src with
    | (.error e, src) => (.error e, src)
    | (.ok (.form d), src) => collect next kind start bound (d :: items) src
    | (.ok .skip, src) => collect next kind start bound items src
    | (.ok (.close delimiter), src) =>
      if delimiter = kind.closer then (reduce kind start items.reverse, src)
      else (.error (.delimiter (some kind.closer) (some delimiter) start), src)
    | (.ok .eof, src) => (.error (.delimiter (some kind.closer) none start), src)
    | (.ok (.truncated _ _), src) => (.error (.delimiter (some kind.closer) none start), src)

def refuseKeyword (start : Position) (d : Datum) : Except Error Reading :=
  .error (.malformedText start (.keywordName (String.ofList (d.text .readable))))

def keywordOf (start : Position) : Datum → Except Error Reading
  | .symbol s => .ok (.form (.keyword s.name))
  | .string name =>
    if Text.isIdentifier name.toList then .ok (.form (.keyword name))
    else refuseKeyword start (.string name)
  | .nil => .ok (.form (.keyword "nil"))
  | .bool b => .ok (.form (.keyword (if b then "true" else "false")))
  | other => refuseKeyword start other

def decodeChar? (literal : List Char) : Option Char :=
  match literal with
  | [c] => some c
  | _ =>
    match namedChars.find? (·.1.toList == literal) with
    | some (_, c) => some c
    | none =>
      match literal with
      | 'u' :: digits => Text.ofHexCode? digits
      | _ => none

/-- A character literal. Its first character may be any, the others those of a token. -/
def readCharacter (d : Dialect) (src : Source) : Except Error Reading × Source :=
  match src.next? with
  | none => (.ok (.truncated "\\" src.position), src)
  | some (first, after) =>
    let (more, after) := after.span fun c => !d.endsToken c
    match decodeChar? (first :: more) with
    | some c => (.ok (.form (.char c)), after)
    | none => (.error (.character (first :: more) src.lastPosition), after)

/-- A string literal; the newlines in it are counted. -/
def readString (src : Source) : Except Error Reading × Source :=
  match Quoted.scan src.lastPosition src with
  | (.ok lit, after) =>
    (.ok (.form (.string (String.ofList lit.text))), after.countLines lit.newlines)
  | (.error e, after) => (.error e, after)

def ofToken (token : List Char) : Datum :=
  match String.ofList token with
  | "nil" => .nil
  | "true" => .bool true
  | "false" => .bool false
  | name => .named name

def readToken (d : Dialect) (first : Char) (src : Source) : Except Error Reading × Source :=
  let (more, after) := src.span fun c => !d.endsToken c
  (.ok (.form (ofToken (first :: more))), after)

def readNumeral (d : Dialect) (first : Char) (src : Source) : Except Error Reading × Source :=
  match Numeral.scan d.numeralRules first src with
  | (.ok n, after) => (.ok (.form (.ofNumeral n)), after)
  | (.error e, after) => (.error e, after)

def wrapped (head : String) (d : Datum) : Except Error Reading :=
  .ok (.form (.list [.named head, d]))

/-- What a handler does after its character was read; nested forms are read by `next`, at most
`bound` of them one after the other. -/
def handle (d : Dialect) (next : ReadStep) (bound : Nat) (trigger : Char) (src : Source) :
    Handler → Except Error Reading × Source
  | .collect kind => collect next kind src.lastPosition bound [] src
  | .close => (.ok (.close trigger), src)
  | .wrap head => withOperand next trigger.toString (wrapped head) src
  | .unquote =>
    match src.next? with
    | some ('@', after) => withOperand next "~@" (wrapped "splice-unquote") after
    | _ => withOperand next "~" (wrapped "unquote") src
  | .keyword => withOperand next ":" (keywordOf src.lastPosition) src
  | .character => readCharacter d src
  | .string => readString src
  | .comment => (.ok .skip, (src.span (· != '\n')).2)
  | .newline => (.ok .skip, src.countLines 1)
  | .constant form => (.ok (.form form), src)
  | .discard => withOperand next trigger.toString (fun _ => .ok .skip) src

/-- One pass of the dispatch loop, over at most `bound` characters that begin something. It never
answers `skip`. -/
def formWithin (d : Dialect) : (bound : Nat) → ReadStep
  | 0, src => (.ok .eof, src)
  | bound + 1, src =>
    match src.next? with
    | none => (.ok .eof, src)
    | some (c, after) =>
      match d.table c with
      | some handler =>
        match handle d (formWithin d bound) bound c after handler with
        | (.ok .skip, after) => formWithin d bound after
        | outcome => outcome
      | none =>
        if Text.isBlank c then formWithin d bound after
        else if Text.startsNumber c after.peek? then readNumeral d c after
        else readToken d c after

/-- One pass of the dispatch loop. A pass reads a character at least, so the length of the text
bounds it. -/
def readForm (d : Dialect) : ReadStep := fun src => formWithin d (src.rest.length + 1) src

def read (d : Dialect) (src : Source) : Except Error (Option Datum) × Source :=
  match readForm d src with
  | (.error e, src) => (.error e, src)
  | (.ok (.form form), src) => (.ok (some form), src)
  | (.ok (.close delimiter), src) => (.error (stray delimiter src), src)
  | (.ok .skip, src) => (.ok none, src)
  | (.ok .eof, src) => (.ok none, src)
  | (.ok (.truncated context pos), src) =>
    (.error (.malformedText pos (.missingForm context)), src)

def readAllWithin (d : Dialect) : (bound : Nat) → Source → Except Error (List Datum) × Source
  | 0, src => (.ok [], src)
  | bound + 1, src =>
    match read d src with
    | (.error e, src) => (.error e, src)
    | (.ok none, src) => (.ok [], src)
    | (.ok (some form), src) =>
      match readAllWithin d bound src with
      | (.ok forms, src) => (.ok (form :: forms), src)
      | failure => failure

def readAll (d : Dialect) (src : Source) : Except Error (List Datum) × Source :=
  readAllWithin d (src.rest.length + 1) src

def readFirst (d : Dialect) (text : String) : Except Error (Option Datum) :=
  (read d (.ofText text)).1

end Reader

end TableLisp

import TableLisp.Text.Digit

/-!
Strict JSON: no comments, no trailing commas, no leading zeros. A string may be written with escapes
that name no character, half a surrogate pair; it then has no text, which matters only to a reader
that wants the text.
-/

namespace TableLisp

inductive Json where
  | null
  | bool (b : Bool)
  /-- A number without sign, fraction and exponent. -/
  | natural (n : Nat)
  /-- Any other number. -/
  | number
  | string (text : Option String)
  | array (items : List Json)
  | object (members : List (Option String × Json))

namespace Json

abbrev Parser (α : Type) := List Char → Option (α × List Char)

def isSpace (c : Char) : Bool := c == ' ' || c == '\n' || c == '\t' || c == '\r'

def skipSpace (text : List Char) : List Char := text.dropWhile isSpace

/-- The characters that code units stand for; two that make up a surrogate pair stand for one. -/
def ofUnits : List Nat → Option (List Char)
  | [] => some []
  | high :: more =>
    if 0xD800 ≤ high ∧ high ≤ 0xDBFF then
      match more with
      | low :: rest =>
        if 0xDC00 ≤ low ∧ low ≤ 0xDFFF then
          (ofUnits rest).map
            (Char.ofNat (0x10000 + (high - 0xD800) * 0x400 + (low - 0xDC00)) :: ·)
        else none
      | [] => none
    else if 0xDC00 ≤ high ∧ high ≤ 0xDFFF then none
    else (ofUnits more).map (Char.ofNat high :: ·)

def escapeUnit? : Char → Option Nat
  | '"' => some 0x22
  | '\\' => some 0x5C
  | '/' => some 0x2F
  | 'b' => some 0x08
  | 'f' => some 0x0C
  | 'n' => some 0x0A
  | 'r' => some 0x0D
  | 't' => some 0x09
  | _ => none

/-- The units of a string up to its closing quote. Control characters have to be escaped. -/
def units : Parser (List Nat)
  | [] => none
  | '"' :: rest => some ([], rest)
  | '\\' :: 'u' :: a :: b :: c :: d :: rest =>
    match Text.ofDigits? 16 [a, b, c, d] with
    | some n => (units rest).map fun (us, rest) => (n :: us, rest)
    | none => none
  | '\\' :: c :: rest =>
    match escapeUnit? c with
    | some n => (units rest).map fun (us, rest) => (n :: us, rest)
    | none => none
  | c :: rest =>
    if c.toNat < 0x20 then none
    else (units rest).map fun (us, rest) => (c.toNat :: us, rest)

def stringText : Parser (Option String) := fun text =>
  (units text).map fun (us, rest) => ((ofUnits us).map String.ofList, rest)

def digits : Parser (List Char) := fun text =>
  let taken := text.takeWhile Text.isDecimal
  if taken.isEmpty then none else some (taken, text.dropWhile Text.isDecimal)

/-- The digits before a fraction; a zero stands alone. -/
def wholeDigits : Parser (List Char)
  | '0' :: rest => some (['0'], rest)
  | text => digits text

/-- A fraction, if there is one. Answers whether there was. -/
def fraction : Parser Bool
  | '.' :: rest => (digits rest).map fun (_, rest) => (true, rest)
  | text => some (false, text)

def exponent : Parser Bool
  | e :: rest =>
    if e = 'e' ∨ e = 'E' then
      let rest :=
        match rest with
        | '+' :: more => more
        | '-' :: more => more
        | more => more
      (digits rest).map fun (_, rest) => (true, rest)
    else some (false, e :: rest)
  | [] => some (false, [])

def unsigned : Parser Json := fun text => do
  let (whole, rest) ← wholeDigits text
  let (hasFraction, rest) ← fraction rest
  let (hasExponent, rest) ← exponent rest
  if hasFraction || hasExponent then return (number, rest)
  else return (natural (Text.ofDigits 10 whole), rest)

def numeral : Parser Json
  | '-' :: rest => (unsigned rest).map fun (_, rest) => (number, rest)
  | text => unsigned text

def items (value : Parser Json) : (bound : Nat) → Parser (List Json)
  | 0, _ => none
  | bound + 1, text => do
    let (item, rest) ← value text
    match skipSpace rest with
    | ',' :: rest => do
      let (more, rest) ← items value bound rest
      return (item :: more, rest)
    | ']' :: rest => return ([item], rest)
    | _ => none

/-- The members of an object after its first one was begun, at most `bound` of them. -/
def members (value : Parser Json) : (bound : Nat) → Parser (List (Option String × Json))
  | 0, _ => none
  | bound + 1, text =>
    match skipSpace text with
    | '"' :: rest => do
      let (key, rest) ← stringText rest
      match skipSpace rest with
      | ':' :: rest => do
        let (item, rest) ← value rest
        match skipSpace rest with
        | ',' :: rest => do
          let (more, rest) ← members value bound rest
          return ((key, item) :: more, rest)
        | '\x7d' :: rest => return ([(key, item)], rest)
        | _ => none
      | _ => none
    | _ => none

def value : (bound : Nat) → Parser Json
  | 0, _ => none
  | bound + 1, text =>
    match skipSpace text with
    | 'n' :: 'u' :: 'l' :: 'l' :: rest => some (null, rest)
    | 't' :: 'r' :: 'u' :: 'e' :: rest => some (bool true, rest)
    | 'f' :: 'a' :: 'l' :: 's' :: 'e' :: rest => some (bool false, rest)
    | '"' :: rest => (stringText rest).map fun (s, rest) => (string s, rest)
    | '[' :: rest =>
      match skipSpace rest with
      | ']' :: rest => some (array [], rest)
      | rest => (items (value bound) rest.length rest).map fun (is, rest) => (array is, rest)
    | '\x7b' :: rest =>
      match skipSpace rest with
      | '\x7d' :: rest => some (object [], rest)
      | rest => (members (value bound) rest.length rest).map fun (ms, rest) => (object ms, rest)
    | rest => numeral rest

def parse? (text : List Char) : Option Json :=
  match value (text.length + 1) text with
  | some (json, rest) => if (skipSpace rest).isEmpty then some json else none
  | none => none

end Json

end TableLisp

import TableLisp.Datum.Basic
import TableLisp.Text.Quoted

/-!
Data as text. The readable style can be read back: strings are quoted, characters are written as
literals, and unbounded integers keep their suffix. The plain style shows strings and characters as
they are.
-/

namespace TableLisp

inductive Style where
  | readable
  | plain
  deriving DecidableEq, Repr

def namedChars : List (String × Char) :=
  [("newline", '\n'), ("space", ' '), ("tab", '\t'), ("backspace", '\x08'), ("formfeed", '\x0c'),
    ("return", '\r')]

/-- A character as a literal: by name, by code if it is a control character, else as it is. -/
def charLiteral (c : Char) : List Char :=
  match namedChars.find? (·.2 == c) with
  | some (name, _) => '\\' :: name.toList
  | none => if Text.isControl c then '\\' :: 'u' :: Text.hexCode c.toNat else ['\\', c]

def spaced (texts : List (List Char)) : List Char := [' '].intercalate texts

namespace Datum

/-- How a function is shown; it cannot be read back. -/
def closureText (c : Closure Datum) : List Char :=
  let label := if c.isMacro then "#<macro" else "#<fn"
  let name := match c.name with | some name => " " ++ name | none => ""
  let params := c.params.fixed ++ match c.params.rest with | some r => ["&", r] | none => []
  (label ++ name ++ " [" ++ " ".intercalate params ++ "]>").toList

mutual

/-- The text of a datum, where `tableText` gives that of a table. -/
def textWith (style : Style) (tableText : TableId → List Char) : Datum → List Char
  | nil => "nil".toList
  | bool b => (if b then "true" else "false").toList
  | int n => Text.integerText n.toInt
  | big n => Text.integerText n ++ match style with | .readable => ['n'] | .plain => []
  | float x => Decimal.text x
  | char c => match style with | .readable => charLiteral c | .plain => [c]
  | string text =>
    match style with | .readable => Quoted.write text.toList | .plain => text.toList
  | symbol s => s.name.toList
  | keyword name => ':' :: name.toList
  | list items => '(' :: spaced (itemTexts style tableText items) ++ [')']
  | vector items => '[' :: spaced (itemTexts style tableText items) ++ [']']
  | map entries => '\x7b' :: spaced (entryTexts style tableText entries) ++ ['\x7d']
  | table id => tableText id
  | primitive p => ("#<native " ++ p.name ++ ">").toList
  | closure c => closureText c

def itemTexts (style : Style) (tableText : TableId → List Char) :
    List Datum → List (List Char)
  | [] => []
  | x :: more => textWith style tableText x :: itemTexts style tableText more

def entryTexts (style : Style) (tableText : TableId → List Char) :
    List (Datum × Datum) → List (List Char)
  | [] => []
  | (k, v) :: more =>
    textWith style tableText k :: textWith style tableText v :: entryTexts style tableText more

end

def text (style : Style) (d : Datum) : List Char := textWith style (fun _ => []) d

end Datum

end TableLisp

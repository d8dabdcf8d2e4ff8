import TableLisp.Text.Alphabetic
import TableLisp.Text.Digit

/-!
Identifiers: a letter or one of a few marks, then letters, marks, digits, apostrophes, hyphens and
points. Also the rule by which a text is told to begin with a number.
-/

namespace TableLisp.Text

def leadingMarks : List Char := ['_', '$', '*', '+', '!', '?', '<', '>', '=', '/', '&', '%']

def isIgnorable (c : Char) : Bool := isControl c && !isBlank c

def isIdentifierStart (c : Char) : Bool :=
  (isAlphabetic c || leadingMarks.contains c) && !isIgnorable c

def isIdentifierChar (c : Char) : Bool :=
  isIdentifierStart c || isDecimal c || c == '\x27' || c == '-' || c == '.'

/-- At least one character; the first may begin an identifier, the others may go on in one. -/
def isIdentifier : List Char → Bool
  | [] => false
  | c :: more => isIdentifierStart c && more.all isIdentifierChar

/-- A number begins with a digit, or with a sign that a digit follows. -/
def startsNumber (c : Char) (next : Option Char) : Bool :=
  isDecimal c || ((c == '+' || c == '-') && next.any isDecimal)

end TableLisp.Text

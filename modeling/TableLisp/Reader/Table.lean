import TableLisp.Datum.Basic
import TableLisp.Text.Source

/-!
The table that drives the reader: a character bound in it has a handler, which takes over when the
character is met. The handlers do not depend on the character that they are bound to.
-/

namespace TableLisp

inductive Collection where
  | list
  | vector
  | map
  deriving DecidableEq, Repr

namespace Collection

def opener : Collection → Char
  | list => '('
  | vector => '['
  | map => '\x7b'

def closer : Collection → Char
  | list => ')'
  | vector => ']'
  | map => '\x7d'

end Collection

inductive Handler where
  /-- Collects forms up to the closer of the collection. -/
  | collect (kind : Collection)
  /-- Reports the character as a closing delimiter. -/
  | close
  /-- Puts the next form behind a symbol. -/
  | wrap (head : String)
  /-- The same with `unquote`, or with `splice-unquote` if an `@` follows. -/
  | unquote
  | keyword
  | character
  | string
  | comment
  | newline
  /-- Gives a form without reading on. -/
  | constant (form : Datum)
  /-- Reads a form and drops it. -/
  | discard

abbrev ReadTable := Char → Option Handler

namespace ReadTable

def standardChars : List Char :=
  ['(', ')', '[', ']', '\x7b', '\x7d', '"', ';', '\x27', '\x60', '~', ':', '\\', '\n']

def standard : ReadTable
  | '(' => some (.collect .list)
  | '[' => some (.collect .vector)
  | '\x7b' => some (.collect .map)
  | ')' | ']' | '\x7d' => some .close
  | '\x27' => some (.wrap "quote")
  | '\x60' => some (.wrap "quasiquote")
  | '~' => some .unquote
  | ':' => some .keyword
  | '\\' => some .character
  | '"' => some .string
  | ';' => some .comment
  | '\n' => some .newline
  | _ => none

def bind (table : ReadTable) (c : Char) (handler : Handler) : ReadTable :=
  fun d => if d = c then some handler else table d

def unbind (table : ReadTable) (c : Char) : ReadTable :=
  fun d => if d = c then none else table d

end ReadTable

/-- How text is read: the table, and whether plain integers become floats. -/
structure Dialect where
  table : ReadTable
  preferFloats : Bool

namespace Dialect

def standard (preferFloats : Bool) : Dialect := ⟨.standard, preferFloats⟩

def isBound (d : Dialect) (c : Char) : Bool := (d.table c).isSome

def endsToken (d : Dialect) (c : Char) : Bool := Text.isBlank c || d.isBound c

def numeralRules (d : Dialect) : Numeral.Rules := ⟨d.isBound, d.preferFloats⟩

end Dialect

end TableLisp

import TableLisp.Kind
import TableLisp.Text.Graphic
import TableLisp.Text.Digit
import TableLisp.Text.Source

/-!
What can go wrong while text is read and while it is evaluated. Each error is a cause with its
details; its wording is given once, by `Error.message`.
-/

namespace TableLisp

inductive SyntaxFault where
  | escape (letter : Char)
  | unicodeEscape (digits : List Char)
  | oddMap (forms : Nat)
  | keywordName (printed : String)
  | missingForm (context : String)
  deriving DecidableEq, Repr

inductive FormFault where
  | operands (expected got : Nat)
  | branches (got : Nat)
  | notASymbol (kind : Kind)
  | specialName (name : String)
  | bindingsKind (kind : Kind)
  | missingBindings
  | oddBindings
  | missingParams
  | paramKind (kind : Kind)
  | restParam
  | macroName
  | unsettled (steps : Nat)
  | afterCatch (kind : Kind)
  | catchBinding
  | outsideTemplate
  | outsideTry
  | oneOperand
  deriving DecidableEq, Repr

inductive ArgumentFault where
  | count (expected got : Nat)
  | countAtLeast (least got : Nat)
  | noArguments
  | twoOrThree (got : Nat)
  | oddPairs
  | keywordName (name : String)
  deriving DecidableEq, Repr

inductive Error where
  | malformedText (pos : Position) (fault : SyntaxFault)
  | delimiter (expected found : Option Char) (pos : Position)
  | numeral (lexeme : List Char) (pos : Position)
  | openString (pos : Position)
  | character (literal : List Char) (pos : Position)
  | unbound (name : String)
  | malformed (form : String) (fault : FormFault)
  | immutable
  | notCallable (kind : Kind)
  | arguments (function : String) (fault : ArgumentFault)
  | mismatch (expected got : String)
  | divisionByZero
  | outOfBounds (index : Int) (length : Nat)
  | unreadable (path cause : String)
  | settings
  | thrown (message : String)
  deriving DecidableEq, Repr

namespace SyntaxFault

def message : SyntaxFault → String
  | escape letter => "Invalid escape sequence \\" ++ letter.toString
  | unicodeEscape digits => "Invalid unicode escape \\u" ++ String.ofList digits
  | oddMap forms => s!"map literal needs an even number of forms, got {forms}"
  | keywordName printed => "invalid keyword name: " ++ printed
  | missingForm context => "expected a form after " ++ context

end SyntaxFault

namespace FormFault

def message : FormFault → String
  | operands expected got => s!"expected {expected} operands, got {got}"
  | branches got => s!"expected a test and one or two branches, got {got} operands"
  | notASymbol kind => s!"expected a symbol, got {kind.name}"
  | specialName name => s!"cannot bind special form name {name}"
  | bindingsKind kind => s!"bindings must be a vector, got {kind.name}"
  | missingBindings => "missing bindings"
  | oddBindings => "bindings need an even number of forms"
  | missingParams => "expected a parameter vector"
  | paramKind kind => s!"parameter must be a symbol, got {kind.name}"
  | restParam => "& must be followed by exactly one parameter name"
  | macroName => "expected a macro name"
  | unsettled steps => s!"expansion did not settle after {steps} steps"
  | afterCatch kind => s!"unexpected {kind.name} after catch clause"
  | catchBinding => "expected a binding symbol"
  | outsideTemplate => "only valid inside quasiquote"
  | outsideTry => "only valid inside try"
  | oneOperand => "expected exactly one operand"

end FormFault

namespace ArgumentFault

def message : ArgumentFault → String
  | count expected got => s!"expected {expected} arguments, got {got}"
  | countAtLeast least got => s!"expected at least {least} arguments, got {got}"
  | noArguments => "expected at least 1 argument, got 0"
  | twoOrThree got => s!"expected 2 or 3 arguments, got {got}"
  | oddPairs => "expected an even number of key/value arguments"
  | keywordName name =>
    String.ofList (Text.quoteShown name.toList) ++ " is not a valid keyword name"

end ArgumentFault

namespace Error

def delimiterText : Option Char → Option Char → String
  | some expected, some found => s!"expected {expected}, found {found}"
  | some expected, none => s!"expected {expected}, found end of input"
  | none, some found => s!"unexpected {found}"
  | none, none => "unbalanced input"

def positionText (pos : Position) : String := s!"line {pos.line}, offset {pos.offset}"

def message : Error → String
  | malformedText pos fault => s!"Syntax error at {positionText pos}: {fault.message}"
  | delimiter expected found pos =>
    s!"Mismatched delimiter at {positionText pos}: {delimiterText expected found}"
  | numeral lexeme pos =>
    "Malformed number '" ++ String.ofList lexeme ++ "' at " ++ positionText pos
  | openString pos => "Unterminated string starting at " ++ positionText pos
  | character literal pos =>
    "Unsupported character literal '\\" ++ String.ofList literal ++ "' at " ++ positionText pos
  | unbound name => "Unbound symbol: " ++ name
  | malformed form fault => s!"Malformed {form}: {fault.message}"
  | immutable => "Cannot mutate an immutable map"
  | notCallable kind => "Value is not callable: " ++ kind.name
  | arguments function fault => s!"Invalid arguments for {function}: {fault.message}"
  | mismatch expected got => s!"Type error: expected {expected}, got {got}"
  | divisionByZero => "Division by zero"
  | outOfBounds index length =>
    "Index out of bounds: " ++ String.ofList (Text.integerText index) ++
      s!" for collection of length {length}"
  | unreadable path cause => "I/O error: " ++ path ++ ": " ++ cause
  | settings => "Invalid configuration: malformed settings"
  | thrown message => message

def isReadError : Error → Bool
  | malformedText .. | delimiter .. | numeral .. | openString .. | character .. => true
  | _ => false

/-- Can the error go away when more text follows? -/
def isIncomplete : Error → Bool
  | delimiter (some _) none _ => true
  | openString _ => true
  | _ => false

end Error

end TableLisp

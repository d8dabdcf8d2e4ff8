/-!
Names in programs. A symbol is a plain name or one of the special forms, which are not bound but
handled by the evaluator; the two are different symbols even where they are spelled alike.
-/

namespace TableLisp

inductive SpecialForm where
  | define
  | letStar
  | sequence
  | branch
  | lambda
  | quote
  | quasiquote
  | quasiquoteExpand
  | unquote
  | spliceUnquote
  | macroexpand
  | defMacro
  | attempt
  | handler
  deriving DecidableEq, Repr

namespace SpecialForm

def all : List SpecialForm :=
  [define, letStar, sequence, branch, lambda, quote, quasiquote, quasiquoteExpand, unquote,
    spliceUnquote, macroexpand, defMacro, attempt, handler]

def name : SpecialForm → String
  | define => "def"
  | letStar => "let*"
  | sequence => "do"
  | branch => "if"
  | lambda => "fn*"
  | quote => "quote"
  | quasiquote => "quasiquote"
  | quasiquoteExpand => "quasiquote-expand"
  | unquote => "unquote"
  | spliceUnquote => "splice-unquote"
  | macroexpand => "macroexpand"
  | defMacro => "defmacro"
  | attempt => "try"
  | handler => "catch"

def ofName? (name : String) : Option SpecialForm := all.find? (·.name == name)

theorem ofName?_name (form : SpecialForm) : ofName? form.name = some form := by
  cases form <;> decide

theorem name_of_ofName? {name : String} {form : SpecialForm} (h : ofName? name = some form) :
    form.name = name := by
  simpa using List.find?_some h

end SpecialForm

inductive Symbol where
  | plain (name : String)
  | special (form : SpecialForm)
  deriving DecidableEq, Repr

namespace Symbol

def name : Symbol → String
  | plain name => name
  | special form => form.name

/-- The symbol that the reader makes of a name. -/
def ofName (name : String) : Symbol :=
  match SpecialForm.ofName? name with
  | some form => special form
  | none => plain name

@[simp] theorem name_ofName (name : String) : (ofName name).name = name := by
  unfold ofName
  split
  · exact SpecialForm.name_of_ofName? ‹_›
  · rfl

end Symbol

end TableLisp

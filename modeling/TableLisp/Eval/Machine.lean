import TableLisp.Datum.MapStore
import TableLisp.Environment
import TableLisp.Reader.Form
import TableLisp.Settings.Basic

/-!
What evaluation works on. The machine is what evaluation changes: scopes, tables, what was printed,
and how many closures were made. The host is what it may rely on. An evaluation ends with a value
or an error, or breaks off because it needs more than it was given.
-/

namespace TableLisp

structure Machine where
  env : Environment
  maps : MapStore
  output : String
  closures : Nat

/--
What the host says about a file: `unreadable` is one that is not there, and one that cannot be read
for another reason is refused with the host's words for it.
-/
inductive FileReply where
  | contents (text : String)
  | unreadable
  | refused (cause : String)
  | unknown
  deriving DecidableEq, Repr

structure Host where
  settings : Settings
  files : String → FileReply

/-- What an evaluation that broke off lacked: further steps, or what a file holds. -/
inductive Need where
  | steps
  | file (path : String)
  deriving DecidableEq, Repr

inductive Outcome (α : Type) where
  | done (value : α) (m : Machine)
  | failed (error : Error) (m : Machine)
  | brokeOff (need : Need)

namespace Outcome

variable {α β : Type}

@[inline] def andThen (o : Outcome α) (f : α → Machine → Outcome β) : Outcome β :=
  match o with
  | done value m => f value m
  | failed error m => failed error m
  | brokeOff need => brokeOff need

@[inline] def mapMachine (f : Machine → Machine) : Outcome α → Outcome α
  | done value m => done value (f m)
  | failed error m => failed error (f m)
  | brokeOff need => brokeOff need

@[inline] def ofExcept (result : Except Error α) (m : Machine) : Outcome α :=
  match result with
  | .ok value => done value m
  | .error error => failed error m

end Outcome

namespace Host

def dialect (host : Host) : Dialect := .standard host.settings.preferFloats

end Host

namespace Machine

def blank : Machine := ⟨.initial, .empty, "", 0⟩

def withPrimitives (primitives : List Primitive) : Machine :=
  { blank with
    env := primitives.foldl (fun env p => env.set Environment.global p.name (.primitive p)) .initial }

def initial : Machine := withPrimitives Primitive.all

def print (m : Machine) (text : String) : Machine := { m with output := m.output ++ text }

end Machine

end TableLisp

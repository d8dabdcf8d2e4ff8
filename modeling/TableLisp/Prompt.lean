import TableLisp.Session
import TableLisp.Settings.Json

/-!
The prompt. Lines are gathered until they read as complete forms; then each form is evaluated once
and in order, up to the first that fails, and after that the values are shown.
-/

namespace TableLisp

/-- The lines gathered so far, and the number that the prompt shows. -/
structure Prompt where
  machine : Machine
  buffer : String
  number : Nat

structure Reply where
  out : String
  err : String
  next : Option Prompt

structure Transcript where
  out : String
  err : String
  code : Nat
  deriving DecidableEq, Repr

namespace Prompt

def banner : String := "readlisp 0.1.0 - type (exit) or press Ctrl+D to quit\n\n"

def farewell : String := "Goodbye!\n"

def start : Prompt := ⟨.initial, "", 1⟩

def mark (p : Prompt) : String :=
  if p.buffer.isEmpty then s!"user[{p.number}]> " else "      ...  "

/-- Evaluates forms up to the first that fails; what they print is in the machine. -/
def evalAll (host : Host) (fuel : Nat) :
    List Datum → Machine → Except Need (List (Except Error Datum) × Machine)
  | [], m => .ok ([], m)
  | form :: more, m =>
    match Session.evalForm host fuel form m with
    | .brokeOff need => .error need
    | .failed e m => .ok ([.error e], m)
    | .done value m =>
      match evalAll host fuel more m with
      | .ok (results, m) => .ok (.ok value :: results, m)
      | .error need => .error need

def valueLine (maps : MapStore) : Except Error Datum → String
  | .ok value => "=> " ++ maps.text .readable value ++ "\n"
  | .error _ => ""

def errorLine : Except Error Datum → String
  | .ok _ => ""
  | .error e => "Error: " ++ e.message ++ "\n"

def submit (host : Host) (fuel : Nat) (p : Prompt) : Except Need Reply :=
  let fresh (m : Machine) : Prompt := ⟨{ m with output := "" }, "", p.number + 1⟩
  match (Reader.readAll host.dialect (.ofText p.buffer)).1 with
  | .error e =>
    if e.isIncomplete then .ok ⟨"", "", some p⟩
    else .ok ⟨"", errorLine (.error e), some (fresh p.machine)⟩
  | .ok forms =>
    match evalAll host fuel forms p.machine with
    | .error need => .error need
    | .ok (results, m) =>
      .ok ⟨m.output ++ String.join (results.map (valueLine m.maps)),
        String.join (results.map errorLine), some (fresh m)⟩

def trim (text : List Char) : List Char :=
  (text.dropWhile Text.isBlank).reverse.dropWhile Text.isBlank |>.reverse

/-- Takes a line, with its newline if it has one. Two commands are known while nothing is
gathered. -/
def feed (host : Host) (fuel : Nat) (line : String) (p : Prompt) : Except Need Reply :=
  let command := if p.buffer.isEmpty then String.ofList (trim line.toList) else line
  if p.buffer.isEmpty ∧ command = "" then .ok ⟨"", "", some p⟩
  else if p.buffer.isEmpty ∧ command = "(exit)" then .ok ⟨"", "", none⟩
  else if p.buffer.isEmpty ∧ command = "(reset)" then
    .ok ⟨"Environment cleared\n", "", some { p with machine := .initial }⟩
  else submit host fuel { p with buffer := p.buffer ++ line }

/-- Splits a text after each newline; only the last line may lack one. -/
def splitLines : List Char → List (List Char)
  | [] => []
  | c :: more =>
    if c = '\n' then [c] :: splitLines more
    else
      match splitLines more with
      | [] => [[c]]
      | line :: lines => (c :: line) :: lines

def feedAll (host : Host) (fuel : Nat) : List String → Prompt → Except Need (String × String)
  | [], p => .ok (p.mark, "")
  | line :: lines, p =>
    match feed host fuel line p with
    | .error need => .error need
    | .ok reply =>
      match reply.next with
      | none => .ok (p.mark ++ reply.out, reply.err)
      | some next =>
        match feedAll host fuel lines next with
        | .error need => .error need
        | .ok (out, err) => .ok (p.mark ++ reply.out ++ out, reply.err ++ err)

def badSettings (e : Error) : String :=
  "Error: parsing config\n\nCaused by:\n    " ++ e.message ++ "\n"

def run (host : Host) (fuel : Nat) (input : String) : Except Need Transcript :=
  let lines := (splitLines input.toList).map String.ofList
  match feedAll host fuel lines start with
  | .error need => .error need
  | .ok (out, err) => .ok ⟨banner ++ out ++ farewell, err, 0⟩

def runWith (files : String → FileReply) (settings : Option String) (fuel : Nat)
    (input : String) : Except Need Transcript :=
  match settings with
  | none => run ⟨.initial, files⟩ fuel input
  | some text =>
    match Settings.parse text with
    | .ok settings => run ⟨settings, files⟩ fuel input
    | .error e => .ok ⟨"", badSettings e, 1⟩

end Prompt

end TableLisp

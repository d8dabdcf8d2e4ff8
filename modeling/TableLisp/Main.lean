import TableLisp.Prompt

/-!
The command line: a prompt on standard input, with the settings from the file that the first
argument names. A file that a program asks for is looked up when an evaluation breaks off for it;
the evaluation is then done again from where it began.
-/

namespace TableLisp.Main

def fuel : Nat := Nat.pow 2 60

abbrev Known := List (String × Except IO.Error String)

/-- The system's words for a failure, and its number. -/
def cause : IO.Error → String
  | .noFileOrDirectory _ code details | .permissionDenied _ code details
  | .inappropriateType _ code details => s!"{details} (os error {code})"
  | .userError _ => "stream did not contain valid UTF-8"
  | e => e.toString

def reply (known : Known) (path : String) : FileReply :=
  match known.find? (·.1 == path) with
  | some (_, .ok text) => .contents text
  | some (_, .error (.noFileOrDirectory ..)) => .unreadable
  | some (_, .error e) => .refused (cause e)
  | none => .unknown

def readText (path : String) : IO (Except IO.Error String) :=
  try return .ok (← IO.FS.readFile path) catch e => return .error e

partial def feed (settings : Settings) (known : Known) (line : String) (p : Prompt) :
    IO Reply := do
  match p.feed ⟨settings, reply known⟩ fuel line with
  | .ok reply => return reply
  | .error (.file path) => feed settings ((path, ← readText path) :: known) line p
  | .error .steps => return ⟨"", "", none⟩

partial def loop (settings : Settings) (p : Prompt) : IO Unit := do
  let stdout ← IO.getStdout
  stdout.putStr p.mark
  stdout.flush
  let line ← (← IO.getStdin).getLine
  if line.isEmpty then return
  let reply ← feed settings [] line p
  stdout.putStr reply.out
  (← IO.getStderr).putStr reply.err
  match reply.next with
  | some next => loop settings next
  | none => return

def run (settings : Settings) : IO UInt32 := do
  IO.print Prompt.banner
  loop settings .start
  IO.print Prompt.farewell
  return 0

end TableLisp.Main

def main (args : List String) : IO UInt32 := do
  match args with
  | [] => TableLisp.Main.run .initial
  | path :: _ =>
    match ← TableLisp.Main.readText path with
    | .error e =>
      IO.eprintln ("Error: reading config " ++ path ++ "\n\nCaused by:\n    " ++
        TableLisp.Main.cause e)
      return 1
    | .ok text =>
      match TableLisp.Settings.parse text with
      | .ok settings => TableLisp.Main.run settings
      | .error e =>
        IO.eprint (TableLisp.Prompt.badSettings e)
        return 1

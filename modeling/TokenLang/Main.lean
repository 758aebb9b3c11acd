import TokenLang.Command

/-!
The program. Texts and files are evaluated in one go; the interactive loop shows
its prompt before each line it reads.
-/

set_option autoImplicit false
set_option relaxedAutoImplicit false

namespace TokenLang.Main

open Command

/-- The text of a file, if it can be read. -/
def readText (path : String) : IO (Option String) := do
  try
    let bytes ← IO.FS.readBinFile path
    return some (String.ofList (Text.Source.decode bytes.toList))
  catch _ => return none

/-- The next line and those already read after it, unless the input is over. -/
def nextLine (input : IO.FS.Stream) : List String → IO (Option (String × List String))
  | line :: waiting => return some (line, waiting)
  | [] => do
    match lines (← input.getLine) with
    | line :: waiting => return some (line, waiting)
    | [] => return none

partial def interact (input output : IO.FS.Stream) (r : Repl) (waiting : List String) :
    IO Unit := do
  output.putStr r.prompt
  output.flush
  match ← nextLine input waiting with
  | none => output.putStr "\n"
  | some (line, waiting) =>
    let (written, next) := r.feed line
    output.putStr written
    interact input output next waiting

/-- Runs a command line that asks for no interaction. -/
def runOnce (seed : Int64) (args : List String) (o : Options) : IO UInt32 := do
  let texts ← o.files.mapM fun path ↦ return (path, ← readText path)
  let outcome := Command.run seed args "" fun path ↦ (texts.lookup path).join
  (← IO.getStdout).putStr outcome.output
  return outcome.status.toUInt32

end TokenLang.Main

open TokenLang Command Main in
/-- The entry point. -/
def main (args : List String) : IO UInt32 := do
  let seed := Int64.ofNat (← IO.monoNanosNow)
  match Options.default.parse args with
  | .ok o =>
    if isLevel o.logLevel && o.source == "" && o.files.isEmpty then
      interact (← IO.getStdin) (← IO.getStdout) ⟨.new (settings o seed), none⟩ []
      return 0
    else runOnce seed args o
  | .error _ => runOnce seed args .default

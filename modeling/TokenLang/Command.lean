import TokenLang.Command.Lines
import TokenLang.Command.Options
import TokenLang.Command.Repl

/-!
The command line as a function of its arguments, its input and the files it can
read. The outcome is the text on standard output and the exit status.
-/

set_option autoImplicit false
set_option relaxedAutoImplicit false

namespace TokenLang.Command

structure Outcome where
  output : String
  status : Nat
deriving DecidableEq, Inhabited

def levels : List String :=
  ["Debug", "Verbose", "Info", "Warning", "Error", "Critical", "Fatal"]

/-- A level is named as in the list, or all in small letters. -/
def isLevel (text : String) : Bool :=
  text ∈ levels || text ∈ levels.map Text.CaseMap.lowerCase

def settings (o : Options) (seed : Int64) : Settings :=
  ⟨"root", o.strict, 0, if o.seed = 0 then seed else o.seed⟩

/-- The exit status after an evaluation. -/
def Ending.status : Ending → Nat
  | .finished => 0
  | _ => 1

/-- Evaluates files in turn, up to the first that cannot be read or fails. -/
def runFiles (readFile : String → Option String) (w : World) (written : String) :
    List String → Outcome
  | [] => ⟨written, 0⟩
  | path :: rest =>
    match readFile path with
    | none => ⟨written, 1⟩
    | some text =>
      let (output, ending, w) := runText w text
      if ending.status = 0 then runFiles readFile w (written ++ output) rest
      else ⟨written ++ output, ending.status⟩

/-- Runs the interactive loop over the lines of the input. -/
def runRepl (r : Repl) (written : String) : List String → Outcome
  | [] => ⟨written ++ r.prompt ++ "\n", 0⟩
  | line :: rest =>
    let (output, next) := r.feed line
    runRepl next (written ++ r.prompt ++ output) rest

def run (seed : Int64) (args : List String) (input : String)
    (readFile : String → Option String) : Outcome :=
  match Options.default.parse args with
  | .error .help => ⟨"", 0⟩
  | .error .bad => ⟨"", 2⟩
  | .ok o =>
    if !isLevel o.logLevel then ⟨"", 2⟩
    else
      let w := World.new (settings o seed)
      if o.source != "" then
        let (output, ending, _) := runText w o.source
        ⟨output, ending.status⟩
      else if !o.files.isEmpty then runFiles readFile w "" o.files
      else runRepl ⟨w, none⟩ "" (lines input)

end TokenLang.Command

import TokenLang.Program
import TokenLang.Text.Blank

/-!
The interactive loop, one line at a time. Lines are put together until nothing in
them waits for more; then they are evaluated as one text.
-/

set_option autoImplicit false
set_option relaxedAutoImplicit false

namespace TokenLang.Command

/-- How the evaluation of a text ended. -/
inductive Ending where
  | finished
  | failed (f : Failure)
  /-- Without an answer and without a failure. -/
  | stopped

/-- Takes what was printed out of a world. -/
def takeOutput (w : World) : String × World := (w.output, { w with output := "" })

/-- The line that shows values, if there are any. -/
def valueLine (values : List Value) : String :=
  if values.isEmpty then "" else Value.encode values ++ "\n"

/-- Evaluates a text in the first scope of a world: what it writes, which is what it
printed and then its values, and how it ended. -/
def runText (w : World) (text : String) : String × Ending × World :=
  let (answer, w) := (Program.eval World.root (Text.Source.ofString text)).run w
  let (printed, w) := takeOutput w
  match answer with
  | .ok ⟨values, none⟩ => (printed ++ valueLine values, .finished, w)
  | .ok ⟨values, some f⟩ => (printed ++ valueLine values, .failed f, w)
  | .error (.failed f) => (printed, .failed f, w)
  | .error _ => (printed, .stopped, w)

structure Repl where
  world : World
  /-- The lines put together so far, if they wait for more. -/
  pending : Option String

namespace Repl

def prompt (r : Repl) : String :=
  match r.pending with
  | none => "celadon> "
  | some _ => "     ... "

/-- Takes a line and gives what it writes. -/
def feed (r : Repl) (line : String) : String × Repl :=
  let text := match r.pending with
    | some before => before ++ "\n" ++ line
    | none => line
  if !Reader.isComplete (Text.Source.ofString text) then ("", ⟨r.world, some text⟩)
  else if Text.Blank.isBlankText text then ("", ⟨r.world, none⟩)
  else
    let (written, ending, w) := runText r.world text
    match ending with
    | .failed f => (written ++ f.message ++ "\n", ⟨w, none⟩)
    | _ => (written, ⟨w, none⟩)

end Repl

end TokenLang.Command

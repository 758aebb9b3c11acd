import TokenLang.Eval.Region

/-!
The scan. It walks over a buffer, resolving what is pending, and closes each
bracketed region when it comes to its closing bracket; what a region or a pending
token becomes is scanned again in its place. The first complete token outside all
brackets is the result. Inside a quoting bracket everything is left as written.
-/

set_option autoImplicit false
set_option relaxedAutoImplicit false

namespace TokenLang

/-- An open bracket and the tokens passed since, last first. Inside a quoting bracket
other brackets are passed like any token; those of them that are still open are kept
in `inner` as well, innermost first. -/
structure Frame where
  opening : Token
  passed : List Token
  inner : List Token

namespace Frame

def start (opening : Token) : Frame := ⟨opening, [], []⟩

def tokens (f : Frame) : List Token := f.opening :: f.passed.reverse

/-- The bracket that is to be closed next. -/
def innermost (f : Frame) : Token := f.inner.headD f.opening

/-- Passes what a quoting bracket leaves as written, up to its closing bracket, to one
that closes nothing inside it, or to the end of the buffer. -/
def passQuoted (opening : Token) : List Token → List Token → List Token → Frame × List Token
  | passed, inner, [] => (⟨opening, passed, inner⟩, [])
  | passed, inner, t :: rest =>
    if !t.isDelimiter then passQuoted opening (t :: passed) inner rest
    else if !t.closes then passQuoted opening (t :: passed) (t :: inner) rest
    else match inner with
      | top :: others =>
        if top.closesWith t then passQuoted opening (t :: passed) others rest
        else (⟨opening, passed, inner⟩, t :: rest)
      | [] => (⟨opening, passed, []⟩, t :: rest)

theorem opening_passQuoted (opening : Token) (passed inner rest : List Token) :
    (passQuoted opening passed inner rest).1.opening = opening := by
  fun_induction passQuoted opening passed inner rest <;> first | rfl | assumption

end Frame

/-- A scan under way: the open brackets, innermost first, what is still to be
looked at, and how often the place at its front has been resolved already. -/
structure Scan where
  frames : List Frame
  rest : List Token
  hops : Nat

namespace Scan

def start (tokens : List Token) : Scan := ⟨[], tokens, 0⟩

/-- The buffer as it stands. -/
def buffer (s : Scan) : List Token := s.frames.reverse.flatMap Frame.tokens ++ s.rest

inductive Progress where
  | more (s : Scan)
  | over (r : Reduction)

/-- Ends the scan with a failure. -/
def giveUp (s : Scan) (f : Failure) : EvalM Progress := return .over (.failed f s.buffer)

/-- Passes the token at the front, which then belongs to the innermost bracket. -/
def pass (t : Token) (rest : List Token) : List Frame → Progress
  | ⟨opening, passed, inner⟩ :: frames => .more ⟨⟨opening, t :: passed, inner⟩ :: frames, rest, 0⟩
  | [] => .over (.value t rest)

/-- Passes an opening bracket, and what it leaves as written if it quotes. -/
def openFrame (t : Token) (rest : List Token) (frames : List Frame) : Progress :=
  if t.quotes then
    let (f, rest) := Frame.passQuoted t [] [] rest
    .more ⟨f :: frames, rest, 0⟩
  else .more ⟨.start t :: frames, rest, 0⟩

variable (ev : Evaluator) (fuel : Nat) (id : ScopeId)

/-- A closing bracket at the front. -/
def closeFrame (s : Scan) (t : Token) (rest : List Token) : EvalM Progress :=
  match s.frames with
  | [] => s.giveUp (.blaming t (.unexpectedClosing t.text))
  | f :: frames =>
    if !f.innermost.closesWith t then
      s.giveUp (.blaming t (.mismatched f.innermost.text t.text))
    else do
      match ← EvalM.attempt (ev.close fuel id f.opening f.passed.reverse) with
      | .ok placed => return .more ⟨frames, placed ++ rest, 0⟩
      | .error failure => s.giveUp failure

/-- A pending token or an envoy at the front. -/
def resolveFront (s : Scan) (t : Token) (rest : List Token) : EvalM Progress := do
  let hops := s.hops + 1
  if (← EvalM.scope id).maxHops < hops then s.giveUp (.blaming t (.tooManyHops t.text))
  else
    match ← EvalM.attempt (ev.act fuel id t rest) with
    | .ok (placed, after) =>
      return .more ⟨s.frames, placed ++ after, if placed.isEmpty then 0 else hops⟩
    | .error failure => s.giveUp failure

/-- The end of the buffer. -/
def finish (s : Scan) : EvalM Progress :=
  match s.frames with
  | [] => return .over .nothing
  | f :: _ => s.giveUp (.blaming f.innermost (.neverClosed f.innermost.text))

/-- One step. -/
def advance (s : Scan) : EvalM Progress :=
  match s.rest with
  | [] => s.finish
  | t :: rest =>
    if t.isDelimiter then
      if t.closes then s.closeFrame ev fuel id t rest
      else return openFrame t rest s.frames
    else if t.isComplete then return pass t rest s.frames
    else s.resolveFront ev fuel id t rest

/-- Takes steps until the scan is over, at most `fuel` of them on any path of
evaluations within evaluations. -/
def run : Nat → ScopeId → Scan → EvalM Reduction
  | 0, _, _ => throw .exhausted
  | fuel + 1, id, s => do
    match ← s.advance (fun scope tokens ↦ run fuel scope (start tokens)) fuel id with
    | .more s => run fuel id s
    | .over r => return r

end Scan

end TokenLang

import TokenLang.Failure
import TokenLang.Token.Bracket
import TokenLang.Value.Show

/-!
Forms: the shortest pieces that a buffer falls into. A form is a single token that
is no bracket, or a bracketed region, with any number of markers in front. Which
tokens are markers depends on the scope, so the test is a parameter. Markers with
nothing after them are a form too.
-/

set_option autoImplicit false
set_option relaxedAutoImplicit false

namespace TokenLang.Form

/-- The rest of a bracketed region up to the bracket that closes the outermost of
`stack`, and what follows it. `outer` is the bracket that is to blame when there
is none. -/
def region (outer : Token) : List Token → List Token → Except Failure (List Token × List Token)
  | _, [] => .error (.blaming outer (.neverClosed outer.text))
  | stack, t :: rest =>
    if !t.isDelimiter then
      (region outer stack rest).map fun (inside, after) ↦ (t :: inside, after)
    else if !t.closes then
      (region outer (t :: stack) rest).map fun (inside, after) ↦ (t :: inside, after)
    else match stack with
      | [] => .ok ([t], rest)
      | top :: below =>
        if !top.closesWith t then .error (.blaming t (.mismatched top.text t.text))
        else if below.isEmpty then .ok ([t], rest)
        else (region outer below rest).map fun (inside, after) ↦ (t :: inside, after)

/-- The first form of a buffer and what follows it. -/
def split (isMarker : Token → Bool) : List Token → Except Failure (List Token × List Token)
  | [] => .ok ([], [])
  | t :: rest =>
    if !t.isDelimiter then
      if isMarker t then (split isMarker rest).map fun (form, after) ↦ (t :: form, after)
      else .ok ([t], rest)
    else if t.closes then .error (.blaming t (.unexpectedClosing t.text))
    else (region t [t] rest).map fun (inside, after) ↦ (t :: inside, after)

/-- All forms of a buffer, at most `fuel` of them. -/
def splitUpTo (isMarker : Token → Bool) : Nat → List Token → Except Failure (List (List Token))
  | _, [] => .ok []
  | 0, _ :: _ => .ok []
  | fuel + 1, tokens => do
    let (form, rest) ← split isMarker tokens
    return form :: (← splitUpTo isMarker fuel rest)

/-- All forms of a buffer. Each takes at least one token. -/
def splitAll (isMarker : Token → Bool) (tokens : List Token) :
    Except Failure (List (List Token)) :=
  splitUpTo isMarker tokens.length tokens

/-- What holds of no forms, and of a form in front of the forms that follow it, holds of all forms
of a buffer. -/
theorem splitAll_induction {isMarker : Token → Bool}
    {motive : List Token → List (List Token) → Prop} (nil : ∀ tokens, motive tokens [])
    (cons : ∀ {tokens form rest forms}, split isMarker tokens = .ok (form, rest) →
      motive rest forms → motive tokens (form :: forms))
    {tokens : List Token} {forms : List (List Token)} (h : splitAll isMarker tokens = .ok forms) :
    motive tokens forms := by
  unfold splitAll at h
  generalize tokens.length = fuel at h
  induction fuel generalizing tokens forms with
  | zero => cases tokens <;> cases h <;> exact nil _
  | succ fuel ih =>
    cases tokens with
    | nil =>
      cases h
      exact nil _
    | cons t tokens =>
      unfold splitUpTo at h
      cases hsplit : split isMarker (t :: tokens) with
      | error f =>
        rw [hsplit] at h
        cases h
      | ok answer =>
        rw [hsplit] at h
        cases hmore : splitUpTo isMarker fuel answer.2 with
        | error f => simp [bind, Except.bind, hmore] at h
        | ok more =>
          obtain rfl : answer.1 :: more = forms := by
            simpa [bind, Except.bind, hmore, pure, Except.pure] using h
          exact cons hsplit (ih hmore)

/-- The index just past the form that starts at `start`. -/
def stop (isMarker : Token → Bool) (tokens : List Token) (start : Nat) : Except Failure Nat :=
  if start ≤ tokens.length then
    (split isMarker (tokens.drop start)).map fun (form, _) ↦ start + form.length
  else .ok tokens.length

/-- What stands between the outer brackets of a form of at least two tokens. -/
def strip (form : List Token) : List Token := (form.drop 1).dropLast

/-- A form that is not evaluated, as one token. A name becomes an atom and a moded
text a string; a call in plain parentheses becomes a quote of its contents, any
other form of several tokens a quote of itself. -/
def quote : List Token → Token
  | [t] =>
    if t.isSymbol then .done (.atom t.content) t.pos?
    else if t.isLiteral then .done (.string t.content) t.pos?
    else t
  | form =>
    match form with
    | .opening "(" "" _ :: _ => .stable (.quote (strip form))
    | _ => .stable (.quote form)

end TokenLang.Form

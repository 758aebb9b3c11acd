import TokenLang.Proofs.Eval.Contract

/-!
The scan on a shared buffer. A cursor goes over one buffer from a place on, keeps the places of the
brackets that are open, and writes what a region or a pending token becomes over the tokens that it
takes the place of: everything it does, it does by place. `Cursor.advance` is one round of it and
`Cursor.run` goes on to the end.

Inside a quoting bracket most rounds leave a token as written (`Cursor.asWritten?`). A run takes any
number of these along with the next round that does more (`Cursor.glide`), so that it counts the
steps that the scan counts.
-/

set_option autoImplicit false
set_option relaxedAutoImplicit false

namespace TokenLang

open Program (StepAnswer replace)

/-! ### What takes the place of what -/

/-- Puts tokens in a buffer in place of others: how many they are, and the buffer then. -/
def Program.put (buffer : List Token) (start stop : Nat) (tokens : List Token) : Nat × List Token :=
  (tokens.length, replace buffer start stop tokens)

open Program (put)

namespace Envoy

/-- Quotes the form after the place of the marker. -/
def quoteAt (id : ScopeId) (buffer : List Token) (i : Nat) : EvalM (Nat × List Token) := do
  let stop ← EvalM.ofFailure (Form.stop (← EvalM.scope id).isMarker buffer (i + 1))
  return put buffer i stop [Form.quote (buffer.extract (i + 1) stop)]

/-- Unquotes what stands after the place of the marker, a token there being the given one. What is
left after the form tells where it ended. -/
def unquoteAt (ev : Evaluator) (id : ScopeId) (t : Token) (buffer : List Token) (i : Nat) :
    EvalM (Nat × List Token) := do
  let s ← EvalM.scope id
  if t.isSymbol && !s.isMarker t then
    match s.get? t.content with
    | some bound => return put buffer i (i + 2) bound.unwrapped
    | none => return put buffer i (i + 1) []
  else
    match ← ev.next id (buffer.drop (i + 1)) with
    | (some v, rest) => return put buffer i (buffer.length - rest.length) v.unwrapped
    | (none, rest) => return put buffer i (buffer.length - rest.length) []

/-- Lets the envoy at a place of a buffer act. -/
def applyAt (ev : Evaluator) (fuel : Nat) (id : ScopeId) (e : Envoy) (buffer : List Token)
    (i : Nat) : EvalM (Nat × List Token) :=
  match e, buffer[i + 1]? with
  | .splice tokens, _ => return put buffer i (i + 1) tokens
  | .host key held, _ => return put buffer i (i + 1) (← ofHost ev fuel id key held)
  | .mutant _ scope body, _ =>
    return put buffer i (i + 1) (splicedLast (← ev.reduce fuel scope body))
  | .quote, some t => if t.isClosing then return put buffer i (i + 1) [] else quoteAt id buffer i
  | .unquote, some t =>
    if t.isClosing then return put buffer i (i + 1) [] else unquoteAt ev id t buffer i
  | .quote, none | .unquote, none => return put buffer i (i + 1) []

end Envoy

namespace Evaluator

variable (ev : Evaluator) (fuel : Nat) (id : ScopeId)

/-- Lets the pending token or envoy at a place of a buffer act. -/
def actAt (t : Token) (buffer : List Token) (i : Nat) : EvalM (Nat × List Token) :=
  match t with
  | .envoy e _ => e.applyAt ev fuel id buffer i
  | .literal _ _ _ _ => do return put buffer i (i + 1) (← ev.closeLiteral fuel id t)
  | _ => do return put buffer i (i + 1) [← resolve id t]

/-- Closes the region of a buffer from an opening bracket to just before a place. -/
def closeAt (buffer : List Token) (o stop : Nat) : EvalM (List Token) := do
  return replace buffer o stop
    (← ev.close fuel id (buffer[o]?.getD .null) (buffer.extract (o + 1) (stop - 1)))

end Evaluator

/-! ### The cursor -/

/-- A scan on a shared buffer: the places of the open brackets, innermost first, how many of these
quote, the place that is looked at next, and how often it has been resolved already. -/
structure Cursor where
  buffer : List Token
  opens : List Nat
  quoting : Nat
  place : Nat
  hops : Nat

namespace Cursor

def start (buffer : List Token) (place : Nat) : Cursor := ⟨buffer, [], 0, place, 0⟩

inductive Progress where
  | more (c : Cursor)
  | over (a : StepAnswer)

def giveUp (c : Cursor) (f : Failure) : EvalM Progress := return .over ⟨none, c.buffer, some f⟩

/-- The token at the place of an open bracket. -/
def openingAt (c : Cursor) (o : Nat) : Token := c.buffer[o]?.getD .null

/-- How many open brackets quote after one of them is closed. -/
def quotingWithout (c : Cursor) (o : Nat) : Nat :=
  if (c.openingAt o).quotes then c.quoting - 1 else c.quoting

/-- Passes a token that is left as written. -/
def skip (c : Cursor) : Cursor := { c with place := c.place + 1 }

/-- Passes an opening bracket. -/
def enter (c : Cursor) (t : Token) : Cursor :=
  ⟨c.buffer, c.place :: c.opens, if t.quotes then c.quoting + 1 else c.quoting, c.place + 1, 0⟩

/-- Passes a complete token, which is the result outside all brackets. -/
def pass (c : Cursor) : Progress :=
  match c.opens with
  | [] => .over ⟨some c.place, c.buffer, none⟩
  | _ :: _ => .more { c with place := c.place + 1, hops := 0 }

variable (ev : Evaluator) (fuel : Nat) (id : ScopeId)

/-- Closes the region from an open bracket to the place that is looked at, and goes back to where it
was. -/
def close (c : Cursor) (o : Nat) (opens : List Nat) : EvalM Progress := do
  match ← EvalM.attempt (ev.closeAt fuel id c.buffer o (c.place + 1)) with
  | .ok buffer => return .more ⟨buffer, opens, c.quotingWithout o, o, 0⟩
  | .error failure => c.giveUp failure

/-- A closing bracket. Inside a quoting bracket it is left as written. -/
def leave (c : Cursor) (t : Token) : EvalM Progress :=
  match c.opens with
  | [] => c.giveUp (.blaming t (.unexpectedClosing t.text))
  | o :: opens =>
    if !(c.openingAt o).closesWith t then
      c.giveUp (.blaming t (.mismatched (c.openingAt o).text t.text))
    else if 0 < c.quotingWithout o then
      return .more ⟨c.buffer, opens, c.quotingWithout o, c.place + 1, c.hops⟩
    else c.close ev fuel id o opens

/-- A pending token or an envoy. -/
def resolve (c : Cursor) (t : Token) : EvalM Progress := do
  let hops := c.hops + 1
  if (← EvalM.scope id).maxHops < hops then c.giveUp (.blaming t (.tooManyHops t.text))
  else
    match ← EvalM.attempt (ev.actAt fuel id t c.buffer c.place) with
    | .ok (placed, buffer) =>
      return .more ⟨buffer, c.opens, c.quoting, c.place, if placed = 0 then 0 else hops⟩
    | .error failure => c.giveUp failure

/-- The end of the buffer. -/
def finish (c : Cursor) : EvalM Progress :=
  match c.opens with
  | [] => return .over ⟨none, c.buffer, none⟩
  | o :: _ => c.giveUp (.blaming (c.openingAt o) (.neverClosed (c.openingAt o).text))

/-- One round. -/
def advance (c : Cursor) : EvalM Progress :=
  match c.buffer[c.place]? with
  | none => c.finish
  | some t =>
    if t.isDelimiter then
      if t.closes then c.leave ev fuel id t else return .more (c.enter t)
    else if 0 < c.quoting then return .more c.skip
    else if t.isComplete then return c.pass
    else c.resolve ev fuel id t

/-! ### Rounds that leave a token as written -/

/-- What a round comes to that leaves a token as written. -/
def asWritten? (c : Cursor) : Option Cursor :=
  if c.quoting = 0 then none
  else
    match c.buffer[c.place]? with
    | none => none
    | some t =>
      if !t.isDelimiter then some c.skip
      else if !t.closes then some (c.enter t)
      else
        match c.opens with
        | [] => none
        | o :: opens =>
          if (c.openingAt o).closesWith t && 0 < c.quotingWithout o then
            some ⟨c.buffer, opens, c.quotingWithout o, c.place + 1, c.hops⟩
          else none

theorem asWritten?_eq_none {c : Cursor} (h : c.quoting = 0) : c.asWritten? = none := by
  rw [asWritten?, if_pos h]

/-- What such a round can do: pass a token that is no bracket, an opening bracket, or one that
closes a bracket inside the quoting one. -/
theorem asWritten?_cases {c c' : Cursor} (h : c.asWritten? = some c') :
    0 < c.quoting ∧ ∃ t, c.buffer[c.place]? = some t ∧
      (t.isDelimiter = false ∧ c' = c.skip ∨
        t.isDelimiter = true ∧ t.closes = false ∧ c' = c.enter t ∨
        t.isDelimiter = true ∧ t.closes = true ∧ ∃ o opens, c.opens = o :: opens ∧
          (c.openingAt o).closesWith t = true ∧ 0 < c.quotingWithout o ∧
          c' = ⟨c.buffer, opens, c.quotingWithout o, c.place + 1, c.hops⟩) := by
  unfold asWritten? at h
  split_ifs at h with hquoting
  refine ⟨Nat.pos_of_ne_zero hquoting, ?_⟩
  cases ht : c.buffer[c.place]? with
  | none => simp [ht] at h
  | some t =>
    refine ⟨t, rfl, ?_⟩
    simp only [ht] at h
    split_ifs at h with hplain hopening
    · cases h
      exact .inl ⟨by simpa using hplain, rfl⟩
    · cases h
      exact .inr (.inl ⟨by simpa using hplain, by simpa using hopening, rfl⟩)
    · refine .inr (.inr ⟨by simpa using hplain, by simpa using hopening, ?_⟩)
      cases hopens : c.opens with
      | nil => simp [hopens] at h
      | cons o opens =>
        simp only [hopens] at h
        split_ifs at h with hcloses
        obtain ⟨hmatch, hwithout⟩ := Bool.and_eq_true_iff.mp hcloses
        cases h
        exact ⟨o, opens, rfl, hmatch, of_decide_eq_true hwithout, rfl⟩

/-- It does nothing else. -/
theorem advance_of_asWritten? {c c' : Cursor} (h : c.asWritten? = some c') :
    c.advance ev fuel id = pure (.more c') := by
  obtain ⟨hquoting, t, ht, ⟨hplain, rfl⟩ | ⟨hdelimiter, hopening, rfl⟩ |
    ⟨hdelimiter, hcloses, o, opens, hopens, hmatch, hwithout, rfl⟩⟩ := asWritten?_cases h
  · simp [advance, ht, hplain, hquoting]
  · simp [advance, ht, hdelimiter, hopening]
  · simp [advance, ht, hdelimiter, hcloses, leave, hopens, hmatch, hwithout]

/-- It goes on by one place. -/
theorem place_of_asWritten? {c c' : Cursor} (h : c.asWritten? = some c') :
    c.place < c.buffer.length ∧ c'.buffer = c.buffer ∧ c'.place = c.place + 1 := by
  obtain ⟨-, t, ht, ⟨-, rfl⟩ | ⟨-, -, rfl⟩ | ⟨-, -, o, opens, -, -, -, rfl⟩⟩ := asWritten?_cases h
  all_goals exact ⟨(List.getElem?_eq_some_iff.mp ht).1, rfl, rfl⟩

/-- Goes on to the first round that does more. -/
def glide (c : Cursor) : Cursor :=
  match _h : c.asWritten? with
  | some c' => c'.glide
  | none => c
termination_by c.buffer.length - c.place
decreasing_by
  obtain ⟨hlt, hbuffer, hplace⟩ := place_of_asWritten? _h
  rw [hbuffer, hplace]
  omega

theorem glide_of_some {c c' : Cursor} (h : c.asWritten? = some c') : c.glide = c'.glide := by
  rw [glide]
  split
  · rename_i heq
    rw [h] at heq
    cases heq
    rfl
  · rename_i heq
    rw [h] at heq
    cases heq

theorem glide_of_none {c : Cursor} (h : c.asWritten? = none) : c.glide = c := by
  rw [glide]
  split
  · rename_i heq
    rw [h] at heq
    cases heq
  · rfl

end Cursor

/-! ### Runs -/

/-- What a step on a shared buffer came to, for one who looks at the tokens from the result on. -/
def Program.StepAnswer.reduction (a : StepAnswer) : Reduction :=
  match a.failure, a.place with
  | some f, _ => .failed f a.buffer
  | none, some i => .value (a.buffer[i]?.getD .null) (a.buffer.drop (i + 1))
  | none, none => .nothing

/-- What a reduction comes to behind other tokens. -/
def Program.StepAnswer.behind (before : List Token) : Reduction → StepAnswer
  | .value t rest => ⟨some before.length, before ++ t :: rest, none⟩
  | .nothing => ⟨none, before, none⟩
  | .failed f left => ⟨none, before ++ left, some f⟩

/-- What a step on a buffer comes to when other tokens stand in front of it. -/
def Program.StepAnswer.shift (before : List Token) (a : StepAnswer) : StepAnswer :=
  ⟨a.place.map (before.length + ·), before ++ a.buffer, a.failure⟩

theorem Program.StepAnswer.behind_eq_shift (before : List Token) (r : Reduction) :
    behind before r = (behind [] r).shift before := by
  cases r <;> simp [behind, shift]

theorem Program.StepAnswer.reduction_map_behind (x : EvalM Reduction) :
    reduction <$> behind [] <$> x = x := by
  have hbehind : ∀ r, (behind [] r).reduction = r := fun r ↦ by cases r <;> rfl
  rw [← comp_map, show reduction ∘ behind [] = id from funext hbehind, id_map]

/-- Goes on until a result is there, at most `fuel` rounds that do more than to leave a token as
written. -/
def Cursor.run : Nat → ScopeId → Cursor → EvalM StepAnswer
  | 0, _, _ => throw .exhausted
  | fuel + 1, id, c => do
    match ← c.glide.advance
      (fun scope tokens ↦ StepAnswer.reduction <$> run fuel scope (start tokens 0)) fuel id with
    | .more c => run fuel id c
    | .over a => return a

end TokenLang

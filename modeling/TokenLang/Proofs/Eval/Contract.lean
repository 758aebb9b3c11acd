import Mathlib.Tactic
import TokenLang.Eval.Scan
import TokenLang.Program

/-!
Contracts for computations. `EvalM.Meets` says of a computation, for every world it may start in,
how the world after it is related to the world before, which answers it may give and which stops
it may come to. The rules here carry a contract through the ways computations are put together:
sequence, catching a failure, blaming a token for one, saying where a value was missing.

`World.Admits` collects the changes that an evaluation makes to a world. A relation that holds
across each of them, and across a call that binds names, runs and unbinds them again, holds across
every evaluation.
-/

set_option autoImplicit false
set_option relaxedAutoImplicit false

namespace TokenLang

/-! ### What a gap can be -/

/-- The keys among keys and values in turn. -/
def Token.keysIn : List Token → List Token
  | [] => []
  | [key] => [key]
  | key :: _ :: rest => key :: keysIn rest

/-- Whether a varying asks for the value of a token in its region that has none: a map for that of
a key, a set for that of a member, a call for that of any token. -/
def Varying.Lacks (v : Varying) (inside : List Token) : Prop :=
  match v with
  | .map => ∃ t ∈ Token.keysIn inside, t.value? = none
  | .set | .call => ∃ t ∈ inside, t.value? = none
  | _ => False

/-- Gaps that an evaluation can come upon: in a region that was left as written, or in a counted
name that is bound to a token without a value. -/
def Gap.Known : Gap → Prop
  | .region v opening inside => opening.quotes = true ∧ v.Lacks inside
  | .counter bound => bound.value? = none
  | .elsewhere => False

/-- The stops a computation may come to: `failures` says whether it may fail, and `gaps` whether
it may ask for a value that is missing without saying where. -/
def Stop.Allowed (failures gaps : Prop) : Stop → Prop
  | .failed _ => failures
  | .missingValue .elsewhere => gaps
  | .missingValue gap => gap.Known
  | .exhausted => True

theorem Stop.Allowed.mono {failures gaps failures' gaps' : Prop} {stop : Stop}
    (h : stop.Allowed failures gaps) (hfailures : failures → failures') (hgaps : gaps → gaps') :
    stop.Allowed failures' gaps' := by
  cases stop with
  | failed f => exact hfailures h
  | missingValue gap =>
    cases gap with
    | region v opening inside => exact h
    | counter bound => exact h
    | elsewhere => exact hgaps h
  | exhausted => trivial

namespace EvalM

variable {α β : Type}

/-! ### Running a computation -/

/-- How a computation that starts in a world ends. -/
def outcome (x : EvalM α) (w : World) : Except Stop α := (x.run.run w).1

/-- The world after a computation. -/
def after (x : EvalM α) (w : World) : World := (x.run.run w).2

theorem run_bind (x : EvalM α) (f : α → EvalM β) (w : World) : (x >>= f).run.run w =
    match x.outcome w with
    | .ok a => (f a).run.run (x.after w)
    | .error stop => (.error stop, x.after w) := by
  unfold outcome after
  change (ExceptT.bindCont f (x.run.run w).1).run (x.run.run w).2 = _
  cases (x.run.run w).1 <;> rfl

@[simp] theorem outcome_bind (x : EvalM α) (f : α → EvalM β) (w : World) : (x >>= f).outcome w =
    match x.outcome w with
    | .ok a => (f a).outcome (x.after w)
    | .error stop => .error stop := by
  rw [outcome, run_bind]
  cases x.outcome w <;> rfl

@[simp] theorem after_bind (x : EvalM α) (f : α → EvalM β) (w : World) : (x >>= f).after w =
    match x.outcome w with
    | .ok a => (f a).after (x.after w)
    | .error _ => x.after w := by
  rw [after, run_bind]
  cases x.outcome w <;> rfl

@[simp] theorem outcome_pure (a : α) (w : World) : (pure a : EvalM α).outcome w = .ok a := rfl

@[simp] theorem after_pure (a : α) (w : World) : (pure a : EvalM α).after w = w := rfl

@[simp] theorem outcome_throw (stop : Stop) (w : World) :
    (throw stop : EvalM α).outcome w = .error stop := rfl

@[simp] theorem after_throw (stop : Stop) (w : World) : (throw stop : EvalM α).after w = w := rfl

@[simp] theorem outcome_scope (id : ScopeId) (w : World) :
    (scope id).outcome w = .ok (w.scope id) := rfl

@[simp] theorem after_scope (id : ScopeId) (w : World) : (scope id).after w = w := rfl

@[simp] theorem outcome_modifyScope (id : ScopeId) (f : Scope → Scope) (w : World) :
    (modifyScope id f).outcome w = .ok () := rfl

@[simp] theorem after_modifyScope (id : ScopeId) (f : Scope → Scope) (w : World) :
    (modifyScope id f).after w = w.modifyScope id f := rfl

@[simp] theorem outcome_freshRef (w : World) : freshRef.outcome w = .ok w.nextRef := rfl

@[simp] theorem after_freshRef (w : World) :
    freshRef.after w = { w with nextRef := w.nextRef + 1 } := rfl

@[simp] theorem outcome_derive (id : ScopeId) (w : World) :
    (derive id).outcome w = .ok w.scopes.size := rfl

@[simp] theorem after_derive (id : ScopeId) (w : World) :
    (derive id).after w = { w with scopes := w.scopes.push (w.scope id) } := rfl

@[simp] theorem outcome_ofExcept (x : Except Stop α) (w : World) : (ofExcept x).outcome w = x := rfl

@[simp] theorem after_ofExcept (x : Except Stop α) (w : World) : (ofExcept x).after w = w := rfl

theorem run_mk_bind (x : EvalM α) (f : Except Stop α → StateM World (Except Stop β)) (w : World) :
    (ExceptT.mk (x.run >>= f) : EvalM β).run.run w = (f (x.outcome w)).run (x.after w) := rfl

@[simp] theorem after_attempt (x : EvalM α) (w : World) : (attempt x).after w = x.after w := by
  rw [after, attempt, run_mk_bind]
  rcases x.outcome w with (f | _ | _) | a <;> rfl

@[simp] theorem outcome_attempt (x : EvalM α) (w : World) : (attempt x).outcome w =
    match x.outcome w with
    | .ok a => .ok (.ok a)
    | .error (.failed f) => .ok (.error f)
    | .error stop => .error stop := by
  rw [outcome, attempt, run_mk_bind]
  rcases x.outcome w with (f | _ | _) | a <;> rfl

@[simp] theorem after_locating (gap : Gap) (x : EvalM α) (w : World) :
    (locating gap x).after w = x.after w := by
  rw [after, locating, run_mk_bind]
  rcases x.outcome w with (f | (_ | _ | _) | _) | a <;> rfl

@[simp] theorem outcome_locating (gap : Gap) (x : EvalM α) (w : World) :
    (locating gap x).outcome w =
      match x.outcome w with
      | .error (.missingValue .elsewhere) => .error (.missingValue gap)
      | answer => answer := by
  rw [outcome, locating, run_mk_bind]
  rcases x.outcome w with (f | (_ | _ | _) | _) | a <;> rfl

@[simp] theorem outcome_ensuring (x : EvalM α) (f : World → World) (w : World) :
    (ensuring x f).outcome w = x.outcome w := rfl

@[simp] theorem after_ensuring (x : EvalM α) (f : World → World) (w : World) :
    (ensuring x f).after w = f (x.after w) := rfl

/-- A computation that comes to an answer came to one at each of its steps. -/
theorem ok_of_bind {x : EvalM α} {f : α → EvalM β} {b : β} {w : World}
    (h : (x >>= f).outcome w = .ok b) :
    ∃ a, x.outcome w = .ok a ∧ (f a).outcome (x.after w) = .ok b := by
  rw [outcome_bind] at h
  cases hx : x.outcome w with
  | error stop =>
    rw [hx] at h
    cases h
  | ok a =>
    rw [hx] at h
    exact ⟨a, rfl, h⟩

theorem ok_of_attempt {x : EvalM α} {a : α} {w : World}
    (h : (attempt x).outcome w = .ok (.ok a)) : x.outcome w = .ok a := by
  rw [outcome_attempt] at h
  rcases hx : x.outcome w with (f | _ | _) | b <;> rw [hx] at h <;> cases h
  rfl

/-! ### Contracts -/

/-- From every world, the world after a computation is related to the one before, its answer is
one of those that are promised, and its stop one of those that are allowed. -/
def Meets (R : World → World → Prop) (failures gaps : Prop) (P : α → Prop) (x : EvalM α) : Prop :=
  ∀ w, R w (x.after w) ∧
    match x.outcome w with
    | .ok a => P a
    | .error stop => stop.Allowed failures gaps

section Rules

variable {R : World → World → Prop} {failures gaps : Prop} {P : α → Prop} {x : EvalM α}

theorem Meets.mono (h : Meets R failures gaps P x) {failures' gaps' : Prop} {P' : α → Prop}
    (hfailures : failures → failures') (hgaps : gaps → gaps') (hP : ∀ a, P a → P' a) :
    Meets R failures' gaps' P' x := by
  intro w
  obtain ⟨hR, hend⟩ := h w
  refine ⟨hR, ?_⟩
  cases hx : x.outcome w with
  | ok a =>
    rw [hx] at hend
    exact hP a hend
  | error stop =>
    rw [hx] at hend
    exact hend.mono hfailures hgaps

/-- What is promised of the answers can be forgotten. -/
theorem Meets.any (h : Meets R failures gaps P x) : Meets R failures gaps (fun _ ↦ True) x :=
  h.mono id id fun _ _ ↦ trivial

/-- A sequence meets what both its parts meet, if the second does for all answers of the first. -/
theorem Meets.bind (htrans : ∀ u v w, R u v → R v w → R u w) {Q : β → Prop} {f : α → EvalM β}
    (hx : Meets R failures gaps P x) (hf : ∀ a, P a → Meets R failures gaps Q (f a)) :
    Meets R failures gaps Q (x >>= f) := by
  intro w
  obtain ⟨hR, hend⟩ := hx w
  rw [outcome_bind, after_bind]
  cases houtcome : x.outcome w with
  | ok a =>
    rw [houtcome] at hend
    obtain ⟨hR', hend'⟩ := hf a hend (x.after w)
    exact ⟨htrans _ _ _ hR hR', hend'⟩
  | error stop =>
    rw [houtcome] at hend
    exact ⟨hR, hend⟩

/-- Catching failures. -/
theorem Meets.attempt (h : Meets R True gaps P x) :
    Meets R failures gaps (fun answer ↦ ∀ a, answer = .ok a → P a) (attempt x) := by
  intro w
  obtain ⟨hR, hend⟩ := h w
  rw [after_attempt, outcome_attempt]
  refine ⟨hR, ?_⟩
  rcases hx : x.outcome w with (f | gap | _) | a
  · intro a ha
    cases ha
  · rw [hx] at hend
    cases gap <;> exact hend
  · trivial
  · rw [hx] at hend
    intro b hb
    cases hb
    exact hend

/-- Saying where a value was missing. -/
theorem Meets.locating {gap : Gap} (h : Meets R failures gaps P x)
    (hgap : gaps → gap.Known) : Meets R failures False P (locating gap x) := by
  intro w
  obtain ⟨hR, hend⟩ := h w
  rw [after_locating, outcome_locating]
  refine ⟨hR, ?_⟩
  rcases hx : x.outcome w with (f | gap' | _) | a
  · rw [hx] at hend
    exact hend
  · rw [hx] at hend
    cases gap' with
    | region v opening inside => exact hend
    | counter bound => exact hend
    | elsewhere =>
      have hknown := hgap hend
      cases gap with
      | region v opening inside => exact hknown
      | counter bound => exact hknown
      | elsewhere => exact hknown
  · trivial
  · rw [hx] at hend
    exact hend

end Rules

end EvalM

/-! ### Changes of a world -/

namespace Scope

/-- Shadows names in turn. -/
def pushAll (s : Scope) (bindings : List (String × Token)) : Scope :=
  bindings.foldl (fun s binding ↦ s.push binding.1 binding.2) s

/-- Pops names in turn, the last one first. -/
def popAll (s : Scope) (names : List String) : Scope := names.foldr (fun name s ↦ s.pop name) s

/-- What the parameters of a call are bound to. -/
theorem exists_bindParams (params : List String) (args : List Token) :
    ∃ bindings : List (String × Token), bindings.map Prod.fst = params ++ [leftoverName] ∧
      ∀ s : Scope, s.bindParams params args = s.pushAll bindings := by
  induction params generalizing args with
  | nil => exact ⟨[(leftoverName, .stable (.list args))], rfl, fun s ↦ rfl⟩
  | cons name params ih =>
    cases args with
    | nil =>
      obtain ⟨bindings, hnames, heq⟩ := ih []
      exact ⟨(name, .null) :: bindings, by simp [hnames], fun s ↦ heq (s.push name .null)⟩
    | cons t args =>
      obtain ⟨bindings, hnames, heq⟩ := ih args
      exact ⟨(name, t) :: bindings, by simp [hnames], fun s ↦ heq (s.push name t)⟩

theorem unbindParams_eq (s : Scope) (params : List String) :
    s.unbindParams params = s.popAll (params ++ [leftoverName]) := by
  unfold unbindParams popAll
  rw [List.foldl_reverse, List.foldr_append]
  rfl

end Scope

/-- A relation that holds across every change an evaluation makes to a world. A call binds names
in a scope, runs, and pops them again; the scopes that it derives are new ones. -/
structure World.Admits (R : World → World → Prop) : Prop where
  refl : ∀ w, R w w
  trans : ∀ u v w, R u v → R v w → R u w
  refs : ∀ (w : World) (n : Nat), w.nextRef ≤ n → R w { w with nextRef := n }
  output : ∀ (w : World) (text : String), R w { w with output := w.output ++ text }
  remember : ∀ (w : World) (n : Nat), R w { w with memory := n }
  generator : ∀ (w : World) (g : Generator), R w { w with generator := g }
  derive : ∀ (w : World) (s : Scope), R w { w with scopes := w.scopes.push s }
  define : ∀ (w : World) (id : ScopeId) (name : String) (t : Token) (s : Scope),
    (w.scope id).define name t = .ok s → R w (w.modifyScope id fun _ ↦ s)
  assign : ∀ (w : World) (id : ScopeId) (name : String) (t : Token) (s : Scope),
    (w.scope id).assign name t = .ok s → R w (w.modifyScope id fun _ ↦ s)
  call : ∀ (w w' : World) (id : ScopeId) (bindings : List (String × Token)) (n : Nat),
    w.nextRef ≤ n →
    R (({ w with nextRef := n } : World).modifyScope id fun s ↦ s.pushAll bindings) w' →
    R w (w'.modifyScope id fun s ↦ s.popAll (bindings.map Prod.fst))

/-- Any two worlds. -/
theorem World.admits_true : World.Admits fun _ _ ↦ True := by
  constructor <;> intros <;> trivial

end TokenLang

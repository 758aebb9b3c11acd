import TokenLang.Proofs.Eval.Discipline

/-!
Parts of an evaluation that evaluate nothing themselves keep every discipline: cutting forms,
reading names, binding, capturing a scope, methods, primitive functions, binding parameters,
grouping infix forms. There is one lemma for each; it says that the part agrees with itself from
tokens that are fit. Where a part asks whether a scope is strict, the second computation may be the
more lenient one.
-/

set_option autoImplicit false
set_option relaxedAutoImplicit false

namespace TokenLang

open Discipline
open Token (allOnly_nil allOnly_cons allOnly_append)

namespace Discipline

variable {S : Type} [Preorder S] (D : Discipline S)

/-- A token and the arguments after it. -/
def FitNext (σ : S) (answer : Option Token × List Token) : Prop :=
  (∀ t, answer.1 = some t → D.Fit σ t) ∧ D.AllFit σ answer.2

/-- Tokens that are put in place of others, and the buffer after them. -/
def FitPlaced (σ : S) (answer : List Token × List Token) : Prop :=
  D.AllFit σ answer.1 ∧ D.AllFit σ answer.2

/-- At most one token, which may occur. -/
def FitAnswer (σ : S) (answer : Option Token) : Prop := ∀ t, answer = some t → D.Fit σ t

end Discipline

variable {S : Type} [Preorder S] {D : Discipline S} (fuel : Nat) {id : ScopeId} {σ : S}

theorem allFit_singleton {t : Token} (h : D.Fit σ t) : D.AllFit σ [t] :=
  allOnly_cons.mpr ⟨h, allOnly_nil⟩

theorem fit_getD {t? : Option Token} (h : ∀ t, t? = some t → D.Fit σ t) {other : Token}
    (hother : D.Fit σ other) : D.Fit σ (t?.getD other) := by
  cases t? with
  | none => exact hother
  | some t => exact h t rfl

theorem fitAnswer_some {t : Token} (h : D.Fit σ t) : D.FitAnswer σ (some t) := by
  intro u hu
  cases hu
  exact h

theorem fitAnswer_none : D.FitAnswer σ none := fun _ h ↦ by cases h

theorem fitAnswer_of_toList {answer : Option Token} (h : D.AllFit σ answer.toList) :
    D.FitAnswer σ answer := fun t ht ↦ h t (Option.mem_toList.mpr ht)

theorem allFit_toList {answer : Option Token} (h : D.FitAnswer σ answer) :
    D.AllFit σ answer.toList := fun t ht ↦ h t (Option.mem_toList.mp ht)

/-- A result that holds no tokens. -/
theorem plain_agrees {α : Type} (x : Except Stop α) : D.Agrees σ unspoilt (fun _ _ ↦ True)
    (EvalM.ofExcept x) (EvalM.ofExcept x) :=
  Agrees.ofExcept fun _ _ ↦ trivial

/-- Asking for a value. -/
theorem payload_agrees (t : Token) : D.Agrees σ unspoilt (fun _ v ↦ t.value? = some v)
    (EvalM.ofExcept t.payload) (EvalM.ofExcept t.payload) := by
  refine Agrees.ofExcept fun v hv ↦ ?_
  unfold Token.payload at hv
  split at hv
  · cases hv
    assumption
  · cases hv

/-! ### Forms -/

theorem cut_agrees {args : List Token} (hargs : D.AllFit σ args) :
    D.Agrees σ unspoilt D.FitPlaced (Evaluator.cut id args) (Evaluator.cut id args) := by
  refine Agrees.scope fun s s' hs _ ↦ ?_
  rw [hs.isMarker_eq]
  exact Agrees.ofFailure fun a ha ↦ Form.allOnly_split ha hargs

theorem cutAll_agrees {args : List Token} (hargs : D.AllFit σ args) :
    D.Agrees σ unspoilt (fun σ forms ↦ ∀ form ∈ forms, D.AllFit σ form)
      (Evaluator.cutAll id args) (Evaluator.cutAll id args) := by
  refine Agrees.scope fun s s' hs _ ↦ ?_
  rw [hs.isMarker_eq]
  exact Agrees.ofFailure fun a ha ↦ Form.allOnly_splitAll ha hargs

theorem quoteNext_agrees {after : List Token} (hafter : D.AllFit σ after) :
    D.Agrees σ unspoilt D.FitPlaced (Envoy.quoteNext id after) (Envoy.quoteNext id after) :=
  (cut_agrees hafter).bind fun _ _ _ hanswer ↦
    Agrees.pure ⟨allFit_singleton (Form.only_quote hanswer.1), hanswer.2⟩

theorem asWritten_agrees (callee : Token) {args : List Token} (hargs : D.AllFit σ args) :
    D.Agrees σ unspoilt D.AllFit (Varying.asWritten id callee args)
      (Varying.asWritten id callee args) := by
  unfold Varying.asWritten
  split_ifs
  · exact Agrees.pure hargs
  · refine (cutAll_agrees hargs).bind fun σ' _ forms hforms ↦ Agrees.pure fun t ht ↦ ?_
    obtain ⟨form, hform, rfl⟩ := List.mem_map.mp ht
    exact Form.only_quote (hforms form hform)

theorem applyInfix_agrees {form : List Token} (hform : D.AllFit σ form) :
    D.Agrees σ unspoilt D.AllFit (Varying.applyInfix id form) (Varying.applyInfix id form) := by
  refine Agrees.scope fun s s' hs _ ↦ ?_
  rw [hs.operatorFor_eq]
  refine (Agrees.ofFailure fun tree? htree ↦ ?_ : D.Agrees σ unspoilt (fun σ tree? ↦
    ∀ tree : OperatorTree, tree? = some tree → tree.All (D.Fit σ)) _ _).bind
      fun σ₁ _ tree? htree ↦ ?_
  · rintro tree rfl
    exact OperatorTree.all_parse htree hform
  · cases tree? with
    | none => exact Agrees.pure allOnly_nil
    | some tree =>
      exact Agrees.pure (OperatorTree.forall_mem_calls (htree tree rfl)
        (Token.only_of_plain rfl rfl) (Token.only_of_plain rfl rfl))

theorem applySym_agrees (head : Token) : D.Agrees σ unspoilt D.AllFit (Varying.applySym head)
    (Varying.applySym head) := by
  unfold Varying.applySym
  split_ifs
  · exact Agrees.pure (allFit_singleton ((Token.only_done _).mpr (Value.only_of_plain rfl rfl)))
  · exact Agrees.fail _

/-! ### Names and bindings -/

theorem nameOf_agrees (t : Token) : D.Agrees σ unspoilt (fun _ _ ↦ True)
    (SpecialForm.nameOf t) (SpecialForm.nameOf t) := by
  unfold SpecialForm.nameOf
  split_ifs
  · exact Agrees.pure trivial
  · split
    · exact Agrees.pure trivial
    · exact Agrees.pure trivial
    · exact Agrees.fail _

theorem pendingEnvoy?_eq {lax : Prop} {s s' : Scope} (hs : s.Matches lax s') (t : Token) :
    SpecialForm.pendingEnvoy? s' t = SpecialForm.pendingEnvoy? s t := by
  unfold SpecialForm.pendingEnvoy?
  split
  · rfl
  · exact hs.marker?_eq t

theorem only_marker? {s : Scope} {t : Token} {e : Envoy} (h : s.marker? t = some e)
    (p : Captor → Prop) : e.Only p := by
  unfold Scope.marker? at h
  dsimp only at h
  split at h
  · cases h
    exact ⟨fun c hc ↦ (by cases hc), allOnly_nil⟩
  · cases h
    exact ⟨fun c hc ↦ (by cases hc), allOnly_nil⟩
  · cases h

theorem only_pendingEnvoy? {s : Scope} {t : Token} {e : Envoy} {p : Captor → Prop}
    (h : SpecialForm.pendingEnvoy? s t = some e) (ht : t.Only p) : e.Only p := by
  unfold SpecialForm.pendingEnvoy? at h
  split at h
  · cases h
    exact (Token.only_envoy _).mp ht
  · exact only_marker? h p

/-- A change that there may be a cause against does the same to scopes that match: the same edit of
their stores, or none for the same cause. -/
def Scope.Revises (lax : Prop) (p : Token → Prop) (f : Scope → Except Cause Scope) : Prop :=
  ∀ s s', s.Matches lax s' → (∃ cause, f s = .error cause ∧ f s' = .error cause) ∨
    ∃ m, s.Edits p m ∧ f s = .ok { s with store := m } ∧ f s' = .ok { s' with store := m }

/-- Such a change ends alike in related worlds also where it fails, whatever the discipline. -/
theorem updateScope_related (hid : D.own σ id) {f : Scope → Except Cause Scope}
    (hf : Scope.Revises D.lax (D.Fit σ) f) {w w' : World} (hw : D.rel σ w w') :
    (EvalM.updateScope id f).outcome w' = (EvalM.updateScope id f).outcome w ∧
      D.rel σ ((EvalM.updateScope id f).after w) ((EvalM.updateScope id f).after w') := by
  unfold EvalM.updateScope
  simp only [EvalM.outcome_bind, EvalM.after_bind, EvalM.outcome_scope, EvalM.after_scope]
  rcases hf _ _ (D.scopes hw id) with ⟨cause, hs, hs'⟩ | ⟨m, hm, hs, hs'⟩
  · rw [hs, hs']
    exact ⟨rfl, hw⟩
  · rw [hs, hs']
    have hset : ∀ v : World, (v.modifyScope id fun _ ↦ { v.scope id with store := m }) =
        v.setStore id m := fun v ↦ World.modifyScope_congr rfl
    simp only [EvalM.after_modifyScope, hset]
    exact ⟨rfl, D.edit hw hid hm⟩

theorem updateScope_agrees (hid : D.own σ id) {f : Scope → Except Cause Scope}
    (hf : Scope.Revises D.lax (D.Fit σ) f) : D.Agrees σ unspoilt (fun _ _ ↦ True)
      (EvalM.updateScope id f) (EvalM.updateScope id f) := by
  intro w w' hw
  obtain ⟨houtcome, hafter⟩ := updateScope_related hid hf hw
  exact .inr ⟨σ, le_refl σ, hafter, houtcome, fun _ _ ↦ trivial⟩

/-- Host code that makes such a change and gets the failure, if there is one. -/
theorem trying_agrees (hid : D.own σ id) {f : Scope → Except Cause Scope}
    (hf : Scope.Revises D.lax (D.Fit σ) f) : D.Agrees σ unspoilt (fun _ _ ↦ True)
      (Host.Code.trying (EvalM.updateScope id f)) (Host.Code.trying (EvalM.updateScope id f)) := by
  intro w w' hw
  obtain ⟨houtcome, hafter⟩ := updateScope_related hid hf hw
  unfold Host.Code.trying
  simp only [EvalM.outcome_bind, EvalM.after_bind, EvalM.outcome_attempt, EvalM.after_attempt,
    houtcome]
  rcases (EvalM.updateScope id f).outcome w with (failure | gap | _) | _
  all_goals exact .inr ⟨σ, le_refl σ, hafter, rfl, fun _ _ ↦ trivial⟩

namespace Scope

variable {lax : Prop} {p : Token → Prop} (name : String) {t : Token}

theorem revises_define (ht : p t) : Revises lax p fun s ↦ s.define name t := by
  intro s s' hs
  beta_reduce
  unfold define
  rw [hs.isReserved_eq, hs.store]
  split_ifs with hreserved
  · exact .inl ⟨_, rfl, rfl⟩
  · have hname : s.isReserved name = false := Bool.eq_false_iff.mpr hreserved
    have hset : s.Edits p (s.store.set name t).2 := .single (.set hname ht)
    refine .inr ⟨_, ?_, rfl, rfl⟩
    split_ifs
    · exact hset
    · exact hset.tail (.push hname ht)

theorem revises_assign (ht : p t) : Revises lax p fun s ↦ s.assign name t := by
  intro s s' hs
  beta_reduce
  unfold assign
  rw [hs.isReserved_eq, hs.store]
  split_ifs with hreserved
  · exact .inl ⟨_, rfl, rfl⟩
  · dsimp only
    split_ifs
    · exact .inr ⟨_, .single (.set (Bool.eq_false_iff.mpr hreserved) ht), rfl, rfl⟩
    · exact .inl ⟨_, rfl, rfl⟩

theorem revises_popBound : Revises lax p fun s ↦ s.popBound name := by
  intro s s' hs
  have hpop := rewrites_pop (p := p) name
  beta_reduce
  unfold popBound
  rw [hs.isReserved_eq, hs.get?_eq]
  split_ifs
  · refine .inr ⟨(s.pop name).store, hpop.edits s, ?_, ?_⟩
    · rw [← hpop.eq s]
    · rw [← hpop.same s s' hs.store hs.reserved]
  · exact .inl ⟨_, rfl, rfl⟩

end Scope

theorem bind_agrees (hid : D.own σ id) (name : String) {t : Token} (ht : D.Fit σ t) :
    D.Agrees σ unspoilt (fun _ _ ↦ True) (SpecialForm.bind id name t)
      (SpecialForm.bind id name t) :=
  updateScope_agrees hid (Scope.revises_define name ht)

theorem rebind_agrees (hid : D.own σ id) (name : String) {t : Token} (ht : D.Fit σ t) :
    D.Agrees σ unspoilt (fun _ _ ↦ True) (SpecialForm.rebind id name t)
      (SpecialForm.rebind id name t) :=
  updateScope_agrees hid (Scope.revises_assign name ht)

/-! ### Captors -/

theorem paramNames_agrees (tokens : List Token) : D.Agrees σ unspoilt (fun _ _ ↦ True)
    (SpecialForm.paramNames tokens) (SpecialForm.paramNames tokens) := by
  induction tokens generalizing σ with
  | nil => exact Agrees.pure trivial
  | cons t tokens ih =>
    unfold SpecialForm.paramNames
    split_ifs
    · exact ih.bind fun _ _ _ _ ↦ Agrees.pure trivial
    · exact Agrees.fail _

theorem takeParams_agrees {args : List Token} (hargs : D.AllFit σ args) :
    D.Agrees σ unspoilt (fun σ answer ↦ D.AllFit σ answer.2) (SpecialForm.takeParams id args)
      (SpecialForm.takeParams id args) := by
  unfold SpecialForm.takeParams
  split
  · exact Agrees.failWith _
  · split_ifs
    · refine (cut_agrees hargs).bind fun σ₁ _ answer hanswer ↦ ?_
      exact (paramNames_agrees _).bind fun σ₂ h₂ _ _ ↦ Agrees.pure (allFit_mono h₂ hanswer.2)
    · exact Agrees.failWith _

/-- Deriving a scope for a captor that is made of it. -/
theorem derive_agrees (hid : D.own σ id) {make : ScopeId → Captor}
    (hscope : ∀ n, (make n).scope = n) (hbody : ∀ n, D.AllFit σ (make n).body) :
    D.Agrees σ unspoilt (fun σ n ↦ D.may σ (make n)) (EvalM.derive id) (EvalM.derive id) := by
  intro w w' hw
  obtain ⟨σ', hσ, hmay, hrel⟩ := D.derive hw hid (hscope w.scopes.size) (hbody w.scopes.size)
  refine .inr ⟨σ', hσ, hrel, ?_, fun n hn ↦ ?_⟩
  · rw [EvalM.outcome_derive, EvalM.outcome_derive, D.size hw]
  · cases hn
    exact hmay

theorem makeLambda_agrees (hid : D.own σ id) {args : List Token} (hargs : D.AllFit σ args) :
    D.Agrees σ unspoilt D.AllFit (SpecialForm.makeLambda id args)
      (SpecialForm.makeLambda id args) := by
  refine (takeParams_agrees hargs).bind fun σ₁ h₁ answer hbody ↦ ?_
  obtain ⟨params, body⟩ := answer
  refine (derive_agrees (D.own_mono h₁ hid) (fun _ ↦ rfl) (fun _ ↦ hbody) :
    D.Agrees σ₁ _ (fun σ n ↦ D.may σ (.function "" n params body)) _ _).bind
      fun σ₂ h₂ scope hmay ↦ ?_
  refine Agrees.freshRef.bind fun σ₃ h₃ ref _ ↦ Agrees.pure (allFit_singleton ?_)
  exact Token.only_of_captor rfl rfl (D.may_mono h₃ hmay) (allFit_mono (h₂.trans h₃) hbody)

/-- What captures a scope and is bound to a name in it. -/
theorem captured_agrees (hid : D.own σ id) (name : String) {make : ScopeId → Captor}
    {token : ScopeId → Ref → Token} (hscope : ∀ n, (make n).scope = n)
    (hcaptor : ∀ n ref, (token n ref).captor? = some (make n))
    (hparts : ∀ n ref, (token n ref).parts = (make n).body)
    (hbody : ∀ n, D.AllFit σ (make n).body) :
    D.Agrees σ unspoilt D.Fit (SpecialForm.captured id name token)
      (SpecialForm.captured id name token) := by
  refine (derive_agrees hid hscope hbody).bind fun σ₁ h₁ scope hmay ↦ ?_
  refine Agrees.freshRef.bind fun σ₂ h₂ ref _ ↦ ?_
  have hmay₂ := D.may_mono h₂ hmay
  have ht : D.Fit σ₂ (token scope ref) := Token.only_of_captor (hcaptor scope ref)
    (hparts scope ref) hmay₂ (allFit_mono (h₁.trans h₂) (hbody scope))
  have hown : D.own σ₂ scope := hscope scope ▸ D.own_of_may hmay₂
  exact (Agrees.modifyScope hown (Scope.rewrites_push name ht)).bind fun σ₃ h₃ _ _ ↦
    Agrees.pure (fit_mono h₃ ht)

/-! ### Methods -/

theorem drawn_agrees (i : Int64) : D.Agrees σ unspoilt D.FitAnswer (Method.drawn i)
    (Method.drawn i) :=
  Agrees.pure (fitAnswer_some (Value.only_of_plain rfl rfl))

theorem float_agrees (x : Float) : D.Agrees σ unspoilt D.FitAnswer (Method.float x)
    (Method.float x) :=
  (Agrees.numberToken _).bind fun _ _ _ ht ↦ Agrees.pure (fitAnswer_some ht)

/-- Random numbers come from the generator, which is the same on both sides. -/
theorem ofRng_agrees (name : String) (args : List Token) : D.Agrees σ unspoilt D.FitAnswer
    (Method.ofRng fuel name args) (Method.ofRng fuel name args) := by
  unfold Method.ofRng
  split
  · dsimp only
    split_ifs
    · exact drawn_agrees _
    · refine Agrees.get fun w w' hw ↦ ?_
      rw [D.generator hw]
      split
      · exact (Agrees.setGenerator _).bind fun _ _ _ _ ↦ drawn_agrees _
      · exact Agrees.throw _
  · dsimp only
    split_ifs
    · exact Agrees.draw.bind fun _ _ _ _ ↦ drawn_agrees _
    · exact Agrees.draw.bind fun _ _ _ _ ↦ drawn_agrees _
  · dsimp only
    split_ifs
    · exact Agrees.draw.bind fun _ _ _ _ ↦ drawn_agrees _
    · exact Agrees.draw.bind fun _ _ _ _ ↦ drawn_agrees _
  · exact Agrees.draw.bind fun _ _ _ _ ↦ float_agrees _
  · exact Agrees.draw.bind fun _ _ _ _ ↦
      Agrees.pure (fitAnswer_some (Value.only_of_plain rfl rfl))
  · exact (Agrees.setGenerator _).bind fun _ _ _ _ ↦ Agrees.pure fitAnswer_none
  · exact Agrees.throw _

/-- Mathematical functions read numbers from their arguments and make a new value. -/
theorem ofMath_agrees (name : String) {args : List Token} (hargs : D.AllFit σ args) :
    D.Agrees σ unspoilt D.FitAnswer (Method.ofMath name args) (Method.ofMath name args) := by
  unfold Method.ofMath
  split
  · exact float_agrees _
  · split
    · split
      · exact Agrees.pure (fitAnswer_some Token.only_null)
      · exact drawn_agrees _
      · exact float_agrees _
    · split
      · split
        · exact Agrees.pure (fitAnswer_some Token.only_null)
        · exact (Agrees.ofExcept fun t ht ↦ hargs t (Method.mem_of_best _ ht) :
            D.Agrees σ unspoilt D.Fit _ _).bind fun _ _ _ ht ↦ Agrees.pure (fitAnswer_some ht)
      · split
        · exact float_agrees _
        · exact float_agrees _
        · exact float_agrees _
        · exact Agrees.throw _

theorem gathers_agrees {x : Except Stop (Option Token)} (h : Method.Gathers (D.Fit σ) x) :
    D.Agrees σ unspoilt D.FitAnswer (EvalM.ofExcept x) (EvalM.ofExcept x) :=
  Agrees.ofExcept fun _ ha _ ht ↦ h.only (ht ▸ ha)

/-! ### Strictness -/

namespace ArithOp

/-- What counts for a number in a strict scope counts for the same number in any. -/
theorem operandOf_relax {op : ArithOp} {t : Token} {n : Number}
    (h : op.operandOf true t = .ok n) : op.operandOf false t = .ok n := by
  unfold operandOf at h ⊢
  cases hpayload : t.payload with
  | error stop => rw [hpayload] at h; cases h
  | ok v =>
    rw [hpayload] at h
    cases hnumber : v.number? with
    | none => simp [bind, Except.bind, hnumber] at h
    | some m => simpa [bind, Except.bind, hnumber] using h

/-- A fold that is allowed in a strict scope comes to the same in one that is not. -/
theorem foldFrom_relax {op : ArithOp} {acc n : Number} {args : List Token}
    (h : op.foldFrom true acc args = .ok n) : op.foldFrom false acc args = .ok n := by
  induction args generalizing acc with
  | nil => exact h
  | cons t args ih =>
    unfold foldFrom at h ⊢
    cases hoperand : op.operandOf true t with
    | error stop => rw [hoperand] at h; cases h
    | ok m =>
      rw [hoperand] at h
      rw [operandOf_relax hoperand]
      cases happly : op.apply acc m with
      | error stop => simp [bind, Except.bind, happly] at h
      | ok acc' =>
        simp only [bind, Except.bind, happly] at h ⊢
        exact ih h

/-- The same for all operands of an operator. -/
theorem fold_relax {op : ArithOp} {args : List Token} {n : Number}
    (h : op.fold true args = .ok n) : op.fold false args = .ok n := by
  unfold fold at h ⊢
  split at h
  · exact h
  · rename_i t
    cases hoperand : op.operandOf true t with
    | error stop => rw [hoperand] at h; cases h
    | ok m =>
      rw [hoperand] at h
      rw [operandOf_relax hoperand]
      exact h
  · rename_i t rest hrest
    cases hoperand : op.operandOf true t with
    | error stop => rw [hoperand] at h; cases h
    | ok m =>
      rw [hoperand] at h
      simp only [operandOf_relax hoperand]
      exact foldFrom_relax h

end ArithOp

theorem fold_of_matches {lax : Prop} {s s' : Scope} (hs : s.Matches lax s') (op : ArithOp)
    (args : List Token) : op.fold s'.strict args = op.fold s.strict args ∨
      lax ∧ ∀ n, op.fold s.strict args = .ok n → op.fold s'.strict args = .ok n := by
  rcases hs.strict_cases with h | ⟨hlax, hstrict, hlenient⟩
  · exact .inl (by rw [h])
  · rw [hstrict, hlenient]
    exact .inr ⟨hlax, fun n ↦ ArithOp.fold_relax⟩

/-- What is done unless the scope is strict and something is amiss. -/
theorem unlessStrict_agrees {α : Type} {Q : S → α → Prop} {s s' : Scope}
    (hs : s.Matches D.lax s') (amiss : Bool) (cause : Cause) {f g : PUnit → EvalM α}
    (hf : D.Agrees σ unspoilt Q (f ⟨⟩) (g ⟨⟩)) : D.Agrees σ unspoilt Q
      (if (s.strict && amiss) = true then EvalM.failWith cause >>= f else f ⟨⟩)
      (if (s'.strict && amiss) = true then EvalM.failWith cause >>= g else g ⟨⟩) := by
  rcases hs.strict_cases with h | ⟨hlax, hstrict, hlenient⟩
  · rw [h]
    split_ifs
    · exact Agrees.failWith_bind cause
    · exact hf
  · rw [hstrict, hlenient, Bool.true_and, Bool.false_and, if_neg Bool.false_ne_true]
    split_ifs
    · exact Agrees.of_fails hlax fun w a ha ↦ (by cases ha)
    · exact hf

theorem refuse_agrees (callee : Token) : D.Agrees σ unspoilt D.AllFit
    (Evaluator.refuse id callee) (Evaluator.refuse id callee) := by
  refine Agrees.scope fun s s' hs _ ↦ ?_
  rcases hs.strict_cases with h | ⟨hlax, hstrict, -⟩
  · rw [h]
    split_ifs
    · exact Agrees.failWith _
    · exact Agrees.pure allOnly_nil
  · rw [if_pos hstrict]
    exact Agrees.of_fails hlax fun w a ha ↦ (by cases ha)

theorem resolve_agrees (hid : D.own σ id) (t : Token) : D.Agrees σ unspoilt D.Fit
    (Evaluator.resolve id t) (Evaluator.resolve id t) := by
  refine Agrees.scope fun s s' hs hbound ↦ ?_
  rw [hs.get?_eq, hs.unknown_eq]
  split
  · rename_i bound hget
    exact Agrees.pure (hbound hid _ _ hget)
  · rcases hs.strict_cases with h | ⟨hlax, hstrict, -⟩
    · rw [h]
      split_ifs
      · exact Agrees.fail _
      · exact Agrees.pure Token.only_null
    · rw [if_pos hstrict]
      exact Agrees.of_fails hlax fun w a ha ↦ (by cases ha)

/-! ### Functions and parameters -/

theorem concatenation_agrees (args : List Token) : D.Agrees σ unspoilt D.FitAnswer
    (Callable.concatenation args) (Callable.concatenation args) :=
  (plain_agrees _).bind fun _ _ _ _ ↦ Agrees.pure (fitAnswer_some (Value.only_of_plain rfl rfl))

/-- Arithmetic asks the scope whether it is strict, and the scopes of both sides agree in that. -/
theorem callArith_agrees (op : ArithOp) (args : List Token) : D.Agrees σ unspoilt D.FitAnswer
    (Callable.callArith id op args) (Callable.callArith id op args) := by
  have hjoin : ∀ (σ : S) (joins : Bool), D.Agrees σ unspoilt D.FitAnswer
      (if joins = true then Callable.concatenation args
        else do
          let n ← EvalM.ofExcept (op.fold (← EvalM.scope id).strict args)
          return some (← EvalM.numberToken n))
      (if joins = true then Callable.concatenation args
        else do
          let n ← EvalM.ofExcept (op.fold (← EvalM.scope id).strict args)
          return some (← EvalM.numberToken n)) := by
    intro σ joins
    split_ifs
    · exact concatenation_agrees args
    · refine Agrees.scope fun s s' hs _ ↦ ?_
      refine (Agrees.ofExcept' (fold_of_matches hs op args) fun _ _ ↦ trivial :
        D.Agrees σ unspoilt (fun _ _ ↦ True) _ _).bind fun σ₁ _ n _ ↦ ?_
      exact (Agrees.numberToken n).bind fun _ _ _ ht ↦ Agrees.pure (fitAnswer_some ht)
  unfold Callable.callArith
  dsimp only
  split_ifs
  · exact (plain_agrees _).bind fun σ' _ joins _ ↦ hjoin σ' joins
  · exact hjoin σ false

theorem bool_agrees (b : Bool) : D.Agrees σ unspoilt D.FitAnswer (Callable.bool b)
    (Callable.bool b) :=
  Agrees.pure (fitAnswer_some (Value.only_of_plain rfl rfl))

theorem printLine_agrees (ending : String) (args : List Token) :
    D.Agrees σ unspoilt D.FitAnswer (Callable.printLine ending args)
      (Callable.printLine ending args) :=
  (plain_agrees _).bind fun _ _ _ _ ↦ (Agrees.write _).bind fun _ _ _ _ ↦ Agrees.pure fitAnswer_none

theorem callPrimitive_agrees (p : Primitive) (args : List Token) :
    D.Agrees σ unspoilt D.FitAnswer (Callable.callPrimitive p args)
      (Callable.callPrimitive p args) := by
  unfold Callable.callPrimitive
  split
  · exact bool_agrees true
  · exact (payload_agrees _).bind fun _ _ _ _ ↦ bool_agrees _
  · exact concatenation_agrees _
  · exact printLine_agrees _ _
  · exact printLine_agrees _ _
  · exact Agrees.pure (fitAnswer_some (Value.only_of_plain rfl rfl))
  · exact (payload_agrees _).bind fun _ _ _ _ ↦
      Agrees.pure (fitAnswer_some (Value.only_of_plain rfl rfl))

theorem boundTo_agrees (hid : D.own σ id) {form : List Token} (hform : D.AllFit σ form) :
    D.Agrees σ unspoilt D.Fit (Expander.boundTo id form) (Expander.boundTo id form) := by
  unfold Expander.boundTo
  split
  · rename_i t
    have ht : D.Fit σ t := hform t (List.mem_singleton_self t)
    split_ifs
    · refine Agrees.scope fun s s' hs hbound ↦ ?_
      rw [hs.get?_eq]
      exact Agrees.pure (fit_getD (hbound hid t.content) ht)
    · exact Agrees.pure ht
  · exact Agrees.freshRef.bind fun σ' hσ ref _ ↦ Agrees.pure ((Token.only_envoy ref).mpr
      ⟨fun c hc ↦ (by cases hc), allFit_mono hσ hform⟩)

/-- Parameters are bound to the forms they are called with, or to null where there are too few. -/
theorem bindAll_agrees {caller : ScopeId} (hcaller : D.own σ caller) (hid : D.own σ id)
    (params : List String) {forms : List (List Token)}
    (hforms : ∀ form ∈ forms, D.AllFit σ form) : D.Agrees σ unspoilt (fun _ _ ↦ True)
      (Expander.bindAll caller id params forms) (Expander.bindAll caller id params forms) := by
  induction params generalizing σ forms with
  | nil =>
    refine Agrees.freshRef.bind fun σ₁ h₁ ref _ ↦ ?_
    refine Agrees.modifyScope (D.own_mono h₁ hid) (Scope.rewrites_push _ ?_)
    refine (Token.only_envoy ref).mpr ⟨fun c hc ↦ (by cases hc), fun t ht ↦ ?_⟩
    obtain ⟨form, hform, ht⟩ := List.mem_flatten.mp ht
    exact fit_mono h₁ (hforms form hform t ht)
  | cons name params ih =>
    cases forms with
    | nil =>
      refine (Agrees.modifyScope hid (Scope.rewrites_push name Token.only_null)).bind
        fun σ₁ h₁ _ _ ↦ ?_
      exact ih (D.own_mono h₁ hcaller) (D.own_mono h₁ hid) fun _ h ↦ absurd h List.not_mem_nil
    | cons form forms =>
      obtain ⟨hform, hrest⟩ := List.forall_mem_cons.mp hforms
      refine (boundTo_agrees hcaller hform).bind fun σ₁ h₁ t ht ↦ ?_
      refine (Agrees.modifyScope (D.own_mono h₁ hid) (Scope.rewrites_push name ht)).bind
        fun σ₂ h₂ _ _ ↦ ?_
      have h := h₁.trans h₂
      exact ih (D.own_mono h hcaller) (D.own_mono h hid) fun form hform ↦
        allFit_mono h (hrest form hform)

end TokenLang

import TokenLang.Proofs.Eval.Answers
import TokenLang.Proofs.Eval.Intact
import TokenLang.Proofs.Session.Isolation

/-!
Computations in step with wary ones. A wary computation does the same as another, except that it may
break off with an alarm, a stop that nothing catches. `TiedAt` says of a wary computation and of the
one it follows that, unless the first breaks off, both end alike, bind intact tokens only, and do
not fail over a bracket. The rules here carry this through the ways computations are put together;
after them there is one lemma for each part of an evaluation that evaluates nothing itself.
-/

set_option autoImplicit false
set_option relaxedAutoImplicit false

namespace TokenLang

open Token (Seals Single)

/-- Worlds in which names are bound to intact tokens that are no brackets, with the usual host.
Other hosts may report brackets, and hand them out, as they like. -/
structure World.Intact (w : World) : Prop where
  bound : ∀ id, ∀ b ∈ (w.scope id).store.toList, b.2.Single
  host : w.host = .usual

namespace World.Intact

variable {w : World} (hw : w.Intact)
include hw

theorem of_scopes {w' : World} (h : w'.scopes = w.scopes) (hhost : w'.host = w.host) :
    w'.Intact := by
  refine ⟨fun id ↦ ?_, hhost.trans hw.host⟩
  rw [World.scope, h]
  exact hw.bound id

theorem get? {id : ScopeId} {name : String} {t : Token} (h : (w.scope id).get? name = some t) :
    t.Single := by
  rw [Scope.get?, StackMap.get?_eq_toList] at h
  exact hw.bound id _ (StackMap.Plain.mem_of_get? h)

theorem setStore {id : ScopeId} {m : StackMap Token} (hm : (w.scope id).Edits Single m) :
    (w.setStore id m).Intact := by
  refine ⟨fun other b hb ↦ ?_, hw.host⟩
  rw [World.setStore, World.scope_modifyScope_eq] at hb
  split_ifs at hb
  · exact hm.forall_mem (hw.bound id) b hb
  · exact hw.bound other b hb

theorem modifyScope (id : ScopeId) {f : Scope → Scope} (hf : Scope.Rewrites Single f) :
    (w.modifyScope id f).Intact := by
  rw [World.modifyScope_of_rewrites hf]
  exact hw.setStore (hf.edits _)

theorem derive (id : ScopeId) : (w.derive id).2.Intact := by
  refine ⟨fun other b hb ↦ ?_, hw.host⟩
  rw [World.scope_derive] at hb
  split_ifs at hb
  · exact hw.bound id b hb
  · exact hw.bound other b hb

end World.Intact

/-- Stops that no part of an evaluation catches or changes. -/
def Stop.isFinal : Stop → Bool
  | .failed _ => false
  | .missingValue .elsewhere => false
  | _ => true

/-! ### Tied computations -/

section Rules

variable {alarm : Stop} {α β : Type}

/-- From a world, a wary computation breaks off with the alarm, or it ends as the other one does,
binds intact tokens only, gives an answer that is promised and does not fail over a bracket. -/
def TiedAt (alarm : Stop) (w : World) (Q : α → Prop) (x y : EvalM α) : Prop :=
  x.outcome w = .error alarm ∨
    y.outcome w = x.outcome w ∧ y.after w = x.after w ∧ (x.after w).Intact ∧
      match x.outcome w with
      | .ok a => Q a
      | .error stop => stop.Matched

/-- Computations that are tied from every world that binds intact tokens only. -/
def Tied (alarm : Stop) (Q : α → Prop) (x y : EvalM α) : Prop :=
  ∀ w : World, w.Intact → TiedAt alarm w Q x y

namespace TiedAt

variable {w : World} {Q : α → Prop} {x y : EvalM α}

/-- A promise may use that the answer is the one that is given from this world. -/
theorem mono' (h : TiedAt alarm w Q x y) {Q' : α → Prop}
    (hQ : ∀ a, x.outcome w = .ok a → Q a → Q' a) : TiedAt alarm w Q' x y := by
  rcases h with h | ⟨hout, hafter, hintact, hend⟩
  · exact .inl h
  · refine .inr ⟨hout, hafter, hintact, ?_⟩
    cases hx : x.outcome w with
    | error stop => simpa [hx] using hend
    | ok a => exact hQ a hx (by simpa [hx] using hend)

theorem congr {x' : EvalM α} (h : x'.run.run w = x.run.run w) (hx : TiedAt alarm w Q x y) :
    TiedAt alarm w Q x' y := by
  unfold TiedAt EvalM.outcome EvalM.after
  rw [h]
  exact hx

theorem pure (hw : w.Intact) {a : α} (h : Q a) : TiedAt alarm w Q (pure a) (pure a) :=
  .inr ⟨rfl, rfl, hw, h⟩

theorem throw (hw : w.Intact) {stop : Stop} (h : stop.Matched) :
    TiedAt alarm w Q (throw stop) (throw stop) :=
  .inr ⟨rfl, rfl, hw, h⟩

theorem bind {P : α → Prop} {Q : β → Prop} {f g : α → EvalM β} (hx : TiedAt alarm w P x y)
    (hf : ∀ a, P a → Tied alarm Q (f a) (g a)) : TiedAt alarm w Q (x >>= f) (y >>= g) := by
  unfold TiedAt
  simp only [EvalM.outcome_bind, EvalM.after_bind]
  rcases hx with hx | ⟨hout, hafter, hintact, hend⟩
  · rw [hx]
    exact .inl rfl
  · rw [hout, hafter]
    cases hxw : x.outcome w with
    | error stop =>
      rw [hxw] at hend
      exact .inr ⟨rfl, rfl, hintact, hend⟩
    | ok a =>
      rw [hxw] at hend
      exact hf a hend _ hintact

/-- Looking at a scope. -/
theorem scope {id : ScopeId} {Q : β → Prop} {f g : Scope → EvalM β}
    (h : TiedAt alarm w Q (f (w.scope id)) (g (w.scope id))) :
    TiedAt alarm w Q (EvalM.scope id >>= f) (EvalM.scope id >>= g) := h

theorem ofExcept (hw : w.Intact) {e : Except Stop α} (hanswers : Answers True e)
    (h : ∀ a, e = .ok a → Q a) : TiedAt alarm w Q (EvalM.ofExcept e) (EvalM.ofExcept e) := by
  refine .inr ⟨rfl, rfl, hw, ?_⟩
  rw [EvalM.outcome_ofExcept]
  cases e with
  | ok a => exact h a rfl
  | error stop => exact (hanswers stop rfl).2

variable (halarm : alarm.isFinal = true)
include halarm

/-- Catching failures. -/
theorem attempt (hx : TiedAt alarm w Q x y) : TiedAt alarm w
    (fun r ↦ (∀ a, r = .ok a → Q a) ∧ ∀ f, r = .error f → f.Matched)
    (EvalM.attempt x) (EvalM.attempt y) := by
  unfold TiedAt
  simp only [EvalM.outcome_attempt, EvalM.after_attempt]
  rcases hx with hx | ⟨hout, hafter, hintact, hend⟩
  · rw [hx]
    rcases alarm with f | gap | _
    · cases halarm
    · exact .inl rfl
    · exact .inl rfl
  · rw [hout]
    rcases hxw : x.outcome w with (f | gap | _) | a <;> rw [hxw] at hend
    · exact .inr ⟨rfl, hafter, hintact, fun a ha ↦ (by cases ha),
        fun g hg ↦ by cases hg; exact hend⟩
    · exact .inr ⟨rfl, hafter, hintact, trivial⟩
    · exact .inr ⟨rfl, hafter, hintact, trivial⟩
    · exact .inr ⟨rfl, hafter, hintact, fun b hb ↦ (by cases hb; exact hend),
        fun g hg ↦ by cases hg⟩

/-- Saying where a value was missing. -/
theorem locating (gap : Gap) (hx : TiedAt alarm w Q x y) :
    TiedAt alarm w Q (EvalM.locating gap x) (EvalM.locating gap y) := by
  unfold TiedAt
  simp only [EvalM.outcome_locating, EvalM.after_locating]
  rcases hx with hx | ⟨hout, hafter, hintact, hend⟩
  · rw [hx]
    rcases alarm with f | (_ | _ | _) | _
    · exact .inl rfl
    · exact .inl rfl
    · exact .inl rfl
    · cases halarm
    · exact .inl rfl
  · rw [hout]
    refine .inr ⟨rfl, hafter, hintact, ?_⟩
    rcases hxw : x.outcome w with (f | (_ | _ | _) | _) | a <;> rw [hxw] at hend <;> exact hend

theorem blaming (t : Token) (hx : TiedAt alarm w Q x y) :
    TiedAt alarm w Q (EvalM.blaming t x) (EvalM.blaming t y) := by
  refine (hx.attempt halarm).bind fun r hr w hw ↦ ?_
  cases r with
  | ok a => exact .pure hw (hr.1 a rfl)
  | error f =>
    have hcause : (f.blame t).cause = f.cause := by
      unfold Failure.blame
      split <;> rfl
    refine .throw hw ?_
    show (f.blame t).cause.family ≠ _
    rw [hcause]
    exact hr.2 f rfl

end TiedAt

namespace Tied

variable {Q : α → Prop} {x y : EvalM α}

theorem mono (h : Tied alarm Q x y) {Q' : α → Prop} (hQ : ∀ a, Q a → Q' a) :
    Tied alarm Q' x y :=
  fun w hw ↦ (h w hw).mono' fun a _ ↦ hQ a

theorem pure {a : α} (h : Q a) : Tied alarm Q (pure a) (pure a) := fun _ hw ↦ .pure hw h

theorem throw {stop : Stop} (h : stop.Matched) : Tied alarm Q (throw stop) (throw stop) :=
  fun _ hw ↦ .throw hw h

theorem fail {f : Failure} (h : f.Matched) : Tied alarm Q (EvalM.fail f) (EvalM.fail f) := throw h

theorem failWith {cause : Cause} (h : cause.family ≠ .unmatchedBracket) :
    Tied alarm Q (EvalM.failWith cause) (EvalM.failWith cause) := throw h

/-- Blaming a token for a failure that is not over a bracket. -/
theorem failBlaming (t : Token) {cause : Cause} (h : cause.family ≠ .unmatchedBracket) :
    Tied alarm Q (EvalM.fail (.blaming t cause)) (EvalM.fail (.blaming t cause)) := fail h

theorem bind {P : α → Prop} {Q : β → Prop} {f g : α → EvalM β} (hx : Tied alarm P x y)
    (hf : ∀ a, P a → Tied alarm Q (f a) (g a)) : Tied alarm Q (x >>= f) (y >>= g) :=
  fun w hw ↦ (hx w hw).bind hf

theorem failWith_bind {Q : β → Prop} {cause : Cause} (h : cause.family ≠ .unmatchedBracket)
    {f g : α → EvalM β} :
    Tied alarm Q (EvalM.failWith cause >>= f) (EvalM.failWith cause >>= g) :=
  (failWith h : Tied alarm (fun _ ↦ False) _ _).bind fun _ h ↦ h.elim

/-- Looking at the world. -/
theorem get {Q : β → Prop} {f g : World → EvalM β} (h : ∀ w, Tied alarm Q (f w) (g w)) :
    Tied alarm Q (MonadState.get >>= f) (MonadState.get >>= g) :=
  fun w hw ↦ h w w hw

/-- Looking at a scope, of which only what its names are bound to matters. -/
theorem scope {id : ScopeId} {Q : β → Prop} {f g : Scope → EvalM β}
    (h : ∀ s : Scope, (∀ name t, s.get? name = some t → t.Single) → Tied alarm Q (f s) (g s)) :
    Tied alarm Q (EvalM.scope id >>= f) (EvalM.scope id >>= g) :=
  fun w hw ↦ .scope (h _ (fun _ _ ↦ hw.get?) w hw)

/-- Asking for the host, which is the usual one. -/
theorem host {Q : β → Prop} {f g : Host → EvalM β} (h : Tied alarm Q (f .usual) (g .usual)) :
    Tied alarm Q (EvalM.host >>= f) (EvalM.host >>= g) := by
  intro w hw
  have hfrom : TiedAt alarm w Q (f w.host) (g w.host) := hw.host ▸ h w hw
  exact hfrom

theorem ofExcept {e : Except Stop α} (hanswers : Answers True e) (h : ∀ a, e = .ok a → Q a) :
    Tied alarm Q (EvalM.ofExcept e) (EvalM.ofExcept e) :=
  fun _ hw ↦ .ofExcept hw hanswers h

/-- A result that holds no tokens. -/
theorem plain {e : Except Stop α} (h : Answers True e) :
    Tied alarm (fun _ ↦ True) (EvalM.ofExcept e) (EvalM.ofExcept e) :=
  ofExcept h fun _ _ ↦ trivial

/-- Asking for a value. -/
theorem payload (t : Token) : Tied alarm (fun v ↦ t.value? = some v) (EvalM.ofExcept t.payload)
    (EvalM.ofExcept t.payload) := by
  refine ofExcept (answers_payload (.inr trivial)) fun v hv ↦ ?_
  unfold Token.payload at hv
  split at hv
  · cases hv
    assumption
  · cases hv

/-- A change of the world that leaves the scopes and the host. -/
theorem of_scopes (h : ∀ w, (∃ a, x.outcome w = .ok a ∧ Q a) ∧ (x.after w).scopes = w.scopes ∧
    (x.after w).host = w.host) : Tied alarm Q x x := by
  intro w hw
  obtain ⟨⟨a, ha, hQ⟩, hscopes, hhost⟩ := h w
  refine .inr ⟨rfl, rfl, hw.of_scopes hscopes hhost, ?_⟩
  rw [ha]
  exact hQ

theorem freshRef : Tied alarm (fun _ ↦ True) EvalM.freshRef EvalM.freshRef :=
  of_scopes fun _ ↦ ⟨⟨_, rfl, trivial⟩, rfl, rfl⟩

theorem write (text : String) :
    Tied alarm (fun _ ↦ True) (EvalM.write text) (EvalM.write text) :=
  of_scopes fun _ ↦ ⟨⟨_, rfl, trivial⟩, rfl, rfl⟩

theorem setGenerator (g : Generator) : Tied alarm (fun _ ↦ True)
    (modify fun w : World ↦ { w with generator := g })
    (modify fun w : World ↦ { w with generator := g }) :=
  of_scopes fun _ ↦ ⟨⟨_, rfl, trivial⟩, rfl, rfl⟩

theorem draw {f : Generator → α × Generator} :
    Tied alarm (fun _ ↦ True) (Method.draw f) (Method.draw f) :=
  of_scopes fun _ ↦ ⟨⟨_, rfl, trivial⟩, rfl, rfl⟩

theorem numberToken (n : Number) :
    Tied alarm Single (EvalM.numberToken n) (EvalM.numberToken n) := by
  refine freshRef.bind fun ref _ ↦ .pure ?_
  cases n <;> exact Token.single_plain rfl rfl _

theorem modifyScope (id : ScopeId) {f : Scope → Scope} (hf : Scope.Rewrites Single f) :
    Tied alarm (fun _ ↦ True) (EvalM.modifyScope id f) (EvalM.modifyScope id f) :=
  fun _ hw ↦ .inr ⟨rfl, rfl, hw.modifyScope id hf, trivial⟩

theorem derive (id : ScopeId) : Tied alarm (fun _ ↦ True) (EvalM.derive id) (EvalM.derive id) :=
  fun _ hw ↦ .inr ⟨rfl, rfl, hw.derive id, trivial⟩

/-- A change of a scope that there may be a cause against, none of which is a bracket. -/
theorem updateScope (id : ScopeId) {f : Scope → Except Cause Scope}
    (hf : Scope.Revises False Single f)
    (hcause : ∀ s cause, f s = .error cause → cause.family ≠ .unmatchedBracket) :
    Tied alarm (fun _ ↦ True) (EvalM.updateScope id f) (EvalM.updateScope id f) := by
  intro w hw
  refine .scope ?_
  rcases hf _ _ ⟨rfl, rfl, rfl, rfl, .inl rfl, .inl rfl⟩ with ⟨cause, hs, -⟩ | ⟨m, hm, hs, -⟩
  · rw [hs]
    exact failWith (hcause _ _ hs) w hw
  · rw [hs]
    have hset : (w.modifyScope id fun _ ↦ { w.scope id with store := m }) = w.setStore id m :=
      World.modifyScope_congr rfl
    refine .inr ⟨rfl, rfl, ?_, trivial⟩
    rw [EvalM.after_modifyScope, hset]
    exact hw.setStore hm

/-- A change of a scope after a computation, however that ended. -/
theorem ensuring (id : ScopeId) {f : Scope → Scope} (hf : Scope.Rewrites Single f)
    (hx : Tied alarm Q x y) : Tied alarm Q (EvalM.ensuring x fun w ↦ w.modifyScope id f)
      (EvalM.ensuring y fun w ↦ w.modifyScope id f) := by
  intro w hw
  unfold TiedAt
  simp only [EvalM.outcome_ensuring, EvalM.after_ensuring]
  rcases hx w hw with hx | ⟨hout, hafter, hintact, hend⟩
  · exact .inl hx
  · exact .inr ⟨hout, by rw [hafter], hintact.modifyScope id hf, hend⟩

end Tied

end Rules

/-! ### Forms -/

section Parts

variable {alarm : Stop} {ev ev' : Evaluator} (fuel : Nat) (id : ScopeId) {w : World}

/-- A form, and the tokens after it, which close the brackets of `stack`. -/
def CutAt (stack : List Token) (answer : List Token × List Token) : Prop :=
  Form.IsNested answer.1 ∧ Seals [] answer.1 ∧ Seals stack answer.2

theorem cut_tiedAt (hw : w.Intact) {stack args : List Token} (hargs : Seals stack args)
    (hmarkers : Form.runsInto (w.scope id).isMarker args = false) :
    TiedAt alarm w (CutAt stack) (Evaluator.cut id args) (Evaluator.cut id args) := by
  obtain ⟨form, rest, hsplit, hform⟩ := Form.exists_split _ hargs.nested hmarkers
  refine .scope ?_
  rw [hsplit]
  exact .pure hw ⟨hform, Form.seals_split hargs hsplit⟩

theorem cut_tied {args : List Token} (hargs : Seals [] args) :
    Tied alarm (CutAt []) (Evaluator.cut id args) (Evaluator.cut id args) :=
  fun _ hw ↦ cut_tiedAt id hw hargs (Form.runsInto_of_nested hargs.nested)

theorem cutAll_tied {args : List Token} (hargs : Seals [] args) :
    Tied alarm (fun forms ↦ ∀ form ∈ forms, Form.IsNested form ∧ Seals [] form)
      (Evaluator.cutAll id args) (Evaluator.cutAll id args) := by
  refine .scope fun s _ ↦ ?_
  obtain ⟨forms, hsplit, hforms⟩ := Form.exists_splitAll s.isMarker hargs
  rw [hsplit]
  exact .pure hforms

/-- Tokens that are put in place of others, and the buffer after them, which closes the brackets of
`stack`. -/
def PlacedAt (stack : List Token) (answer : List Token × List Token) : Prop :=
  Seals [] answer.1 ∧ Seals stack answer.2

theorem quoteNext_tiedAt (hw : w.Intact) {stack after : List Token} (hafter : Seals stack after)
    (hmarkers : Form.runsInto (w.scope id).isMarker after = false) :
    TiedAt alarm w (PlacedAt stack) (Envoy.quoteNext id after) (Envoy.quoteNext id after) :=
  (cut_tiedAt id hw hafter hmarkers).bind fun _ hcut ↦
    .pure ⟨(Form.single_quote hcut.1 hcut.2.1).seals, hcut.2.2⟩

/-- Arguments that a callee may get: only an expander may get brackets. -/
def Handed (callee : Token) (args : List Token) : Prop :=
  Seals [] args ∧ (callee.kind ≠ .expander → ∀ t ∈ args, t.Single)

theorem asWritten_tied (callee : Token) {args : List Token} (hargs : Seals [] args) :
    Tied alarm (Handed callee) (Varying.asWritten id callee args)
      (Varying.asWritten id callee args) := by
  unfold Varying.asWritten
  split_ifs with hkind
  · exact .pure ⟨hargs, fun h ↦ absurd (beq_iff_eq.mp hkind) h⟩
  · refine (cutAll_tied id hargs).bind fun forms hforms ↦ .pure ?_
    have hsingle : ∀ t ∈ forms.map Form.quote, t.Single := by
      intro t ht
      obtain ⟨form, hform, rfl⟩ := List.mem_map.mp ht
      exact Form.single_quote (hforms form hform).1 (hforms form hform).2
    exact ⟨Token.seals_of_single hsingle, fun _ ↦ hsingle⟩

/-! ### Infix forms -/

/-- A result that is no failure over a bracket. -/
def Spares {α : Type} (x : Except Failure α) : Prop := ∀ f, x = .error f → f.Matched

theorem Spares.bind {α β : Type} {x : Except Failure α} {g : α → Except Failure β} (hx : Spares x)
    (hg : ∀ a, Spares (g a)) : Spares (x >>= g) := by
  cases x with
  | ok a => exact hg a
  | error f => exact fun _ h ↦ by cases h; exact hx f rfl

theorem spares_ok {α : Type} (a : α) : Spares (.ok a) := fun _ h ↦ by cases h

namespace OperatorTree

theorem Stack.spares_combine (op : Token) (operands : List OperatorTree) :
    Spares (combine op operands) := by
  unfold combine
  split
  · exact spares_ok _
  · exact fun _ h ↦ by cases h; exact nofun

theorem Stack.spares_settle (next : Operator) (operators : List (Token × Operator))
    (operands : List OperatorTree) : Spares (settle next operators operands) := by
  induction operators generalizing operands with
  | nil => exact spares_ok _
  | cons op operators ih =>
    unfold settle
    split_ifs
    · exact (spares_combine _ _).bind ih
    · exact spares_ok _

theorem Stack.spares_finish (operators : List (Token × Operator)) (operands : List OperatorTree) :
    Spares (finish operators operands) := by
  induction operators generalizing operands with
  | nil => exact spares_ok _
  | cons op operators ih => exact (spares_combine _ _).bind ih

theorem Stack.spares_feed (operatorFor : Token → Option Operator) (s : Stack)
    (form : List Token) : Spares (feed operatorFor s form) := by
  induction form generalizing s with
  | nil => exact spares_ok _
  | cons t form ih =>
    unfold feed
    split
    · exact ih _
    · exact (spares_settle _ _ _).bind fun _ ↦ ih _

theorem spares_parse (operatorFor : Token → Option Operator) (form : List Token) :
    Spares (parse operatorFor form) := by
  refine (Stack.spares_feed _ _ _).bind fun s ↦ (Stack.spares_finish _ _).bind fun trees ↦ ?_
  split
  · exact spares_ok _
  · exact spares_ok _
  · exact fun _ h ↦ by cases h; exact nofun

end OperatorTree

/-- Tokens that a closed region may become: they hold intact tokens. -/
def AllHold (placed : List Token) : Prop := ∀ t ∈ placed, t.HoldsIntact

theorem allHold_nil : AllHold [] := List.forall_mem_nil _

theorem holdsIntact_stable {v : Value} (hcaptor : v.captor? = none)
    (h : ∀ u ∈ v.parts, u.Intact) : (Token.stable v).HoldsIntact := by
  simpa [Token.HoldsIntact, Token.stable, Token.parts, hcaptor] using h

theorem Token.Intact.allHold {t : Token} (h : t.Intact) : AllHold [t] :=
  List.forall_mem_singleton.mpr h.parts

theorem applyInfix_tied {form : List Token} (hform : ∀ t ∈ form, t.Intact) :
    Tied alarm AllHold (Varying.applyInfix id form) (Varying.applyInfix id form) := by
  refine .scope fun s _ ↦ ?_
  have hspares := OperatorTree.spares_parse s.operatorFor form
  cases hparse : OperatorTree.parse s.operatorFor form with
  | error f => exact .fail (hspares f hparse)
  | ok tree? =>
    cases tree? with
    | none => exact .pure allHold_nil
    | some tree =>
      refine .pure fun t ht ↦ ?_
      exact (OperatorTree.forall_mem_calls (OperatorTree.all_parse hparse hform)
        (Token.intact_of_parts rfl) (Token.intact_of_parts rfl) t ht).parts

theorem applySym_tied (head : Token) : Tied alarm (fun placed ↦ ∀ t ∈ placed, t.Single)
    (Varying.applySym head) (Varying.applySym head) := by
  unfold Varying.applySym
  split_ifs
  · exact .pure (List.forall_mem_singleton.mpr (Token.single_plain rfl rfl _))
  · exact .failBlaming head nofun

/-! ### Names and bindings -/

/-- Brackets spell no name. -/
theorem nameOf_tied (t : Token) : Tied alarm (fun _ ↦ t.isDelimiter = false)
    (SpecialForm.nameOf t) (SpecialForm.nameOf t) := by
  have hvalue : ∀ v, t.value? = some v → t.isDelimiter = false := by
    intro v hv
    cases t <;> first | rfl | cases hv
  unfold SpecialForm.nameOf
  split_ifs with hname
  · refine .pure ?_
    rcases Bool.or_eq_true_iff.mp hname with hsymbol | hliteral
    · exact Token.isDelimiter_of_isSymbol hsymbol
    · simp [Token.isDelimiter, hliteral]
  · split
    · rename_i hv
      exact .pure (hvalue _ hv)
    · rename_i hv
      exact .pure (hvalue _ hv)
    · exact .failBlaming t fun h ↦ by cases h

/-- An envoy that has to act before a name can be read is intact, and stands for no bracket. -/
theorem intact_of_pendingEnvoy? {s : Scope} {t : Token} {e : Envoy}
    (h : SpecialForm.pendingEnvoy? s t = some e) (ht : t.Intact) :
    t.isDelimiter = false ∧ ∃ ref, (Token.envoy e ref).Intact := by
  unfold SpecialForm.pendingEnvoy? at h
  split at h
  · cases h
    exact ⟨rfl, _, ht⟩
  · have hplain : t.isDelimiter = false := by
      cases hsymbol : t.isSymbol with
      | true => exact Token.isDelimiter_of_isSymbol hsymbol
      | false =>
        rw [Scope.marker?, hsymbol] at h
        cases t <;> first | rfl | cases h
    refine ⟨hplain, 0, Token.intact_of_parts ?_⟩
    unfold Scope.marker? at h
    dsimp only at h
    split at h <;> cases h <;> rfl

theorem bind_tied (name : String) {t : Token} (ht : t.Single) :
    Tied alarm (fun _ ↦ True) (SpecialForm.bind id name t) (SpecialForm.bind id name t) := by
  refine .updateScope id (Scope.revises_define name ht) fun s cause h ↦ ?_
  unfold Scope.define at h
  split_ifs at h
  cases h
  exact nofun

theorem rebind_tied (name : String) {t : Token} (ht : t.Single) :
    Tied alarm (fun _ ↦ True) (SpecialForm.rebind id name t) (SpecialForm.rebind id name t) := by
  refine .updateScope id (Scope.revises_assign name ht) fun s cause h ↦ ?_
  unfold Scope.assign at h
  dsimp only at h
  split_ifs at h <;> cases h <;> exact nofun

/-! ### Captors -/

theorem paramNames_tied (tokens : List Token) :
    Tied alarm (fun _ ↦ True) (SpecialForm.paramNames tokens) (SpecialForm.paramNames tokens) := by
  induction tokens with
  | nil => exact .pure trivial
  | cons t tokens ih =>
    unfold SpecialForm.paramNames
    split_ifs
    · exact ih.bind fun _ _ ↦ .pure trivial
    · exact .failBlaming t fun h ↦ by cases h

theorem takeParams_tied {args : List Token} (hargs : Seals [] args) :
    Tied alarm (fun answer ↦ Seals [] answer.2) (SpecialForm.takeParams id args)
      (SpecialForm.takeParams id args) := by
  unfold SpecialForm.takeParams
  split
  · exact .failWith fun h ↦ by cases h
  · split_ifs
    · exact (cut_tied id hargs).bind fun answer hcut ↦
        (paramNames_tied _).bind fun _ _ ↦ .pure hcut.2.2
    · exact .failWith fun h ↦ by cases h

theorem single_closure {body : List Token} (hbody : Seals [] body) (name : String)
    (scope : ScopeId) (params : List String) (ref : Ref) :
    (Token.stable (.function (.closure name scope params body) ref)).Single :=
  ⟨Token.intact_of_seals rfl hbody, rfl⟩

theorem makeLambda_tied {args : List Token} (hargs : Seals [] args) :
    Tied alarm (fun placed ↦ ∀ t ∈ placed, t.Single) (SpecialForm.makeLambda id args)
      (SpecialForm.makeLambda id args) :=
  (takeParams_tied id hargs).bind fun _ hbody ↦ (Tied.derive id).bind fun _ _ ↦
    Tied.freshRef.bind fun _ _ ↦
      .pure (List.forall_mem_singleton.mpr (single_closure hbody _ _ _ _))

/-- What captures a scope and is bound to a name in it. -/
theorem captured_tied (name : String) {make : ScopeId → Ref → Token}
    (hmake : ∀ scope ref, (make scope ref).Single) :
    Tied alarm Single (SpecialForm.captured id name make) (SpecialForm.captured id name make) :=
  (Tied.derive id).bind fun scope _ ↦ Tied.freshRef.bind fun ref _ ↦
    (Tied.modifyScope scope (Scope.rewrites_push name (hmake scope ref))).bind fun _ _ ↦
      .pure (hmake scope ref)

/-! ### Single answers -/

theorem forall_mem_some {P : Token → Prop} {t : Token} (h : P t) : ∀ u ∈ some t, P u := by
  intro u hu
  cases hu
  exact h

theorem forall_mem_none {P : Token → Prop} : ∀ u ∈ (none : Option Token), P u :=
  fun _ hu ↦ by cases hu

/-- A value with nothing inside, as an answer. -/
theorem forall_mem_stable {v : Value} (hcaptor : v.captor? = none) (hparts : v.parts = []) :
    ∀ t ∈ some (Token.stable v), t.Single :=
  forall_mem_some (Token.single_plain hcaptor hparts _)

/-! ### The usual host -/

theorem usual_function_tied (key : String) (args : List Token) :
    Tied alarm (fun answer ↦ ∀ t ∈ answer, t.Single) ((Host.usual.function key args).run ev fuel id)
      ((Host.usual.function key args).run ev' fuel id) := by
  dsimp only [Host.usual]
  split
  · refine .pure ?_
    split_ifs
    · exact forall_mem_none
    · exact forall_mem_stable rfl rfl
  · exact .pure forall_mem_none

theorem usual_expander_tied (key : String) {args : List Token} (hargs : Seals [] args) :
    Tied alarm (Seals []) ((Host.usual.expander key args).run ev fuel id)
      ((Host.usual.expander key args).run ev' fuel id) := by
  dsimp only [Host.usual]
  split
  · exact .pure (hargs.append hargs)
  · exact .pure Token.seals_nil

theorem usual_method_tied (key name : String) {args : List Token} (hargs : ∀ t ∈ args, t.Intact) :
    Tied alarm (fun answer ↦ ∀ t ∈ answer, t.HoldsIntact)
      ((Host.usual.method key name args).run ev fuel id)
      ((Host.usual.method key name args).run ev' fuel id) := by
  dsimp only [Host.usual]
  split
  · unfold Host.echo
    split
    · exact .pure forall_mem_none
    · exact .fail nofun
    · refine .pure (forall_mem_some (holdsIntact_stable rfl ?_))
      exact List.forall_mem_cons.mpr ⟨Token.intact_of_parts rfl, hargs⟩
  · exact .pure forall_mem_none

theorem usual_envoy_tied (key : String) {held : List Token} (hheld : Seals [] held) :
    Tied alarm (Seals []) ((Host.usual.envoy key held).run ev fuel id)
      ((Host.usual.envoy key held).run ev' fuel id) := by
  dsimp only [Host.usual]
  split
  · exact .pure hheld
  · exact .pure Token.seals_nil

theorem usual_varying_tied (key : String) {r : Region} (hr : ∀ t ∈ r.inside, t.Intact) :
    Tied alarm (fun placed ↦ ∀ t ∈ placed, t.Intact) ((Host.usual.varying key r).run ev fuel id)
      ((Host.usual.varying key r).run ev' fuel id) := by
  dsimp only [Host.usual]
  split
  · exact .pure (List.forall_mem_singleton.mpr (Token.intact_of_parts rfl))
  · exact .pure fun t ht ↦ hr t (List.mem_reverse.mp ht)
  · exact .pure (List.forall_mem_nil _)

/-! ### Methods -/

theorem drawn_tied (i : Int64) : Tied alarm (fun answer ↦ ∀ t ∈ answer, t.Single)
    (Method.drawn i) (Method.drawn i) :=
  .pure (forall_mem_stable rfl rfl)

theorem float_tied (x : Float) : Tied alarm (fun answer ↦ ∀ t ∈ answer, t.Single)
    (Method.float x) (Method.float x) :=
  (Tied.numberToken _).bind fun _ ht ↦ .pure (forall_mem_some ht)

/-- Random numbers come from the generator and are single tokens. -/
theorem ofRng_tied (name : String) (args : List Token) :
    Tied alarm (fun answer ↦ ∀ t ∈ answer, t.Single) (Method.ofRng fuel name args)
      (Method.ofRng fuel name args) := by
  unfold Method.ofRng
  split
  · dsimp only
    split_ifs
    · exact drawn_tied _
    · refine .get fun w ↦ ?_
      split
      · exact (Tied.setGenerator _).bind fun _ _ ↦ drawn_tied _
      · exact .throw trivial
  · dsimp only
    split_ifs
    · exact Tied.draw.bind fun _ _ ↦ drawn_tied _
    · exact Tied.draw.bind fun _ _ ↦ drawn_tied _
  · dsimp only
    split_ifs
    · exact Tied.draw.bind fun _ _ ↦ drawn_tied _
    · exact Tied.draw.bind fun _ _ ↦ drawn_tied _
  · exact Tied.draw.bind fun _ _ ↦ float_tied _
  · exact Tied.draw.bind fun _ _ ↦ .pure (forall_mem_stable rfl rfl)
  · exact (Tied.setGenerator _).bind fun _ _ ↦ .pure forall_mem_none
  · exact .throw nofun

/-- Mathematical functions make single tokens of numbers. -/
theorem ofMath_tied (name : String) {args : List Token} (hargs : ∀ t ∈ args, t.Single) :
    Tied alarm (fun answer ↦ ∀ t ∈ answer, t.Single) (Method.ofMath name args)
      (Method.ofMath name args) := by
  unfold Method.ofMath
  split
  · exact float_tied _
  · split
    · split
      · exact .pure (forall_mem_stable rfl rfl)
      · exact drawn_tied _
      · exact float_tied _
    · split
      · split
        · exact .pure (forall_mem_stable rfl rfl)
        · refine (Tied.ofExcept (answers_best _ (.inr trivial))
            fun t ht ↦ hargs t (Method.mem_of_best _ ht)).bind fun t ht ↦ ?_
          exact .pure (forall_mem_some ht)
      · split
        · exact float_tied _
        · exact float_tied _
        · exact float_tied _
        · exact .throw fun h ↦ by cases h

theorem gathers_tied {x : Except Stop (Option Token)} (hanswers : Answers True x)
    (h : Method.Gathers Token.Intact x) : Tied alarm (fun answer ↦ ∀ t ∈ answer, t.HoldsIntact)
      (EvalM.ofExcept x) (EvalM.ofExcept x) := by
  refine .ofExcept hanswers fun answer hanswer t ht ↦ ?_
  cases ht
  rcases h t hanswer with hone | ⟨-, hparts⟩
  · exact hone.parts
  · exact hparts

/-- A method answers with parts of its receiver, with its arguments, or with something new. -/
theorem method_tied {receiver : Value} (hparts : ∀ u ∈ receiver.parts, u.Intact) (name : String)
    {args : List Token} (hargs : ∀ t ∈ args, t.Single) :
    Tied alarm (fun answer ↦ ∀ t ∈ answer, t.HoldsIntact)
      (Method.call ev fuel id receiver name args) (Method.call ev' fuel id receiver name args) := by
  have hargs' : ∀ t ∈ args, t.Intact := fun t ht ↦ (hargs t ht).intact
  have hvalued : Valued True args := .inr trivial
  have hholds : ∀ answer : Option Token, (∀ t ∈ answer, t.Single) → ∀ t ∈ answer, t.HoldsIntact :=
    fun _ h t ht ↦ (h t ht).intact.parts
  unfold Method.call
  split
  · exact gathers_tied (answers_ofItems _ _ _ _)
      (Method.gathers_ofItems (fun _ ↦ ⟨rfl, rfl⟩) hparts hargs' name)
  · exact gathers_tied (answers_ofItems _ _ _ _)
      (Method.gathers_ofItems (fun _ ↦ ⟨rfl, rfl⟩) hparts hargs' name)
  · exact gathers_tied (answers_ofEntries _ _ hvalued)
      (Method.gathers_ofEntries Token.single_null.intact hparts hargs' name)
  · exact gathers_tied (answers_ofMembers _ _ hvalued)
      (Method.gathers_ofMembers hparts hargs' name)
  · exact gathers_tied (answers_ofText _ _ _) (Method.gathers_ofText _ name args)
  · exact (ofRng_tied fuel name args).mono hholds
  · exact (ofMath_tied name hargs).mono hholds
  · exact .host (usual_method_tied fuel id _ name hargs')
  · exact .pure forall_mem_none

/-! ### Functions and parameters -/

theorem refuse_tied (callee : Token) :
    Tied alarm AllHold (Evaluator.refuse id callee) (Evaluator.refuse id callee) := by
  refine .scope fun s _ ↦ ?_
  split_ifs
  · exact .failWith nofun
  · exact .pure allHold_nil

theorem resolve_tied (t : Token) :
    Tied alarm Single (Evaluator.resolve id t) (Evaluator.resolve id t) := by
  refine .scope fun s hs ↦ ?_
  split
  · rename_i bound hget
    exact .pure (hs _ _ hget)
  · split_ifs
    · exact .failBlaming t nofun
    · exact .pure Token.single_null

theorem concatenation_tied (args : List Token) :
    Tied alarm (fun answer ↦ ∀ t ∈ answer, t.Single) (Callable.concatenation args)
      (Callable.concatenation args) :=
  (Tied.plain (answers_displays (.inr trivial))).bind fun _ _ ↦ .pure (forall_mem_stable rfl rfl)

/-- Arithmetic makes a single token of its arguments. -/
theorem callArith_tied (op : ArithOp) (args : List Token) :
    Tied alarm (fun answer ↦ ∀ t ∈ answer, t.Single) (Callable.callArith id op args)
      (Callable.callArith id op args) := by
  have hstarts : Answers True (Callable.startsWithString args) := by
    cases args with
    | nil => exact Answers.ok false
    | cons t args =>
      refine (answers_payload (.inr trivial)).bind fun v ↦ ?_
      split <;> exact Answers.ok _
  have hjoin : ∀ joins : Bool, Tied alarm (fun answer ↦ ∀ t ∈ answer, t.Single)
      (if joins = true then Callable.concatenation args
        else do
          let n ← EvalM.ofExcept (op.fold (← EvalM.scope id).strict args)
          return some (← EvalM.numberToken n))
      (if joins = true then Callable.concatenation args
        else do
          let n ← EvalM.ofExcept (op.fold (← EvalM.scope id).strict args)
          return some (← EvalM.numberToken n)) := by
    intro joins
    split_ifs
    · exact concatenation_tied args
    · exact .scope fun s _ ↦ (Tied.plain (answers_fold _ _ (.inr trivial))).bind fun n _ ↦
        (Tied.numberToken n).bind fun _ ht ↦ .pure (forall_mem_some ht)
  unfold Callable.callArith
  dsimp only
  split_ifs
  · exact (Tied.plain hstarts).bind fun joins _ ↦ hjoin joins
  · exact hjoin false

theorem bool_tied (b : Bool) : Tied alarm (fun answer ↦ ∀ t ∈ answer, t.Single) (Callable.bool b)
    (Callable.bool b) :=
  .pure (forall_mem_stable rfl rfl)

theorem printLine_tied (ending : String) (args : List Token) :
    Tied alarm (fun answer ↦ ∀ t ∈ answer, t.Single) (Callable.printLine ending args)
      (Callable.printLine ending args) :=
  (Tied.plain (answers_displays (.inr trivial))).bind fun _ _ ↦ (Tied.write _).bind fun _ _ ↦
    .pure forall_mem_none

theorem callPrimitive_tied (p : Primitive) (args : List Token) :
    Tied alarm (fun answer ↦ ∀ t ∈ answer, t.Single) (Callable.callPrimitive p args)
      (Callable.callPrimitive p args) := by
  unfold Callable.callPrimitive
  split
  · exact bool_tied true
  · exact (Tied.payload _).bind fun _ _ ↦ bool_tied _
  · exact concatenation_tied _
  · exact printLine_tied _ _
  · exact printLine_tied _ _
  · exact .pure (forall_mem_stable rfl rfl)
  · exact (Tied.payload _).bind fun _ _ ↦ .pure (forall_mem_stable rfl rfl)

theorem callMethod_tied {callee first : Token} {rest : List Token} (hcallee : callee.Intact)
    (hrest : ∀ t ∈ rest, t.Single) : Tied alarm AllHold
      (ev.callMethod fuel id callee first rest) (ev'.callMethod fuel id callee first rest) := by
  refine (Tied.payload callee).bind fun receiver hreceiver ↦ ?_
  split_ifs
  · split
    · exact (method_tied fuel id (hcallee.value hreceiver) _ hrest).bind fun answer h ↦
        .pure fun t ht ↦ h t (Option.mem_toList.mp ht)
    · exact refuse_tied id callee
  · exact refuse_tied id callee

theorem single_splice {tokens : List Token} (h : Seals [] tokens) (ref : Ref) :
    (Token.envoy (.splice tokens) ref).Single :=
  ⟨Token.intact_of_seals (List.append_nil tokens) h, rfl⟩

theorem seals_flatten {forms : List (List Token)} (h : ∀ form ∈ forms, Seals [] form) :
    Seals [] forms.flatten := by
  induction forms with
  | nil => exact Token.seals_nil
  | cons form forms ih =>
    obtain ⟨hform, hforms⟩ := List.forall_mem_cons.mp h
    exact hform.append (ih hforms)

theorem boundTo_tied {form : List Token} (hform : Seals [] form) :
    Tied alarm Single (Expander.boundTo id form) (Expander.boundTo id form) := by
  unfold Expander.boundTo
  split
  · rename_i t
    have ht : t.Single := ⟨hform.head, Token.isDelimiter_of_nested hform.nested⟩
    split_ifs
    · exact .scope fun s hs ↦ .pure (Single.getD (hs t.content) ht)
    · exact .pure ht
  · exact Tied.freshRef.bind fun ref _ ↦ .pure (single_splice hform ref)

theorem bindAll_tied (caller : ScopeId) (params : List String) {forms : List (List Token)}
    (hforms : ∀ form ∈ forms, Seals [] form) : Tied alarm (fun _ ↦ True)
      (Expander.bindAll caller id params forms) (Expander.bindAll caller id params forms) := by
  induction params generalizing forms with
  | nil =>
    refine Tied.freshRef.bind fun ref _ ↦ ?_
    exact Tied.modifyScope id (Scope.rewrites_push _ (single_splice (seals_flatten hforms) ref))
  | cons name params ih =>
    cases forms with
    | nil =>
      refine (Tied.modifyScope id (Scope.rewrites_push name Token.single_null)).bind fun _ _ ↦ ?_
      exact ih (List.forall_mem_nil _)
    | cons form forms =>
      obtain ⟨hform, hrest⟩ := List.forall_mem_cons.mp hforms
      refine (boundTo_tied caller hform).bind fun t ht ↦ ?_
      exact (Tied.modifyScope id (Scope.rewrites_push name ht)).bind fun _ _ ↦ ih hrest

end Parts

end TokenLang

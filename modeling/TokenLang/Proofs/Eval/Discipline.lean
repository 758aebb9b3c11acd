import Mathlib.Logic.Relation
import Mathlib.Order.Basic
import TokenLang.Proofs.Eval.Contract
import TokenLang.Proofs.Eval.HostCode

/-!
Two evaluations in step. A `Discipline` relates the worlds of two evaluations of the same tokens,
says which captors may occur in them and in which scopes they take place, and is kept by every
change that an evaluation makes to a world: taking a reference number, printing, drawing, editing
the store of a scope, deriving a scope for a new captor. What may occur grows as an evaluation goes
on; `S` orders the stages of that growth. Both worlds have the same host, whose code makes no
captors, and in a lax discipline is discreet.

`Discipline.Agrees` says of two computations that from related worlds they end alike, in related
worlds. In a lax discipline nothing is said of a first computation that fails. With one evaluation
on both sides a discipline is an invariant; with two it is a simulation. The rules here carry
agreement through the ways computations are put together.
-/

set_option autoImplicit false
set_option relaxedAutoImplicit false

namespace TokenLang

open Token (AllOnly)

/-! ### Edits of a store -/

/-- One change of the bindings of a name: shadowing, dropping or replacing one. -/
inductive StackMap.Edit (free : String → Prop) (p : Token → Prop) :
    StackMap Token → StackMap Token → Prop
  | push {m : StackMap Token} {name : String} {t : Token} (hname : free name) (ht : p t) :
    Edit free p m (m.push name t)
  | pop {m : StackMap Token} {name : String} (hname : free name) : Edit free p m (m.pop name).2
  | set {m : StackMap Token} {name : String} {t : Token} (hname : free name) (ht : p t) :
    Edit free p m (m.set name t).2

namespace Scope

/-- The stores that edits of names which are not reserved make of the store of a scope. -/
def Edits (p : Token → Prop) (s : Scope) (m : StackMap Token) : Prop :=
  Relation.ReflTransGen (StackMap.Edit (fun name ↦ s.isReserved name = false) p) s.store m

/-- A change of a scope that edits its store, and reads only its store and its reserved names. -/
structure Rewrites (p : Token → Prop) (f : Scope → Scope) : Prop where
  edits : ∀ s : Scope, s.Edits p (f s).store
  same : ∀ s s' : Scope, s'.store = s.store → s'.reserved = s.reserved →
    f s' = { s' with store := (f s).store }

variable {p : Token → Prop}

theorem push_eq (s : Scope) (name : String) (t : Token) : s.push name t =
    { s with store := if s.isReserved name then s.store else s.store.push name t } := by
  unfold push
  split_ifs <;> rfl

theorem pop_eq (s : Scope) (name : String) : s.pop name =
    { s with store := if s.isReserved name then s.store else (s.store.pop name).2 } := by
  unfold pop
  split_ifs <;> rfl

theorem isReserved_congr {s s' : Scope} (h : s'.reserved = s.reserved) (name : String) :
    s'.isReserved name = s.isReserved name := by
  rw [isReserved, isReserved, h]

theorem rewrites_push (name : String) {t : Token} (ht : p t) :
    Rewrites p fun s ↦ s.push name t := by
  refine ⟨fun s ↦ ?_, fun s s' hstore hreserved ↦ ?_⟩
  · rw [push_eq]
    dsimp only
    split_ifs with hname
    · exact .refl
    · exact .single (.push (Bool.eq_false_iff.mpr hname) ht)
  · rw [push_eq, push_eq, hstore, isReserved_congr hreserved]

theorem rewrites_pop (name : String) : Rewrites p fun s ↦ s.pop name := by
  refine ⟨fun s ↦ ?_, fun s s' hstore hreserved ↦ ?_⟩
  · rw [pop_eq]
    dsimp only
    split_ifs with hname
    · exact .refl
    · exact .single (.pop (Bool.eq_false_iff.mpr hname))
  · rw [pop_eq, pop_eq, hstore, isReserved_congr hreserved]

theorem Rewrites.eq {f : Scope → Scope} (hf : Rewrites p f) (s : Scope) :
    f s = { s with store := (f s).store } := hf.same s s rfl rfl

theorem Rewrites.comp {f g : Scope → Scope} (hf : Rewrites p f) (hg : Rewrites p g) :
    Rewrites p fun s ↦ g (f s) := by
  have hreserved : ∀ s, (f s).reserved = s.reserved := fun s ↦ by rw [hf.eq s]
  refine ⟨fun s ↦ ?_, fun s s' hs hs' ↦ ?_⟩
  · have hnext := hg.edits (f s)
    unfold Edits isReserved at hnext
    rw [hreserved] at hnext
    exact (hf.edits s).trans hnext
  · have hfirst := hf.same s s' hs hs'
    have hnext := hg.same (f s) (f s') (by rw [hfirst]) (by rw [hreserved, hreserved, hs'])
    rw [hnext, hfirst]

theorem rewrites_id : Rewrites p fun s ↦ s := by
  refine ⟨fun s ↦ .refl, fun s s' hs _ ↦ ?_⟩
  rw [← hs]

theorem rewrites_bindParams (params : List String) {args : List Token} (hargs : ∀ t ∈ args, p t)
    (hnull : p .null) (hrest : ∀ rest, rest <:+ args → p (.stable (.list rest))) :
    Rewrites p fun s ↦ s.bindParams params args := by
  induction params generalizing args with
  | nil => exact rewrites_push leftoverName (hrest args (List.suffix_refl args))
  | cons name params ih =>
    cases args with
    | nil => exact (rewrites_push name hnull).comp (ih hargs hrest)
    | cons t args =>
      refine (rewrites_push name (hargs t (List.mem_cons_self ..))).comp (ih ?_ ?_)
      · exact fun u hu ↦ hargs u (List.mem_cons_of_mem t hu)
      · exact fun rest h ↦ hrest rest (h.trans (List.suffix_cons t args))

theorem rewrites_unbindParams (params : List String) :
    Rewrites p fun s ↦ s.unbindParams params := by
  have hall : ∀ names : List String, Rewrites p fun s ↦ names.foldl pop s := by
    intro names
    induction names with
    | nil => exact rewrites_id
    | cons name names ih => exact (rewrites_pop name).comp ih
  exact (rewrites_pop leftoverName).comp (hall params.reverse)

/-- Two scopes that differ at most in their limits. In a lax comparison the second one may be less
strict and allow more hops. -/
structure Matches (lax : Prop) (s s' : Scope) : Prop where
  name : s'.name = s.name
  store : s'.store = s.store
  reserved : s'.reserved = s.reserved
  operators : s'.operators = s.operators
  strict : s'.strict = s.strict ∨ lax ∧ s'.strict = false
  maxHops : s'.maxHops = s.maxHops ∨ lax ∧ s.maxHops ≤ s'.maxHops

namespace Matches

variable {lax : Prop} {s s' : Scope} (h : s.Matches lax s')
include h

/-- What makes nothing of the limits of a scope, if the comparison is lax, makes the same of
both. -/
theorem map_eq {α : Type} {f : Scope → α} (hf : lax → ∀ (s : Scope) (strict : Bool)
    (maxHops : Nat), f { s with strict := strict, maxHops := maxHops } = f s) : f s' = f s := by
  have heq : s' = { s with strict := s'.strict, maxHops := s'.maxHops } := by
    cases s'
    simp only [Scope.mk.injEq, and_true]
    exact ⟨h.name, h.store, h.reserved, h.operators⟩
  by_cases hlax : lax
  · rw [heq]
    exact hf hlax s _ _
  · have hstrict := h.strict.resolve_right fun hcase ↦ hlax hcase.1
    have hhops := h.maxHops.resolve_right fun hcase ↦ hlax hcase.1
    rw [heq, hstrict, hhops]

theorem get?_eq (name : String) : s'.get? name = s.get? name := by
  unfold Scope.get?
  rw [h.store]

theorem isMarker_eq : s'.isMarker = s.isMarker := by
  funext t
  simp only [Scope.isMarker, Scope.marker?, h.get?_eq]

theorem marker?_eq (t : Token) : s'.marker? t = s.marker? t := by
  simp only [Scope.marker?, h.get?_eq]

theorem varying?_eq (name : String) : s'.varying? name = s.varying? name := by
  simp only [Scope.varying?, h.get?_eq]

theorem unknown_eq (name : String) : s'.unknown name = s.unknown name := by
  simp only [Scope.unknown, Scope.suggest, Scope.names, h.store]

theorem peek_eq (name : String) : s'.peek name = s.peek name := by
  simp only [Scope.peek, h.get?_eq, h.unknown_eq]

theorem isReserved_eq (name : String) : s'.isReserved name = s.isReserved name :=
  isReserved_congr h.reserved name

theorem operatorFor_eq : s'.operatorFor = s.operatorFor := by
  have hoperator : s'.operator? = s.operator? := by
    funext name
    rw [Scope.operator?, Scope.operator?, h.operators]
  funext t
  unfold Scope.operatorFor
  rw [hoperator]

/-- Unless the first scope is strict and the comparison lax, both are as strict. -/
theorem strict_cases : s'.strict = s.strict ∨ lax ∧ s.strict = true ∧ s'.strict = false := by
  rcases h.strict with h | ⟨hlax, hfalse⟩
  · exact .inl h
  · cases hs : s.strict with
    | false => exact .inl hfalse
    | true => exact .inr ⟨hlax, rfl, hfalse⟩

end Matches

end Scope

/-! ### Worlds -/

namespace World

theorem modifyScope_congr {w : World} {id : ScopeId} {f g : Scope → Scope}
    (h : f (w.scope id) = g (w.scope id)) : w.modifyScope id f = w.modifyScope id g := by
  simp only [modifyScope, World.mk.injEq, and_true]
  refine Array.ext (by simp) fun i hi _ ↦ ?_
  have hsize : i < w.scopes.size := by simpa using hi
  simp only [Array.getElem_modify]
  split_ifs with hid
  · have hscope : w.scope id = w.scopes[i] := by
      unfold World.scope
      rw [hid, Array.getElem?_eq_getElem hsize]
      rfl
    rw [← hscope, h]
  · rfl

/-- A world with another store in one scope. -/
def setStore (w : World) (id : ScopeId) (m : StackMap Token) : World :=
  w.modifyScope id fun s ↦ { s with store := m }

theorem modifyScope_of_rewrites {p : Token → Prop} {f : Scope → Scope} (hf : Scope.Rewrites p f)
    (w : World) (id : ScopeId) : w.modifyScope id f = w.setStore id (f (w.scope id)).store :=
  modifyScope_congr (hf.eq _)

/-- A scope after a change of one, which has no effect when that one is not there. -/
theorem scope_modifyScope_eq (w : World) (id : ScopeId) (f : Scope → Scope) (other : ScopeId) :
    (w.modifyScope id f).scope other =
      if other = id ∧ id < w.scopes.size then f (w.scope id) else w.scope other := by
  unfold scope modifyScope
  dsimp only
  rw [Array.getElem?_modify]
  by_cases hid : other = id
  · subst hid
    by_cases hsize : other < w.scopes.size
    · simp [hsize]
    · simp [hsize]
  · simp [hid, Ne.symm hid]

theorem scope_derive (w : World) (id other : ScopeId) : (w.derive id).2.scope other =
    if other = w.scopes.size then w.scope id else w.scope other := by
  unfold derive
  simp only [scope, Array.getElem?_push]
  split_ifs <;> rfl

end World

/-! ### Disciplines -/

/-- What holds between the worlds of two evaluations in step, and is kept by all they do. -/
structure Discipline (S : Type) [Preorder S] where
  /-- Whether nothing is said of a first evaluation that fails. -/
  lax : Prop
  rel : S → World → World → Prop
  /-- The captors that may occur in the tokens of the evaluations. -/
  may : S → Captor → Prop
  /-- The scopes in which the evaluations take place. -/
  own : S → ScopeId → Prop
  may_mono : ∀ {σ σ' c}, σ ≤ σ' → may σ c → may σ' c
  own_mono : ∀ {σ σ' id}, σ ≤ σ' → own σ id → own σ' id
  own_of_may : ∀ {σ} {c : Captor}, may σ c → own σ c.scope
  scopes : ∀ {σ w w'}, rel σ w w' → ∀ id, (w.scope id).Matches lax (w'.scope id)
  size : ∀ {σ} {w w' : World}, rel σ w w' → w'.scopes.size = w.scopes.size
  nextRef : ∀ {σ} {w w' : World}, rel σ w w' → w'.nextRef = w.nextRef
  generator : ∀ {σ} {w w' : World}, rel σ w w' → w'.generator = w.generator
  memory : ∀ {σ} {w w' : World}, rel σ w w' → w'.memory = w.memory
  host : ∀ {σ} {w w' : World}, rel σ w w' → w'.host = w.host ∧ w.host.Keeps (may σ) ∧
    (lax → w.host.Discreet)
  bound : ∀ {σ} {w w' : World} {id name t}, rel σ w w' → own σ id →
    (w.scope id).get? name = some t → t.Only (may σ)
  setRef : ∀ {σ} {w w' : World}, rel σ w w' → ∀ n : Nat, w.nextRef ≤ n →
    rel σ { w with nextRef := n } { w' with nextRef := n }
  print : ∀ {σ} {w w' : World}, rel σ w w' → ∀ text : String,
    rel σ { w with output := w.output ++ text } { w' with output := w'.output ++ text }
  setMemory : ∀ {σ} {w w' : World}, rel σ w w' → ∀ n : Nat,
    rel σ { w with memory := n } { w' with memory := n }
  setGenerator : ∀ {σ} {w w' : World}, rel σ w w' → ∀ g : Generator,
    rel σ { w with generator := g } { w' with generator := g }
  edit : ∀ {σ} {w w' : World} {id m}, rel σ w w' → own σ id →
    (w.scope id).Edits (Token.Only (may σ)) m → rel σ (w.setStore id m) (w'.setStore id m)
  derive : ∀ {σ} {w w' : World} {id} {c : Captor}, rel σ w w' → own σ id →
    c.scope = w.scopes.size → AllOnly (may σ) c.body →
    ∃ σ', σ ≤ σ' ∧ may σ' c ∧ rel σ' (w.derive id).2 (w'.derive id).2

namespace Discipline

variable {S : Type} [Preorder S] (D : Discipline S) {α β : Type}

/-- Tokens that may occur. -/
abbrev Fit (σ : S) (t : Token) : Prop := t.Only (D.may σ)

/-- Tokens that may all occur. -/
abbrev AllFit (σ : S) (ts : List Token) : Prop := AllOnly (D.may σ) ts

variable {D} in
theorem fit_mono {σ σ' : S} (hσ : σ ≤ σ') {t : Token} (h : D.Fit σ t) : D.Fit σ' t :=
  h.mono fun _ hc ↦ D.may_mono hσ hc

variable {D} in
theorem allFit_mono {σ σ' : S} (hσ : σ ≤ σ') {ts : List Token} (h : D.AllFit σ ts) :
    D.AllFit σ' ts :=
  h.mono fun _ hc ↦ D.may_mono hσ hc

/-- From related worlds two computations end alike and in related worlds, with an answer that is
fit, unless the discipline is lax and the first one ends without an answer or with a spoilt one. -/
def Agrees (σ : S) (spoilt : α → Prop) (Q : S → α → Prop) (x y : EvalM α) : Prop :=
  ∀ w w', D.rel σ w w' →
    (D.lax ∧ ∀ a, x.outcome w = .ok a → spoilt a) ∨
    ∃ σ', σ ≤ σ' ∧ D.rel σ' (x.after w) (y.after w') ∧ y.outcome w' = x.outcome w ∧
      ∀ a, x.outcome w = .ok a → Q σ' a

/-- No answer is spoilt. -/
def unspoilt : α → Prop := fun _ ↦ False

namespace Agrees

variable {D} {σ : S} {spoilt : α → Prop} {Q : S → α → Prop} {x y : EvalM α}

theorem mono (h : D.Agrees σ spoilt Q x y) {spoilt' : α → Prop} {Q' : S → α → Prop}
    (hspoilt : ∀ a, spoilt a → spoilt' a) (hQ : ∀ σ', σ ≤ σ' → ∀ a, Q σ' a → Q' σ' a) :
    D.Agrees σ spoilt' Q' x y := by
  intro w w' hw
  rcases h w w' hw with ⟨hlax, hx⟩ | ⟨σ', hσ, hafter, hout, hanswer⟩
  · exact .inl ⟨hlax, fun a ha ↦ hspoilt a (hx a ha)⟩
  · exact .inr ⟨σ', hσ, hafter, hout, fun a ha ↦ hQ σ' hσ a (hanswer a ha)⟩

theorem pure {a : α} (h : Q σ a) : D.Agrees σ spoilt Q (pure a) (pure a) := by
  intro w w' hw
  refine .inr ⟨σ, le_refl σ, hw, rfl, fun b hb ↦ ?_⟩
  cases hb
  exact h

theorem throw (stop : Stop) : D.Agrees σ spoilt Q (throw stop) (throw stop) := by
  intro w w' hw
  refine .inr ⟨σ, le_refl σ, hw, rfl, fun b hb ↦ ?_⟩
  cases hb

theorem fail (f : Failure) : D.Agrees σ spoilt Q (EvalM.fail f) (EvalM.fail f) := throw _

theorem failWith (cause : Cause) :
    D.Agrees σ spoilt Q (EvalM.failWith cause) (EvalM.failWith cause) := throw _

/-- In a lax discipline a first computation with a spoilt answer agrees with any other. -/
theorem of_spoilt (hlax : D.lax) (h : ∀ w a, x.outcome w = .ok a → spoilt a) :
    D.Agrees σ spoilt Q x y :=
  fun w _ _ ↦ .inl ⟨hlax, h w⟩

theorem of_fails (hlax : D.lax) (h : ∀ w a, x.outcome w ≠ .ok a) : D.Agrees σ spoilt Q x y :=
  of_spoilt hlax fun w a ha ↦ absurd ha (h w a)

/-- One computation after another. A spoilt answer of the first must spoil the second. -/
theorem bind' {spoilt' : β → Prop} {P : S → α → Prop} {Q : S → β → Prop} {f g : α → EvalM β}
    (hx : D.Agrees σ spoilt P x y)
    (hspoilt : D.lax → ∀ a, spoilt a → ∀ w b, (f a).outcome w = .ok b → spoilt' b)
    (hf : ∀ σ', σ ≤ σ' → ∀ a, P σ' a → D.Agrees σ' spoilt' Q (f a) (g a)) :
    D.Agrees σ spoilt' Q (x >>= f) (y >>= g) := by
  intro w w' hw
  simp only [EvalM.outcome_bind, EvalM.after_bind]
  rcases hx w w' hw with ⟨hlax, hexempt⟩ | ⟨σ', hσ, hafter, hout, hanswer⟩
  · refine .inl ⟨hlax, fun b hb ↦ ?_⟩
    cases hxw : x.outcome w with
    | ok a =>
      rw [hxw] at hb
      exact hspoilt hlax a (hexempt a hxw) _ b hb
    | error stop =>
      rw [hxw] at hb
      cases hb
  · rw [hout]
    cases hxw : x.outcome w with
    | ok a =>
      rcases hf σ' hσ a (hanswer a hxw) _ _ hafter with hexempt | ⟨σ'', hσ', hafter', hout', hQ⟩
      · exact .inl hexempt
      · exact .inr ⟨σ'', hσ.trans hσ', hafter', hout', hQ⟩
    | error stop => exact .inr ⟨σ', hσ, hafter, rfl, fun b hb ↦ (by cases hb)⟩

theorem bind {spoilt' : β → Prop} {P : S → α → Prop} {Q : S → β → Prop} {f g : α → EvalM β}
    (hx : D.Agrees σ unspoilt P x y)
    (hf : ∀ σ', σ ≤ σ' → ∀ a, P σ' a → D.Agrees σ' spoilt' Q (f a) (g a)) :
    D.Agrees σ spoilt' Q (x >>= f) (y >>= g) :=
  hx.bind' (fun _ _ h ↦ h.elim) hf

theorem map {Q : S → β → Prop} {P : S → α → Prop} {f : α → β} {spoilt' : β → Prop}
    (hx : D.Agrees σ unspoilt P x y) (hf : ∀ σ', σ ≤ σ' → ∀ a, P σ' a → Q σ' (f a)) :
    D.Agrees σ spoilt' Q (f <$> x) (f <$> y) := by
  rw [map_eq_pure_bind, map_eq_pure_bind]
  exact hx.bind fun σ' hσ a ha ↦ Agrees.pure (hf σ' hσ a ha)

theorem failWith_bind {spoilt : β → Prop} {Q : S → β → Prop} (cause : Cause)
    {f g : α → EvalM β} :
    D.Agrees σ spoilt Q (EvalM.failWith cause >>= f) (EvalM.failWith cause >>= g) :=
  (failWith cause : D.Agrees σ unspoilt (fun _ _ ↦ False) _ _).bind fun _ _ _ h ↦ h.elim

/-- Looking at the world. -/
theorem get {f g : World → EvalM β} {spoilt' : β → Prop} {Q : S → β → Prop}
    (h : ∀ w w', D.rel σ w w' → D.Agrees σ spoilt' Q (f w) (g w')) :
    D.Agrees σ spoilt' Q (MonadState.get >>= f) (MonadState.get >>= g) :=
  fun w w' hw ↦ h w w' hw w w' hw

/-- Looking at a scope. -/
theorem scope {id : ScopeId} {f g : Scope → EvalM β} {spoilt' : β → Prop} {Q : S → β → Prop}
    (h : ∀ s s', s.Matches D.lax s' →
      (D.own σ id → ∀ name t, s.get? name = some t → D.Fit σ t) →
      D.Agrees σ spoilt' Q (f s) (g s')) :
    D.Agrees σ spoilt' Q (EvalM.scope id >>= f) (EvalM.scope id >>= g) :=
  fun w w' hw ↦ h _ _ (D.scopes hw id) (fun hid _ _ ht ↦ D.bound hw hid ht) w w' hw

/-- Asking for the host. -/
theorem host {f g : Host → EvalM β} {spoilt' : β → Prop} {Q : S → β → Prop}
    (h : ∀ host : Host, host.Keeps (D.may σ) → (D.lax → host.Discreet) →
      D.Agrees σ spoilt' Q (f host) (g host)) :
    D.Agrees σ spoilt' Q (EvalM.host >>= f) (EvalM.host >>= g) := by
  refine Agrees.get (f := fun w ↦ f w.host) (g := fun w ↦ g w.host) fun w w' hw ↦ ?_
  obtain ⟨hsame, hkeeps, hdiscreet⟩ := D.host hw
  rw [hsame]
  exact h w.host hkeeps hdiscreet

theorem ofExcept {e : Except Stop α} (h : ∀ a, e = .ok a → Q σ a) :
    D.Agrees σ spoilt Q (EvalM.ofExcept e) (EvalM.ofExcept e) :=
  fun _ _ hw ↦ .inr ⟨σ, le_refl σ, hw, rfl, h⟩

/-- Results that differ only in what a lax discipline leaves out. -/
theorem ofExcept' {e e' : Except Stop α} (he : e' = e ∨ D.lax ∧ ∀ a, e = .ok a → e' = .ok a)
    (h : ∀ a, e = .ok a → Q σ a) :
    D.Agrees σ spoilt Q (EvalM.ofExcept e) (EvalM.ofExcept e') := by
  rcases he with rfl | ⟨hlax, he⟩
  · exact ofExcept h
  · cases e with
    | error stop => exact of_fails hlax fun w a ha ↦ (by cases ha)
    | ok a =>
      rw [he a rfl]
      exact ofExcept h

theorem ofFailure {e : Except Failure α} (h : ∀ a, e = .ok a → Q σ a) :
    D.Agrees σ spoilt Q (EvalM.ofFailure e) (EvalM.ofFailure e) := by
  refine ofExcept fun a ha ↦ h a ?_
  cases e with
  | ok b => cases ha; rfl
  | error f => cases ha

theorem freshRefs {spoilt : Ref → Prop} (count : Nat) :
    D.Agrees σ spoilt (fun _ _ ↦ True) (EvalM.freshRefs count) (EvalM.freshRefs count) := by
  intro w w' hw
  have hnext := D.nextRef hw
  refine .inr ⟨σ, le_refl σ, ?_, congrArg Except.ok hnext, fun _ _ ↦ trivial⟩
  show D.rel σ { w with nextRef := w.nextRef + count } { w' with nextRef := w'.nextRef + count }
  rw [hnext]
  exact D.setRef hw _ (Nat.le_add_right ..)

theorem freshRef {spoilt : Ref → Prop} :
    D.Agrees σ spoilt (fun _ _ ↦ True) EvalM.freshRef EvalM.freshRef :=
  freshRefs 1

theorem write {spoilt : Unit → Prop} (text : String) :
    D.Agrees σ spoilt (fun _ _ ↦ True) (EvalM.write text) (EvalM.write text) :=
  fun _ _ hw ↦ .inr ⟨σ, le_refl σ, D.print hw text, rfl, fun _ _ ↦ trivial⟩

theorem memory {spoilt : Nat → Prop} :
    D.Agrees σ spoilt (fun _ _ ↦ True) EvalM.memory EvalM.memory :=
  fun _ _ hw ↦ .inr ⟨σ, le_refl σ, hw, congrArg Except.ok (D.memory hw), fun _ _ ↦ trivial⟩

theorem setMemory {spoilt : Unit → Prop} (n : Nat) :
    D.Agrees σ spoilt (fun _ _ ↦ True) (EvalM.setMemory n) (EvalM.setMemory n) :=
  fun _ _ hw ↦ .inr ⟨σ, le_refl σ, D.setMemory hw n, rfl, fun _ _ ↦ trivial⟩

theorem setGenerator {spoilt : Unit → Prop} (g : Generator) :
    D.Agrees σ spoilt (fun _ _ ↦ True) (modify fun w : World ↦ { w with generator := g })
      (modify fun w : World ↦ { w with generator := g }) :=
  fun _ _ hw ↦ .inr ⟨σ, le_refl σ, D.setGenerator hw g, rfl, fun _ _ ↦ trivial⟩

theorem draw {f : Generator → α × Generator} :
    D.Agrees σ spoilt (fun _ _ ↦ True) (Method.draw f) (Method.draw f) := by
  intro w w' hw
  have hgenerator := D.generator hw
  refine .inr ⟨σ, le_refl σ, ?_, ?_, fun _ _ ↦ trivial⟩
  · show D.rel σ { w with generator := (f w.generator).2 }
      { w' with generator := (f w'.generator).2 }
    rw [hgenerator]
    exact D.setGenerator hw _
  · show Except.ok (f w'.generator).1 = Except.ok (f w.generator).1
    rw [hgenerator]

/-- A number as a token. -/
theorem numberToken {spoilt : Token → Prop} (n : Number) :
    D.Agrees σ spoilt D.Fit (EvalM.numberToken n) (EvalM.numberToken n) := by
  refine freshRef.bind fun σ' _ ref _ ↦ Agrees.pure ?_
  cases n <;> exact Value.only_of_plain rfl rfl

theorem modifyScope {spoilt : Unit → Prop} {id : ScopeId} {f : Scope → Scope} (hid : D.own σ id)
    (hf : Scope.Rewrites (D.Fit σ) f) :
    D.Agrees σ spoilt (fun _ _ ↦ True) (EvalM.modifyScope id f) (EvalM.modifyScope id f) := by
  intro w w' hw
  refine .inr ⟨σ, le_refl σ, ?_, rfl, fun _ _ ↦ trivial⟩
  have hmatch := D.scopes hw id
  rw [EvalM.after_modifyScope, EvalM.after_modifyScope, World.modifyScope_of_rewrites hf,
    World.modifyScope_of_rewrites hf, hf.same _ _ hmatch.store hmatch.reserved]
  exact D.edit hw hid (hf.edits _)

/-- A change of a scope after a computation, however that ended. -/
theorem ensuring {id : ScopeId} {f : Scope → Scope} (hid : D.own σ id)
    (hf : ∀ σ', σ ≤ σ' → Scope.Rewrites (D.Fit σ') f) (hx : D.Agrees σ spoilt Q x y) :
    D.Agrees σ spoilt Q (EvalM.ensuring x fun w ↦ w.modifyScope id f)
      (EvalM.ensuring y fun w ↦ w.modifyScope id f) := by
  intro w w' hw
  simp only [EvalM.outcome_ensuring, EvalM.after_ensuring]
  rcases hx w w' hw with hexempt | ⟨σ', hσ, hafter, hout, hanswer⟩
  · exact .inl hexempt
  · refine .inr ⟨σ', hσ, ?_, hout, hanswer⟩
    have hf := hf σ' hσ
    have hmatch := D.scopes hafter id
    rw [World.modifyScope_of_rewrites hf, World.modifyScope_of_rewrites hf,
      hf.same _ _ hmatch.store hmatch.reserved]
    exact D.edit hafter (D.own_mono hσ hid) (hf.edits _)

/-- Catching failures. -/
theorem attempt (hx : D.Agrees σ spoilt Q x y) :
    D.Agrees σ (fun r ↦ ∀ a, r = .ok a → spoilt a) (fun σ r ↦ ∀ a, r = .ok a → Q σ a)
      (EvalM.attempt x) (EvalM.attempt y) := by
  intro w w' hw
  simp only [EvalM.outcome_attempt, EvalM.after_attempt]
  rcases hx w w' hw with ⟨hlax, hexempt⟩ | ⟨σ', hσ, hafter, hout, hanswer⟩
  · refine .inl ⟨hlax, fun r hr a ha ↦ ?_⟩
    rcases hxw : x.outcome w with (f | _ | _) | b <;> rw [hxw] at hr <;> cases hr <;> cases ha
    exact hexempt a hxw
  · refine .inr ⟨σ', hσ, hafter, by rw [hout], fun r hr a ha ↦ ?_⟩
    rcases hxw : x.outcome w with (f | _ | _) | b <;> rw [hxw] at hr <;> cases hr <;> cases ha
    exact hanswer a hxw

theorem locating (gap : Gap) (hx : D.Agrees σ spoilt Q x y) :
    D.Agrees σ spoilt Q (EvalM.locating gap x) (EvalM.locating gap y) := by
  have hok : ∀ (z : EvalM α) w a, (EvalM.locating gap z).outcome w = .ok a →
      z.outcome w = .ok a := by
    intro z w a ha
    rw [EvalM.outcome_locating] at ha
    split at ha
    · cases ha
    · exact ha
  intro w w' hw
  rcases hx w w' hw with ⟨hlax, hexempt⟩ | ⟨σ', hσ, hafter, hout, hanswer⟩
  · exact .inl ⟨hlax, fun a ha ↦ hexempt a (hok x w a ha)⟩
  · refine .inr ⟨σ', hσ, ?_, ?_, fun a ha ↦ hanswer a (hok x w a ha)⟩
    · rw [EvalM.after_locating, EvalM.after_locating]
      exact hafter
    · rw [EvalM.outcome_locating, EvalM.outcome_locating, hout]

theorem blaming (t : Token) (hx : D.Agrees σ unspoilt Q x y) :
    D.Agrees σ spoilt Q (EvalM.blaming t x) (EvalM.blaming t y) := by
  refine hx.attempt.bind' (fun _ r hr w b hb ↦ ?_) fun σ' _ r hr ↦ ?_
  · cases r with
    | ok a => exact (hr a rfl).elim
    | error f => cases hb
  · cases r with
    | ok a => exact Agrees.pure (hr a rfl)
    | error f => exact fail _

end Agrees

end Discipline

end TokenLang

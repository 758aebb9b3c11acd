import TokenLang.Proofs.Eval.Answers

/-!
Every part of an evaluation meets its contract. The evaluator that a part gets as an argument is
taken to meet one (`Evaluator.Reliable`): it keeps a relation of worlds, gives complete tokens only,
does not fail, and asks for missing values only in the ways of `Gap.Known`. Each part then does
the same, up to failures, when the tokens it is handed have values; parts that are handed tokens
as written may come upon a gap among them, which the hypothesis `Valued gaps args` leaves
open. At the end the scan, which is the evaluator, is shown to meet the contract itself
(`Scan.run_meets`), by induction on its bound.
-/

set_option autoImplicit false
set_option relaxedAutoImplicit false

namespace TokenLang

open EvalM (Meets)

/-! ### Single steps -/

namespace World.Admits

variable {R : World → World → Prop} (hR : World.Admits R) {failures gaps : Prop} {α β : Type}
  {P : α → Prop}
include hR

theorem pure {a : α} (h : P a) : Meets R failures gaps P (pure a) := fun w ↦ ⟨hR.refl w, h⟩

theorem throw {stop : Stop} (h : stop.Allowed failures gaps) :
    Meets R failures gaps P (throw stop) :=
  fun w ↦ ⟨hR.refl w, h⟩

theorem bind {Q : β → Prop} {x : EvalM α} {f : α → EvalM β} (hx : Meets R failures gaps P x)
    (hf : ∀ a, P a → Meets R failures gaps Q (f a)) : Meets R failures gaps Q (x >>= f) :=
  hx.bind hR.trans hf

theorem map {Q : β → Prop} {x : EvalM α} {f : α → β} (hx : Meets R failures gaps P x)
    (hf : ∀ a, P a → Q (f a)) : Meets R failures gaps Q (f <$> x) := by
  rw [map_eq_pure_bind]
  exact hR.bind hx fun a ha ↦ hR.pure (hf a ha)

theorem scope (id : ScopeId) : Meets R failures gaps (fun _ ↦ True) (EvalM.scope id) :=
  fun w ↦ ⟨hR.refl w, trivial⟩

theorem fail (f : Failure) : Meets R True gaps P (EvalM.fail f) := hR.throw trivial

theorem failWith (cause : Cause) : Meets R True gaps P (EvalM.failWith cause) := hR.throw trivial

theorem ofExcept {x : Except Stop α} (hx : Answers gaps x) :
    Meets R True gaps (fun _ ↦ True) (EvalM.ofExcept x) := by
  intro w
  refine ⟨hR.refl w, ?_⟩
  rw [EvalM.outcome_ofExcept]
  cases x with
  | ok a => trivial
  | error stop => exact (hx stop rfl).1

theorem ofFailure (x : Except Failure α) :
    Meets R True gaps (fun a ↦ x = .ok a) (EvalM.ofFailure x) := by
  intro w
  refine ⟨hR.refl w, ?_⟩
  cases x with
  | ok a => rfl
  | error f => trivial

theorem freshRef : Meets R failures gaps (fun _ ↦ True) EvalM.freshRef :=
  fun w ↦ ⟨hR.refs w (w.nextRef + 1) (Nat.le_succ _), trivial⟩

theorem freshRefs (count : Nat) :
    Meets R failures gaps (fun _ ↦ True) (EvalM.freshRefs count) :=
  fun w ↦ ⟨hR.refs w (w.nextRef + count) (Nat.le_add_right ..), trivial⟩

theorem host : Meets R failures gaps (fun _ ↦ True) EvalM.host := fun w ↦ ⟨hR.refl w, trivial⟩

theorem write (text : String) : Meets R failures gaps (fun _ ↦ True) (EvalM.write text) :=
  fun w ↦ ⟨hR.output w text, trivial⟩

theorem memory : Meets R failures gaps (fun _ ↦ True) EvalM.memory :=
  fun w ↦ ⟨hR.refl w, trivial⟩

theorem setMemory (n : Nat) : Meets R failures gaps (fun _ ↦ True) (EvalM.setMemory n) :=
  fun w ↦ ⟨hR.remember w n, trivial⟩

theorem numberToken (n : Number) :
    Meets R failures gaps (fun _ ↦ True) (EvalM.numberToken n) :=
  hR.bind hR.freshRef fun _ _ ↦ hR.pure trivial

theorem draw {f : Generator → α × Generator} :
    Meets R failures gaps (fun _ ↦ True) (Method.draw f) :=
  fun w ↦ ⟨hR.generator w (f w.generator).2, trivial⟩

theorem blaming (t : Token) {x : EvalM α} (hx : Meets R True gaps P x) :
    Meets R True gaps P (EvalM.blaming t x) := by
  refine hR.bind hx.attempt fun answer hanswer ↦ ?_
  cases answer with
  | ok a => exact hR.pure (hanswer a rfl)
  | error f => exact hR.fail _

theorem updateScope {id : ScopeId} {f : Scope → Except Cause Scope}
    (h : ∀ w s, f (World.scope w id) = .ok s → R w (w.modifyScope id fun _ ↦ s)) :
    Meets R True gaps (fun _ ↦ True) (EvalM.updateScope id f) := by
  intro w
  unfold EvalM.updateScope
  rw [EvalM.outcome_bind, EvalM.after_bind, EvalM.outcome_scope, EvalM.after_scope]
  dsimp only
  cases hf : f (w.scope id) with
  | ok s => exact ⟨h w s hf, trivial⟩
  | error cause => exact ⟨hR.refl w, trivial⟩

end World.Admits

/-! ### Forms and rounds of evaluation -/

/-- A token that the scan can hand out has a value. -/
theorem Token.value?_of_isComplete {t : Token} (h : t.isComplete = true) :
    t.value?.isSome = true := by
  cases t <;> first | rfl | exact absurd h (by simp [Token.isComplete])

/-- Reductions whose token has a value. -/
def Reduction.HasValue : Reduction → Prop
  | .value t _ => t.value?.isSome = true
  | _ => True

/-- An evaluator that keeps a relation, gives tokens with values, does not fail, and comes upon
known gaps only. -/
def Evaluator.Reliable (R : World → World → Prop) (ev : Evaluator) : Prop :=
  ∀ id tokens, EvalM.Meets R False False Reduction.HasValue (ev id tokens)

section Parts

variable {R : World → World → Prop} (hR : World.Admits R) {ev : Evaluator} (hev : ev.Reliable R)
  {gaps : Prop} (fuel : Nat) (id : ScopeId)

include hev in
theorem Evaluator.Reliable.run (tokens : List Token) :
    Meets R True gaps Reduction.HasValue (ev id tokens) :=
  (hev id tokens).mono False.elim False.elim fun _ h ↦ h

include hR

theorem cut_meets (args : List Token) : Meets R True gaps
    (fun _ ↦ True) (Evaluator.cut id args) :=
  hR.bind (hR.scope id) fun _ _ ↦ (hR.ofFailure _).any

theorem cutAll_meets (args : List Token) : Meets R True gaps
    (fun forms ↦ ∃ isMarker, Form.splitAll isMarker args = .ok forms)
    (Evaluator.cutAll id args) :=
  hR.bind (hR.scope id) fun _ _ ↦ (hR.ofFailure _).mono (fun h ↦ h) (fun h ↦ h) fun _ h ↦ ⟨_, h⟩

include hev

theorem next_meets (args : List Token) : Meets R True gaps
    (fun answer ↦ ∀ t, answer.1 = some t → t.value?.isSome = true) (ev.next id args) := by
  cases args with
  | nil => exact hR.pure fun t h ↦ by cases h
  | cons t args =>
    refine hR.bind (cut_meets hR id (t :: args)) fun answer _ ↦ ?_
    obtain ⟨form, rest⟩ := answer
    refine hR.bind (hev.run id form) fun r hr ↦ ?_
    cases r with
    | value u _ => exact hR.pure fun v h ↦ by cases h; exact hr
    | nothing => exact hR.pure fun v h ↦ by cases h
    | failed f _ => exact hR.fail f

theorem collect_meets (rounds : Nat) (done tokens : List Token) :
    Meets R False False (fun _ ↦ True) (ev.collect id rounds done tokens) := by
  induction rounds generalizing done tokens with
  | zero => exact hR.throw trivial
  | succ rounds ih =>
    refine hR.bind (hev id tokens) fun r _ ↦ ?_
    cases r with
    | value t rest => exact ih (t :: done) rest
    | nothing => exact hR.pure trivial
    | failed f _ => exact hR.pure trivial

theorem reduce_meets (tokens : List Token) :
    Meets R True gaps (fun _ ↦ True) (ev.reduce fuel id tokens) := by
  refine hR.bind ((collect_meets hR hev id fuel [] tokens).mono False.elim False.elim
    fun _ h ↦ h) fun answer _ ↦ ?_
  obtain ⟨out, failure⟩ := answer
  cases failure with
  | none => exact hR.pure trivial
  | some f => exact hR.fail f

/-! ### Host code -/

omit hev in
theorem trying_meets {x : EvalM Unit} (hx : Meets R True gaps (fun _ ↦ True) x) :
    Meets R True gaps (fun _ ↦ True) (Host.Code.trying x) := by
  refine hR.bind hx.attempt fun answer _ ↦ ?_
  cases answer <;> exact hR.pure trivial

omit hev in
theorem derive_meets : Meets R True gaps (fun _ ↦ True) (EvalM.derive id) :=
  fun w ↦ ⟨hR.derive w (w.scope id), trivial⟩

omit hev in
theorem place_meets (apart : Bool) :
    Meets R True gaps (fun _ ↦ True) (Host.Code.place id apart) := by
  cases apart with
  | false => exact hR.pure trivial
  | true => exact derive_meets hR id

/-- Host code of any kind, by what it asks for. -/
theorem code_meets {α : Type} (code : Host.Code α) :
    Meets R True gaps (fun _ ↦ True) (code.run ev fuel id) := by
  induction code with
  | answer a => exact hR.pure trivial
  | fail f => exact hR.fail f
  | look next ih => exact hR.bind (hR.scope id) fun s _ ↦ ih s
  | fresh count next ih => exact hR.bind (hR.freshRefs count) fun base _ ↦ ih base
  | write text next ih => exact hR.bind (hR.write text) fun _ _ ↦ ih
  | memory next ih => exact hR.bind hR.memory fun n _ ↦ ih n
  | setMemory n next ih => exact hR.bind (hR.setMemory n) fun _ _ ↦ ih
  | assign name t next ih =>
    exact hR.bind (trying_meets hR (hR.updateScope fun w s h ↦ hR.assign w id name t s h))
      fun failure _ ↦ ih failure
  | define name t next ih =>
    exact hR.bind (trying_meets hR (hR.updateScope fun w s h ↦ hR.define w id name t s h))
      fun failure _ ↦ ih failure
  | evaluate apart tokens next ih =>
    refine hR.bind (place_meets hR id apart) fun scope _ ↦ ?_
    exact hR.bind ((collect_meets hR hev scope fuel [] tokens).mono False.elim False.elim
      fun _ h ↦ h) fun answer _ ↦ ih _ answer.2

theorem host_meets {α : Type} (code : Host → Host.Code α) : Meets R True gaps (fun _ ↦ True)
    (do (code (← EvalM.host)).run ev fuel id) :=
  hR.bind hR.host fun h _ ↦ code_meets hR hev fuel id (code h)

omit hev

/-! ### Envoys -/

theorem quoteNext_meets (after : List Token) :
    Meets R True gaps (fun _ ↦ True) (Envoy.quoteNext id after) :=
  hR.bind (cut_meets hR id after) fun _ _ ↦ hR.pure trivial

include hev

theorem unquoteNext_meets (t : Token) (rest : List Token) :
    Meets R True gaps (fun _ ↦ True) (Envoy.unquoteNext ev id t rest) := by
  refine hR.bind (hR.scope id) fun s _ ↦ ?_
  split_ifs
  · split <;> exact hR.pure trivial
  · refine hR.bind (next_meets hR hev id (t :: rest)) fun answer _ ↦ ?_
    rcases answer with ⟨_ | v, rest⟩ <;> exact hR.pure trivial

theorem envoy_meets (e : Envoy) (after : List Token) :
    Meets R True gaps (fun _ ↦ True) (e.apply ev fuel id after) := by
  unfold Envoy.apply
  split
  · exact hR.pure trivial
  · exact hR.bind (host_meets hR hev fuel id fun h ↦ h.envoy _ _) fun _ _ ↦ hR.pure trivial
  · exact hR.bind (reduce_meets hR hev fuel _ _) fun _ _ ↦ hR.pure trivial
  · split_ifs
    · exact hR.pure trivial
    · exact quoteNext_meets hR id _
  · split_ifs
    · exact hR.pure trivial
    · exact unquoteNext_meets hR hev id _ _
  · exact hR.pure trivial
  · exact hR.pure trivial

/-! ### Special forms -/

omit hev in
theorem nameOf_meets (t : Token) :
    Meets R True gaps (fun _ ↦ True) (SpecialForm.nameOf t) := by
  unfold SpecialForm.nameOf
  split_ifs
  · exact hR.pure trivial
  · split
    · exact hR.pure trivial
    · exact hR.pure trivial
    · exact hR.fail _

theorem nameFrom_meets (hops : Nat) (args : List Token) :
    Meets R True gaps (fun _ ↦ True) (SpecialForm.nameFrom ev fuel id hops args) := by
  induction hops generalizing args with
  | zero => exact hR.failWith _
  | succ hops ih =>
    cases args with
    | nil => exact hR.failWith _
    | cons t rest =>
      refine hR.bind (hR.scope id) fun s _ ↦ ?_
      split
      · exact hR.bind (envoy_meets hR hev fuel id _ rest) fun _ _ ↦ ih _
      · exact hR.bind (nameOf_meets hR t) fun _ _ ↦ hR.pure trivial

theorem takeName_meets (args : List Token) :
    Meets R True gaps (fun _ ↦ True) (SpecialForm.takeName ev fuel id args) :=
  hR.bind (hR.scope id) fun _ _ ↦ nameFrom_meets hR hev fuel id _ args

theorem takeBinding_meets (args : List Token) :
    Meets R True gaps (fun _ ↦ True) (SpecialForm.takeBinding ev fuel id args) :=
  hR.bind (takeName_meets hR hev fuel id args) fun _ _ ↦
    hR.bind (next_meets hR hev id _) fun _ _ ↦ hR.pure trivial

omit hev in
theorem bind_meets (name : String) (t : Token) :
    Meets R True gaps (fun _ ↦ True) (SpecialForm.bind id name t) :=
  hR.updateScope fun w s h ↦ hR.define w id name t s h

omit hev in
theorem rebind_meets (name : String) (t : Token) :
    Meets R True gaps (fun _ ↦ True) (SpecialForm.rebind id name t) :=
  hR.updateScope fun w s h ↦ hR.assign w id name t s h

/-- Counting comes upon a gap only in the token that the name is bound to. -/
theorem adjust_meets (op : ArithOp) (args : List Token) :
    Meets R True gaps (fun _ ↦ True) (SpecialForm.adjust ev fuel id op args) := by
  refine hR.bind (takeName_meets hR hev fuel id args) fun answer _ ↦ ?_
  obtain ⟨name, rest⟩ := answer
  refine hR.bind (hR.scope id) fun s _ ↦ ?_
  have hcount : ∀ current, Meets R True gaps (fun _ ↦ True) (do
      let answer ← ev.next id rest
      let amount := answer.1.getD (.stable (.int 1))
      let n ← EvalM.locating (.counter current)
        (EvalM.ofExcept (op.fold (← EvalM.scope id).strict [current, amount]))
      let t ← EvalM.numberToken n
      SpecialForm.rebind id name t
      return [t]) := by
    intro current
    refine hR.bind (next_meets hR hev id rest) fun answer hanswer ↦ ?_
    obtain ⟨amount, _⟩ := answer
    refine hR.bind (hR.scope id) fun s _ ↦ ?_
    have hfold : Answers (current.value? = none)
        (op.fold s.strict [current, amount.getD (.stable (.int 1))]) := by
      refine answers_fold _ _ ?_
      by_cases hcurrent : current.value? = none
      · exact .inr hcurrent
      · refine .inl fun t ht ↦ ?_
        rcases List.mem_cons.mp ht with rfl | ht
        · exact Option.isSome_iff_ne_none.mpr hcurrent
        · obtain rfl := List.mem_singleton.mp ht
          cases amount with
          | none => rfl
          | some t => exact hanswer t rfl
    have hlocated : Meets R True False (fun _ ↦ True) (EvalM.locating (.counter current)
        (EvalM.ofExcept (op.fold s.strict [current, amount.getD (.stable (.int 1))]))) :=
      (hR.ofExcept hfold).locating fun h ↦ h
    refine hR.bind (hlocated.mono (fun h ↦ h) False.elim fun _ h ↦ h) fun n _ ↦ ?_
    exact hR.bind (hR.numberToken n) fun t _ ↦
      hR.bind (rebind_meets hR id name t) fun _ _ ↦ hR.pure trivial
  dsimp only
  split
  · exact hR.bind (hR.pure (P := fun _ ↦ True) trivial) fun current _ ↦ hcount current
  · exact hR.bind (hR.failWith (P := fun _ ↦ True) _) fun current _ ↦ hcount current

omit hev in
theorem payload_meets {t : Token} (ht : t.value?.isSome = true) :
    Meets R True gaps (fun _ ↦ True) (EvalM.ofExcept t.payload) :=
  hR.ofExcept (answers_payload (.inl ht))

theorem branch_meets (args : List Token) :
    Meets R True gaps (fun _ ↦ True) (SpecialForm.branch ev id args) := by
  refine hR.bind (next_meets hR hev id args) fun answer hanswer ↦ ?_
  rcases answer with ⟨_ | condition, rest⟩
  · exact hR.pure trivial
  · refine hR.bind (payload_meets hR (hanswer condition rfl)) fun v _ ↦ ?_
    have hlast : ∀ rest, Meets R True gaps (fun _ ↦ True) (do
        let answer ← ev.next id rest
        return [answer.1.getD .null]) := fun rest ↦
      hR.bind (next_meets hR hev id rest) fun _ _ ↦ hR.pure trivial
    dsimp only
    split_ifs
    · exact hR.bind (hR.pure (P := fun _ ↦ True) trivial) fun rest _ ↦ hlast rest
    · exact hR.bind (hR.map (Q := fun _ ↦ True) (cut_meets hR id rest) fun _ _ ↦ trivial)
        fun rest _ ↦ hlast rest

theorem untilTruth_meets (stop : Bool) (forms : Nat) (last : Token) (args : List Token) :
    Meets R True gaps (fun _ ↦ True) (SpecialForm.untilTruth ev id stop forms last args) := by
  induction forms generalizing last args with
  | zero => exact hR.pure trivial
  | succ forms ih =>
    refine hR.bind (next_meets hR hev id args) fun answer hanswer ↦ ?_
    rcases answer with ⟨_ | t, rest⟩
    · exact hR.pure trivial
    · refine hR.bind (payload_meets hR (hanswer t rfl)) fun v _ ↦ ?_
      split_ifs
      · exact hR.pure trivial
      · exact ih t rest

theorem whileLoop_meets (condition body : List Token) (rounds : Nat) (done : List Token) :
    Meets R True gaps (fun _ ↦ True)
      (SpecialForm.whileLoop ev fuel id condition body rounds done) := by
  induction rounds generalizing done with
  | zero => exact hR.throw trivial
  | succ rounds ih =>
    refine hR.bind (next_meets hR hev id condition) fun answer hanswer ↦ ?_
    rcases answer with ⟨_ | t, rest⟩
    · exact hR.pure trivial
    · refine hR.bind (payload_meets hR (hanswer t rfl)) fun v _ ↦ ?_
      split_ifs
      · exact hR.bind (reduce_meets hR hev fuel id body) fun out _ ↦ ih _
      · exact hR.pure trivial

theorem repeatLoop_meets (body : List Token) (rounds : Nat) (done : List Token) :
    Meets R True gaps (fun _ ↦ True) (SpecialForm.repeatLoop ev fuel id body rounds done) := by
  induction rounds generalizing done with
  | zero => exact hR.pure trivial
  | succ rounds ih => exact hR.bind (reduce_meets hR hev fuel id body) fun out _ ↦ ih _

omit hev in
theorem paramNames_meets (tokens : List Token) :
    Meets R True gaps (fun _ ↦ True) (SpecialForm.paramNames tokens) := by
  induction tokens with
  | nil => exact hR.pure trivial
  | cons t tokens ih =>
    unfold SpecialForm.paramNames
    split_ifs
    · exact hR.bind ih fun _ _ ↦ hR.pure trivial
    · exact hR.fail _

omit hev in
theorem takeParams_meets (args : List Token) :
    Meets R True gaps (fun _ ↦ True) (SpecialForm.takeParams id args) := by
  unfold SpecialForm.takeParams
  split
  · exact hR.failWith _
  · split_ifs
    · exact hR.bind (cut_meets hR id _) fun _ _ ↦
        hR.bind (paramNames_meets hR _) fun _ _ ↦ hR.pure trivial
    · exact hR.failWith _

omit hev in
theorem makeLambda_meets (args : List Token) :
    Meets R True gaps (fun _ ↦ True) (SpecialForm.makeLambda id args) :=
  hR.bind (takeParams_meets hR id args) fun _ _ ↦ hR.bind (derive_meets hR id) fun _ _ ↦
    hR.bind hR.freshRef fun _ _ ↦ hR.pure trivial

omit hev in
/-- The scope that gets the new binding is one that was not there before. -/
theorem captured_meets (name : String) (make : ScopeId → Ref → Token) :
    Meets R True gaps (fun _ ↦ True) (SpecialForm.captured id name make) := by
  intro w
  refine ⟨?_, trivial⟩
  set s := (w.scope id).push name (make w.scopes.size w.nextRef) with hs
  have hafter : (SpecialForm.captured id name make).after w =
      { w with scopes := w.scopes.push s, nextRef := w.nextRef + 1 } := by
    have hmodify : (w.scopes.push (w.scope id)).modify w.scopes.size
        (fun s ↦ s.push name (make w.scopes.size w.nextRef)) = w.scopes.push s := by
      refine Array.ext (by simp) fun i hi hi' ↦ ?_
      rw [Array.getElem_modify, Array.getElem_push, Array.getElem_push]
      have hlt : i < w.scopes.size + 1 := by simpa using hi'
      by_cases hlast : i < w.scopes.size
      · simp [hlast, Nat.ne_of_gt hlast]
      · have heq : i = w.scopes.size := by omega
        simp [heq, hs]
    rw [← hmodify]
    rfl
  rw [hafter]
  exact hR.trans _ _ _ (hR.derive w s) (hR.refs _ _ (Nat.le_succ _))

theorem bindRecursive_meets (make : String → ScopeId → List String → List Token → Ref → Value)
    (args : List Token) :
    Meets R True gaps (fun _ ↦ True) (SpecialForm.bindRecursive ev fuel id make args) :=
  hR.bind (takeName_meets hR hev fuel id args) fun _ _ ↦
    hR.bind (takeParams_meets hR id _) fun _ _ ↦
      hR.bind (captured_meets hR id _ _) fun t _ ↦
        hR.bind (bind_meets hR id _ t) fun _ _ ↦ hR.pure trivial

theorem makeMutant_meets (args : List Token) :
    Meets R True gaps (fun _ ↦ True) (SpecialForm.makeMutant ev fuel id args) :=
  hR.bind (takeName_meets hR hev fuel id args) fun _ _ ↦ hR.bind (derive_meets hR id) fun _ _ ↦
    hR.bind hR.freshRef fun _ _ ↦ hR.bind (bind_meets hR id _ _) fun _ _ ↦ hR.pure trivial

/-- One case for each special form, from the contracts of the pieces it is put together from. -/
theorem special_meets (form : SpecialForm) (args : List Token) :
    Meets R True gaps (fun _ ↦ True) (form.expand ev fuel id args) := by
  unfold SpecialForm.expand
  cases form with
  | define =>
    exact hR.bind (takeBinding_meets hR hev fuel id args) fun _ _ ↦
      hR.bind (bind_meets hR id _ _) fun _ _ ↦ hR.pure trivial
  | assign =>
    exact hR.bind (takeBinding_meets hR hev fuel id args) fun _ _ ↦
      hR.bind (rebind_meets hR id _ _) fun _ _ ↦ hR.pure trivial
  | increment => exact adjust_meets hR hev fuel id .add args
  | decrement => exact adjust_meets hR hev fuel id .sub args
  | choose => exact branch_meets hR hev id args
  | and => exact untilTruth_meets hR hev id false _ _ args
  | or => exact untilTruth_meets hR hev id true _ _ args
  | loop =>
    dsimp only
    split_ifs
    · exact hR.failWith _
    · exact hR.bind (cut_meets hR id args) fun _ _ ↦ whileLoop_meets hR hev fuel id _ _ fuel []
  | times =>
    refine hR.bind (next_meets hR hev id args) fun answer hanswer ↦ ?_
    rcases answer with ⟨_ | t, body⟩
    · exact hR.failWith _
    · exact hR.bind (payload_meets hR (hanswer t rfl)) fun _ _ ↦
        repeatLoop_meets hR hev fuel id body _ []
  | lambda => exact makeLambda_meets hR id args
  | defineFunction => exact bindRecursive_meets hR hev fuel id _ args
  | defineExpander => exact bindRecursive_meets hR hev fuel id _ args
  | defineMutant => exact makeMutant_meets hR hev fuel id args

omit hev

/-! ### Methods -/

/-- A draw changes the generator and nothing else of the world. -/
theorem ofRng_meets (name : String) (args : List Token) :
    Meets R True gaps (fun _ ↦ True) (Method.ofRng fuel name args) := by
  have hset : ∀ g : Generator,
      Meets R True gaps (fun _ ↦ True) (modify fun w ↦ { w with generator := g }) :=
    fun g w ↦ ⟨hR.generator w g, trivial⟩
  unfold Method.ofRng
  split
  · dsimp only
    split_ifs
    · exact hR.pure trivial
    · refine hR.bind (P := fun _ ↦ True) (fun w ↦ ⟨hR.refl w, trivial⟩) fun w _ ↦ ?_
      split
      · exact hR.bind (hset _) fun _ _ ↦ hR.pure trivial
      · exact hR.throw trivial
  · dsimp only
    split_ifs <;> exact hR.bind hR.draw fun _ _ ↦ hR.pure trivial
  · dsimp only
    split_ifs <;> exact hR.bind hR.draw fun _ _ ↦ hR.pure trivial
  · exact hR.bind hR.draw fun _ _ ↦ hR.bind (hR.numberToken _) fun _ _ ↦ hR.pure trivial
  · exact hR.bind hR.draw fun _ _ ↦ hR.pure trivial
  · exact hR.bind (hset _) fun _ _ ↦ hR.pure trivial
  · exact hR.throw trivial

theorem float_meets (x : Float) : Meets R True gaps (fun _ ↦ True) (Method.float x) :=
  hR.bind (hR.numberToken _) fun _ _ ↦ hR.pure trivial

theorem ofMath_meets (name : String) {args : List Token} (hargs : Valued gaps args) :
    Meets R True gaps (fun _ ↦ True) (Method.ofMath name args) := by
  unfold Method.ofMath
  split
  · exact float_meets hR _
  · split
    · split
      · exact hR.pure trivial
      · exact hR.pure trivial
      · exact float_meets hR _
    · split
      · split
        · exact hR.pure trivial
        · exact hR.bind (hR.ofExcept (answers_best _ hargs)) fun _ _ ↦ hR.pure trivial
      · split
        · exact float_meets hR _
        · exact float_meets hR _
        · exact float_meets hR _
        · exact hR.throw trivial

include hev in
theorem method_meets (receiver : Value) (name : String) {args : List Token}
    (hargs : Valued gaps args) :
    Meets R True gaps (fun _ ↦ True) (Method.call ev fuel id receiver name args) := by
  unfold Method.call
  split
  · exact hR.ofExcept (answers_ofItems _ _ _ _)
  · exact hR.ofExcept (answers_ofItems _ _ _ _)
  · exact hR.ofExcept (answers_ofEntries _ _ hargs)
  · exact hR.ofExcept (answers_ofMembers _ _ hargs)
  · exact hR.ofExcept (answers_ofText _ _ _)
  · exact ofRng_meets hR fuel name args
  · exact ofMath_meets hR name hargs
  · exact host_meets hR hev fuel id fun h ↦ h.method _ name args
  · exact hR.pure trivial

/-! ### Functions -/

theorem concatenation_meets {args : List Token} (hargs : Valued gaps args) :
    Meets R True gaps (fun _ ↦ True) (Callable.concatenation args) :=
  hR.bind (hR.ofExcept (answers_displays hargs)) fun _ _ ↦ hR.pure trivial

/-- Arithmetic lacks a value only where one of its arguments does. -/
theorem callArith_meets (op : ArithOp) {args : List Token} (hargs : Valued gaps args) :
    Meets R True gaps (fun _ ↦ True) (Callable.callArith id op args) := by
  have hstarts : Answers gaps (Callable.startsWithString args) := by
    cases args with
    | nil => exact Answers.ok false
    | cons t args =>
      refine (answers_payload hargs.head).bind fun v ↦ ?_
      split <;> exact Answers.ok _
  have hrest : ∀ joins, Meets R True gaps (fun _ ↦ True) (if joins = true then
      Callable.concatenation args else do
        let n ← EvalM.ofExcept (op.fold (← EvalM.scope id).strict args)
        return some (← EvalM.numberToken n)) := by
    intro joins
    split_ifs
    · exact concatenation_meets hR hargs
    · exact hR.bind (hR.scope id) fun s _ ↦
        hR.bind (hR.ofExcept (answers_fold s.strict op hargs)) fun n _ ↦
          hR.bind (hR.numberToken n) fun _ _ ↦ hR.pure trivial
  unfold Callable.callArith
  dsimp only
  split_ifs
  · exact hR.bind (hR.ofExcept hstarts) fun joins _ ↦ hrest joins
  · exact hR.bind (hR.pure (P := fun _ ↦ True) trivial) fun joins _ ↦ hrest joins

theorem printLine_meets (ending : String) {args : List Token} (hargs : Valued gaps args) :
    Meets R True gaps (fun _ ↦ True) (Callable.printLine ending args) :=
  hR.bind (hR.ofExcept (answers_displays hargs)) fun _ _ ↦
    hR.bind (hR.write _) fun _ _ ↦ hR.pure trivial

theorem callPrimitive_meets (p : Primitive) {args : List Token} (hargs : Valued gaps args) :
    Meets R True gaps (fun _ ↦ True) (Callable.callPrimitive p args) := by
  unfold Callable.callPrimitive
  split
  · exact hR.pure trivial
  · exact hR.bind (hR.ofExcept (answers_payload hargs.head)) fun _ _ ↦ hR.pure trivial
  · exact concatenation_meets hR hargs
  · exact printLine_meets hR "" hargs
  · exact printLine_meets hR "\n" hargs
  · exact hR.pure trivial
  · exact hR.bind (hR.ofExcept (answers_payload hargs.head)) fun _ _ ↦ hR.pure trivial

include hev

/-- A body that runs in a scope and pops the parameters however it ends. -/
def Evaluator.calling {β : Type} (ev : Evaluator) (fuel : Nat) (scope : ScopeId)
    (params : List String) (body : List Token) (f : List Token → β) : EvalM β := do
  let out ← EvalM.ensuring (ev.reduce fuel scope body) fun w ↦
    w.modifyScope scope fun s ↦ s.unbindParams params
  return f out

omit hR hev in
theorem after_calling {β : Type} (scope : ScopeId) (params : List String) (body : List Token)
    (f : List Token → β) (w : World) : (ev.calling fuel scope params body f).after w =
      ((ev.reduce fuel scope body).after w).modifyScope scope fun s ↦
        s.popAll (params ++ [Scope.leftoverName]) := by
  have hpop : (fun s : Scope ↦ s.unbindParams params) =
      fun s ↦ s.popAll (params ++ [Scope.leftoverName]) :=
    funext fun s ↦ Scope.unbindParams_eq s params
  simp only [Evaluator.calling, hpop, EvalM.after_bind, EvalM.outcome_ensuring,
    EvalM.after_ensuring]
  cases (ev.reduce fuel scope body).outcome w <;> rfl

/-- Assumes: the parameters, and the rest name, are bound in the scope of the body. -/
theorem calling_meets (scope : ScopeId) (body : List Token) (bindings : List (String × Token))
    {w : World} {n : Nat} (hn : w.nextRef ≤ n) {params : List String}
    (hnames : bindings.map Prod.fst = params ++ [Scope.leftoverName]) {β : Type}
    (f : List Token → β) :
    let bound := ({ w with nextRef := n } : World).modifyScope scope fun s ↦ s.pushAll bindings
    R w ((ev.calling fuel scope params body f).after bound) ∧
      match (ev.calling fuel scope params body f).outcome bound with
      | .ok _ => True
      | .error stop => stop.Allowed True gaps := by
  intro bound
  have hreduce : Meets R True gaps (fun _ ↦ True) (ev.reduce fuel scope body) :=
    reduce_meets hR hev fuel scope body
  obtain ⟨hbody, hend⟩ := hreduce bound
  have hcall := hR.call w _ scope bindings n hn hbody
  rw [hnames] at hcall
  rw [after_calling]
  refine ⟨hcall, ?_⟩
  simp only [Evaluator.calling, EvalM.outcome_bind, EvalM.outcome_ensuring]
  cases hout : (ev.reduce fuel scope body).outcome bound with
  | ok out => trivial
  | error stop =>
    rw [hout] at hend
    exact hend

theorem callClosure_meets (f : Callable) (scope : ScopeId) (params : List String)
    (body args : List Token) :
    Meets R True gaps (fun _ ↦ True) (Callable.callClosure ev fuel f scope params body args) := by
  obtain ⟨bindings, hnames, hbind⟩ := Scope.exists_bindParams params args
  have hpush : (fun s : Scope ↦ s.bindParams params args) = fun s ↦ s.pushAll bindings :=
    funext hbind
  refine hR.bind (hR.scope scope) fun s _ ↦ ?_
  dsimp only
  rw [hpush]
  have hrun : Meets R True gaps (fun _ ↦ True) (do
      EvalM.modifyScope scope fun s ↦ s.pushAll bindings
      ev.calling fuel scope params body List.getLast?) := fun w ↦
    calling_meets hR hev fuel scope body bindings (le_refl w.nextRef) hnames List.getLast?
  split_ifs
  · exact hR.bind (hR.failWith (P := fun _ ↦ True) _) fun _ _ ↦ hrun
  · exact hrun

theorem function_meets (f : Callable) {args : List Token} (hargs : Valued gaps args) :
    Meets R True gaps (fun _ ↦ True) (f.apply ev fuel id args) := by
  unfold Callable.apply
  split
  · exact callArith_meets hR id _ hargs
  · exact hR.bind (hR.ofExcept (answers_test _ hargs)) fun _ _ ↦ hR.pure trivial
  · exact callPrimitive_meets hR _ hargs
  · exact callClosure_meets hR hev fuel _ _ _ _ args
  · exact host_meets hR hev fuel id fun h ↦ h.function _ args
  · exact hR.pure trivial

/-! ### Expanders -/

omit hev hR in
theorem boundTo_run (caller : ScopeId) (form : List Token) (w : World) :
    ∃ t n, w.nextRef ≤ n ∧ (Expander.boundTo caller form).outcome w = .ok t ∧
      (Expander.boundTo caller form).after w = { w with nextRef := n } := by
  unfold Expander.boundTo
  split
  · split_ifs
    · exact ⟨_, w.nextRef, le_refl _, rfl, rfl⟩
    · exact ⟨_, w.nextRef, le_refl _, rfl, rfl⟩
  · exact ⟨_, w.nextRef + 1, Nat.le_succ _, rfl, rfl⟩

/-- A computation that shadows names in a scope and takes reference numbers. -/
def Expander.Binds (scope : ScopeId) (names : List String) (x : EvalM Unit) (w : World) : Prop :=
  ∃ (bindings : List (String × Token)) (n : Nat),
    bindings.map Prod.fst = names ∧ w.nextRef ≤ n ∧ x.outcome w = .ok () ∧
      x.after w = ({ w with nextRef := n } : World).modifyScope scope fun s ↦ s.pushAll bindings

omit hev hR in
theorem Expander.Binds.cons {scope : ScopeId} {name : String} {names : List String}
    {x y : EvalM Unit} {w : World} {t : Token} {n : Nat} (hn : w.nextRef ≤ n)
    (h : Binds scope names x
      (({ w with nextRef := n } : World).modifyScope scope fun s ↦ s.push name t))
    (hout : y.outcome w = x.outcome
      (({ w with nextRef := n } : World).modifyScope scope fun s ↦ s.push name t))
    (hafter : y.after w = x.after
      (({ w with nextRef := n } : World).modifyScope scope fun s ↦ s.push name t)) :
    Binds scope (name :: names) y w := by
  obtain ⟨bindings, m, hnames, hm, hxout, hxafter⟩ := h
  refine ⟨(name, t) :: bindings, m, by simp [hnames], hn.trans hm, hout.trans hxout, ?_⟩
  rw [hafter, hxafter]
  simp only [World.modifyScope, World.mk.injEq, and_true]
  refine Array.ext (by simp) fun i hi hi' ↦ ?_
  simp only [Array.getElem_modify]
  split_ifs <;> rfl

omit hev hR in
/-- Binding the parameters of an expander shadows them, and the rest name, in its scope. -/
theorem bindAll_run (caller scope : ScopeId) (params : List String) (forms : List (List Token))
    (w : World) : Expander.Binds scope (params ++ [Scope.leftoverName])
      (Expander.bindAll caller scope params forms) w := by
  induction params generalizing forms w with
  | nil => exact ⟨[(Scope.leftoverName, _)], w.nextRef + 1, rfl, Nat.le_succ _, rfl, rfl⟩
  | cons name params ih =>
    cases forms with
    | nil => exact Expander.Binds.cons (t := .null) (le_refl w.nextRef) (ih [] _) rfl rfl
    | cons form forms =>
      obtain ⟨t, n, hn, hout, hafter⟩ := boundTo_run caller form w
      refine Expander.Binds.cons (t := t) hn (ih forms _) ?_ ?_
      · rw [Expander.bindAll, EvalM.outcome_bind, hout, hafter]
        rfl
      · rw [Expander.bindAll, EvalM.after_bind, hout, hafter]
        rfl

theorem expandTemplate_meets (m : Expander) (caller scope : ScopeId) (params : List String)
    (body args : List Token) : Meets R True gaps (fun _ ↦ True)
      (Expander.expandTemplate ev fuel m caller scope params body args) := by
  refine hR.bind (cutAll_meets hR caller args) fun forms _ ↦ hR.bind (hR.scope scope) fun s _ ↦ ?_
  have hrun : Meets R True gaps (fun _ ↦ True) (do
      Expander.bindAll caller scope params forms
      ev.calling fuel scope params body splicedLast) := by
    intro w
    obtain ⟨bindings, n, hnames, hn, hout, hafter⟩ := bindAll_run caller scope params forms w
    rw [EvalM.after_bind, EvalM.outcome_bind, hout, hafter]
    exact calling_meets hR hev fuel scope body bindings hn hnames splicedLast
  dsimp only
  split_ifs
  · exact hR.bind (hR.failWith (P := fun _ ↦ True) _) fun _ _ ↦ hrun
  · exact hrun

theorem expander_meets (m : Expander) (args : List Token) :
    Meets R True gaps (fun _ ↦ True) (m.expand ev fuel id args) := by
  unfold Expander.expand
  split
  · exact special_meets hR hev fuel id _ args
  · exact expandTemplate_meets hR hev fuel _ id _ _ _ args
  · exact host_meets hR hev fuel id fun h ↦ h.expander _ args

/-! ### Calls -/

omit hev in
theorem refuse_meets (callee : Token) :
    Meets R True gaps (fun _ ↦ True) (Evaluator.refuse id callee) := by
  refine hR.bind (hR.scope id) fun s _ ↦ ?_
  split_ifs
  · exact hR.failWith _
  · exact hR.pure trivial

theorem callMethod_meets {callee first : Token} {rest : List Token}
    (h : Valued gaps (callee :: first :: rest)) :
    Meets R True gaps (fun _ ↦ True) (ev.callMethod fuel id callee first rest) := by
  refine hR.bind (hR.ofExcept (answers_payload h.head)) fun receiver _ ↦ ?_
  split_ifs
  · split
    · exact hR.bind (method_meets hR hev fuel id receiver _ h.tail.tail) fun _ _ ↦ hR.pure trivial
    · exact refuse_meets hR id callee
  · exact refuse_meets hR id callee

theorem call_meets {callee : Token} {args : List Token} (h : Valued gaps (callee :: args)) :
    Meets R True gaps (fun _ ↦ True) (ev.call fuel id callee args) := by
  unfold Evaluator.call
  split
  · exact hR.bind (function_meets hR hev fuel id _ h.tail) fun _ _ ↦ hR.pure trivial
  · exact expander_meets hR hev fuel id _ args
  · exact hR.pure trivial
  · exact callMethod_meets hR hev fuel id h

/-! ### Regions -/

omit hev in
theorem asWritten_meets (callee : Token) (args : List Token) : Meets R True gaps
    (fun written ↦ callee.kind ≠ .expander → ∀ t ∈ written, t.value?.isSome = true)
    (Varying.asWritten id callee args) := by
  unfold Varying.asWritten
  split_ifs with hkind
  · exact hR.pure fun h ↦ absurd (beq_iff_eq.mp hkind) h
  · refine hR.bind (cutAll_meets hR id args) fun forms hforms ↦ hR.pure fun _ t ht ↦ ?_
    obtain ⟨isMarker, hsplit⟩ := hforms
    obtain ⟨form, hform, rfl⟩ := List.mem_map.mp ht
    exact Form.value?_quote_of_mem_splitAll hsplit hform

theorem applyQuotedCall_meets (inside : List Token) :
    Meets R True gaps (fun _ ↦ True) (Varying.applyQuotedCall ev fuel id inside) := by
  cases inside with
  | nil => exact hR.pure trivial
  | cons t rest =>
    refine hR.bind (next_meets hR hev id (t :: rest)) fun answer hanswer ↦ ?_
    rcases answer with ⟨_ | callee, args⟩
    · exact hR.pure trivial
    · refine hR.bind (asWritten_meets hR id callee args) fun written hwritten ↦ ?_
      by_cases hkind : callee.kind = .expander
      · unfold Token.kind at hkind
        split at hkind <;> first | exact absurd hkind (by decide) | skip
        exact expander_meets hR hev fuel id _ written
      · refine call_meets hR hev fuel id (.inl fun u hu ↦ ?_)
        rcases List.mem_cons.mp hu with rfl | hu
        · exact hanswer u rfl
        · exact hwritten hkind u hu

/-- A varying that lacks no value in its region. -/
theorem varying_meets (v : Varying) (r : Region) (h : ¬ v.Lacks r.inside ∨ gaps) :
    Meets R True gaps (fun _ ↦ True) (v.apply ev fuel id r) := by
  have hvalued : (v = .call ∨ v = .set) → Valued gaps r.inside := by
    rintro (rfl | rfl) <;> refine h.imp_left fun hlacks t ht ↦ ?_ <;> by_contra hnone <;>
      exact hlacks ⟨t, ht, Option.not_isSome_iff_eq_none.mp hnone⟩
  cases v with
  | call =>
    unfold Varying.apply Varying.applyCall
    dsimp only
    split
    · exact hR.pure trivial
    · rename_i callee args hinside
      exact call_meets hR hev fuel id (hinside ▸ hvalued (.inl rfl))
  | quotedCall => exact applyQuotedCall_meets hR hev fuel id r.inside
  | list => exact hR.pure trivial
  | map =>
    have hkeys : Valued gaps (Token.keysIn r.inside) := by
      refine h.imp_left fun hlacks t ht ↦ ?_
      by_contra hnone
      exact hlacks ⟨t, ht, Option.not_isSome_iff_eq_none.mp hnone⟩
    exact hR.bind (hR.ofExcept (answers_putAll [] hkeys)) fun _ _ ↦ hR.pure trivial
  | set =>
    exact hR.bind (hR.ofExcept (answers_addMembers [] (hvalued (.inr rfl)))) fun _ _ ↦
      hR.pure trivial
  | infixForm =>
    refine hR.bind (hR.scope id) fun s _ ↦ hR.bind (hR.ofFailure _) fun tree _ ↦ ?_
    cases tree <;> exact hR.pure trivial
  | sym =>
    unfold Varying.apply Varying.applySym
    dsimp only
    split_ifs
    · exact hR.pure trivial
    · exact hR.fail _
  | host key => exact host_meets hR hev fuel id fun h ↦ h.varying key r

/-- Closing a region comes upon a gap only when the region was left as written. -/
theorem close_meets (opening : Token) (inside : List Token)
    (h : opening.quotes = false → ∀ t ∈ inside, t.value?.isSome = true) :
    Meets R True False (fun _ ↦ True) (ev.close fuel id opening inside) := by
  refine hR.bind (hR.scope id) fun s _ ↦ ?_
  split
  · rename_i v _
    have happly : Meets R True (v.Lacks inside) (fun _ ↦ True)
        (v.apply ev fuel id (.bracketed opening inside)) :=
      varying_meets hR hev fuel id v _ (Classical.em _).symm
    refine hR.blaming opening (happly.locating fun hlacks ↦ ⟨?_, hlacks⟩)
    by_contra hquotes
    have hvalues := h (Bool.eq_false_iff.mpr hquotes)
    have hsome : ∀ t ∈ inside, t.value? ≠ none := fun t ht ↦
      Option.isSome_iff_ne_none.mp (hvalues t ht)
    cases v <;> first
      | exact hlacks
      | (obtain ⟨t, ht, hnone⟩ := hlacks; exact hsome t ht hnone)
      | (obtain ⟨t, ht, hnone⟩ := hlacks; exact hsome t (mem_of_mem_keysIn ht) hnone)
  · exact hR.pure trivial

theorem closeLiteral_meets (t : Token) :
    Meets R True gaps (fun _ ↦ True) (ev.closeLiteral fuel id t) := by
  refine hR.bind (hR.scope id) fun s _ ↦ ?_
  split
  · rename_i v _
    refine varying_meets hR hev fuel id v (.single t) (.inl ?_)
    cases v <;> simp [Varying.Lacks, Region.inside, Token.keysIn]
  · exact hR.pure trivial

omit hev in
theorem resolve_meets (t : Token) :
    Meets R True gaps (fun _ ↦ True) (Evaluator.resolve id t) := by
  refine hR.bind (hR.scope id) fun s _ ↦ ?_
  split
  · exact hR.pure trivial
  · split_ifs
    · exact hR.fail _
    · exact hR.pure trivial

theorem act_meets (t : Token) (after : List Token) :
    Meets R True gaps (fun _ ↦ True) (ev.act fuel id t after) := by
  unfold Evaluator.act
  split
  · exact envoy_meets hR hev fuel id _ after
  · exact hR.bind (closeLiteral_meets hR hev fuel id _) fun _ _ ↦ hR.pure trivial
  · exact hR.bind (resolve_meets hR id _) fun _ _ ↦ hR.pure trivial

end Parts

/-! ### The scan -/

namespace Scan

/-- Between the brackets that do not quote, all tokens that were passed have values. -/
def Tidy (s : Scan) : Prop :=
  ∀ f ∈ s.frames, f.opening.quotes = false → ∀ t ∈ f.passed, t.value?.isSome = true

theorem tidy_start (tokens : List Token) : (start tokens).Tidy := fun _ hf ↦
  absurd hf List.not_mem_nil

/-- A scan that goes on is tidy, and one that is over has a value if it has a token. -/
def Progress.Fine : Progress → Prop
  | .more s => s.Tidy
  | .over r => r.HasValue

theorem fine_openFrame {s : Scan} (hs : s.Tidy) (t : Token) (rest : List Token) :
    (openFrame t rest s.frames).Fine := by
  unfold openFrame
  split_ifs with hquotes
  · intro f hf hnot
    rcases List.mem_cons.mp hf with rfl | hf
    · rw [Frame.opening_passQuoted, hquotes] at hnot
      exact absurd hnot (by decide)
    · exact hs f hf hnot
  · intro f hf hnot
    rcases List.mem_cons.mp hf with rfl | hf
    · exact fun t ht ↦ absurd ht List.not_mem_nil
    · exact hs f hf hnot

theorem fine_pass {s : Scan} (hs : s.Tidy) {t : Token} (ht : t.isComplete = true)
    (rest : List Token) : (pass t rest s.frames).Fine := by
  obtain ⟨frames, _, _⟩ := s
  cases frames with
  | nil => exact Token.value?_of_isComplete ht
  | cons f frames =>
    intro g hg hnot
    rcases List.mem_cons.mp hg with rfl | hg
    · intro u hu
      rcases List.mem_cons.mp hu with rfl | hu
      · exact Token.value?_of_isComplete ht
      · exact hs f (List.mem_cons_self ..) hnot u hu
    · exact hs g (List.mem_cons_of_mem f hg) hnot

section Run

variable {R : World → World → Prop} (hR : World.Admits R)
include hR

theorem giveUp_meets (s : Scan) (f : Failure) :
    Meets R False False Progress.Fine (s.giveUp f) := hR.pure trivial

variable {ev : Evaluator} (hev : ev.Reliable R) (fuel : Nat) (id : ScopeId) {s : Scan}
include hev

theorem closeFrame_meets (hs : s.Tidy) (t : Token) (rest : List Token) :
    Meets R False False Progress.Fine (s.closeFrame ev fuel id t rest) := by
  unfold closeFrame
  split
  · exact giveUp_meets hR s _
  · rename_i f frames hframes
    split_ifs
    · exact giveUp_meets hR s _
    · have hf : f ∈ s.frames := by simp [hframes]
      have hclose := close_meets hR hev fuel id f.opening f.passed.reverse fun hnot t ht ↦
        hs f hf hnot t (List.mem_reverse.mp ht)
      refine hR.bind hclose.attempt fun answer _ ↦ ?_
      cases answer with
      | ok placed =>
        refine hR.pure fun g hg ↦ hs g ?_
        rw [hframes]
        exact List.mem_cons_of_mem f hg
      | error failure => exact giveUp_meets hR s failure

theorem resolveFront_meets (hs : s.Tidy) (t : Token) (rest : List Token) :
    Meets R False False Progress.Fine (s.resolveFront ev fuel id t rest) := by
  refine hR.bind (hR.scope id) fun scope _ ↦ ?_
  split_ifs
  · exact giveUp_meets hR s _
  · refine hR.bind (act_meets hR hev fuel id t rest).attempt fun answer _ ↦ ?_
    rcases answer with failure | ⟨placed, after⟩
    · exact giveUp_meets hR s failure
    · exact hR.pure hs

/-- One step. -/
theorem advance_meets (hs : s.Tidy) :
    Meets R False False Progress.Fine (s.advance ev fuel id) := by
  unfold advance
  split
  · unfold finish
    split
    · exact hR.pure trivial
    · exact giveUp_meets hR s _
  · rename_i t rest _
    split_ifs with hdelimiter hcloses hcomplete
    · exact closeFrame_meets hR hev fuel id hs t rest
    · exact hR.pure (fine_openFrame hs t rest)
    · exact hR.pure (fine_pass hs hcomplete rest)
    · exact resolveFront_meets hR hev fuel id hs t rest

omit hev in
/-- A whole scan, whatever its bound on the steps. -/
theorem run_meets (bound : Nat) (id : ScopeId) {s : Scan} (hs : s.Tidy) :
    Meets R False False Reduction.HasValue (run bound id s) := by
  induction bound generalizing id s with
  | zero => exact hR.throw trivial
  | succ bound ih =>
    have hev : Evaluator.Reliable R fun scope tokens ↦ run bound scope (start tokens) :=
      fun scope tokens ↦ ih scope (tidy_start tokens)
    refine hR.bind (advance_meets hR hev bound id hs) fun progress hprogress ↦ ?_
    rcases progress with s | r
    · exact ih id hprogress
    · exact hR.pure hprogress

end Run

end Scan

/-- The evaluator of a program, within any bound on the steps. -/
theorem reliable_stepWithin {R : World → World → Prop} (hR : World.Admits R) (bound : Nat) :
    (Program.stepWithin bound).Reliable R :=
  fun id tokens ↦ Scan.run_meets hR bound id (Scan.tidy_start tokens)

end TokenLang

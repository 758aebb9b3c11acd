import TokenLang.Proofs.Eval.Contract

/-!
The bound on the steps is only a bound. `EvalM.Extends` says of two computations that the second
does as the first does, unless the first runs out of steps. Each part of an evaluation, given a
larger bound and an evaluator that extends the one it had, extends itself; so a scan extends the
scan with a smaller bound (`Scan.run_extends`), and an evaluation that ended with some bound ends in
the same way with every larger one (`Program.evaluateWithin_of_le`).
-/

set_option autoImplicit false
set_option relaxedAutoImplicit false

namespace TokenLang

namespace EvalM

variable {α β : Type}

/-- The second computation does as the first, unless the first runs out of steps. -/
def Extends (x y : EvalM α) : Prop :=
  ∀ w, x.outcome w = .error .exhausted ∨ y.run.run w = x.run.run w

namespace Extends

variable {x y : EvalM α}

theorem refl (x : EvalM α) : Extends x x := fun _ ↦ .inr rfl

theorem exhausted (y : EvalM α) : Extends (throw .exhausted) y := fun _ ↦ .inl rfl

theorem bind {f g : α → EvalM β} (hxy : Extends x y) (hfg : ∀ a, Extends (f a) (g a)) :
    Extends (x >>= f) (y >>= g) := by
  intro w
  rcases hxy w with h | h
  · left
    rw [outcome_bind, h]
  · have houtcome : y.outcome w = x.outcome w := congrArg Prod.fst h
    have hafter : y.after w = x.after w := congrArg Prod.snd h
    rw [outcome_bind, run_bind, run_bind, houtcome, hafter]
    cases x.outcome w with
    | ok a => exact hfg a (x.after w)
    | error stop => exact .inr rfl

/-- What follows a computation that is the same in both. -/
theorem after (x : EvalM α) {f g : α → EvalM β} (hfg : ∀ a, Extends (f a) (g a)) :
    Extends (x >>= f) (x >>= g) := (refl x).bind hfg

theorem attempt (h : Extends x y) : Extends (attempt x) (attempt y) := by
  intro w
  rcases h w with h | h
  · left
    rw [outcome_attempt, h]
  · right
    have houtcome : y.outcome w = x.outcome w := congrArg Prod.fst h
    have hafter : y.after w = x.after w := congrArg Prod.snd h
    unfold EvalM.attempt
    rw [run_mk_bind, run_mk_bind, houtcome, hafter]

theorem locating (gap : Gap) (h : Extends x y) : Extends (locating gap x) (locating gap y) := by
  intro w
  rcases h w with h | h
  · left
    rw [outcome_locating, h]
  · right
    have houtcome : y.outcome w = x.outcome w := congrArg Prod.fst h
    have hafter : y.after w = x.after w := congrArg Prod.snd h
    unfold EvalM.locating
    rw [run_mk_bind, run_mk_bind, houtcome, hafter]

theorem ensuring (f : World → World) (h : Extends x y) :
    Extends (ensuring x f) (ensuring y f) := by
  intro w
  rcases h w with h | h
  · left
    rw [outcome_ensuring, h]
  · right
    have houtcome : y.outcome w = x.outcome w := congrArg Prod.fst h
    have hafter : y.after w = x.after w := congrArg Prod.snd h
    exact Prod.ext houtcome (congrArg f hafter)

theorem blaming (t : Token) (h : Extends x y) : Extends (blaming t x) (blaming t y) :=
  h.attempt.bind fun _ ↦ refl _

end Extends

end EvalM

open EvalM (Extends)

/-- The second evaluator does as the first, unless the first runs out of steps. -/
def Evaluator.Extends (ev ev' : Evaluator) : Prop :=
  ∀ id tokens, EvalM.Extends (ev id tokens) (ev' id tokens)

/-- A draw that was found with fewer trials is found with more. -/
theorem Draws.reject_of_le {σ : Type} (d : Draws σ) {bound : UInt64} {fuel fuel' : Nat}
    (hfuel : fuel ≤ fuel') {g : σ} {answer : UInt64 × σ}
    (h : d.reject bound fuel g = some answer) : d.reject bound fuel' g = some answer := by
  induction fuel generalizing fuel' g with
  | zero => cases h
  | succ fuel ih =>
    obtain ⟨more, rfl⟩ := Nat.exists_eq_succ_of_ne_zero (show fuel' ≠ 0 by omega)
    rw [reject] at h ⊢
    rcases hnext : d.bits g with ⟨bits, g'⟩
    rw [hnext] at h
    dsimp only at h ⊢
    split_ifs at h ⊢
    · exact h
    · exact ih (by omega) h

theorem Generator.between_of_le {fuel fuel' : Nat} (hfuel : fuel ≤ fuel') {g : Generator}
    {lo hi : Int64} {answer : Int64 × Generator} (h : g.between fuel lo hi = some answer) :
    g.between fuel' lo hi = some answer := by
  unfold between Draws.between at h ⊢
  dsimp only at h ⊢
  split_ifs at h ⊢
  · exact h
  · obtain ⟨drawn, hdrawn, rfl⟩ := Option.map_eq_some_iff.mp h
    rw [draws.reject_of_le hfuel hdrawn]
    rfl

section Parts

variable {ev ev' : Evaluator} (hev : ev.Extends ev') {fuel fuel' : Nat} (hfuel : fuel ≤ fuel')
  (id : ScopeId)

/-! ### Forms and rounds of evaluation -/

section Rounds

include hev

theorem next_extends (args : List Token) : Extends (ev.next id args) (ev'.next id args) := by
  cases args with
  | nil => exact .refl _
  | cons t args => exact .after _ fun answer ↦ (hev id answer.1).bind fun r ↦ .refl _

theorem collect_extends {rounds rounds' : Nat} (hrounds : rounds ≤ rounds')
    (done tokens : List Token) :
    Extends (ev.collect id rounds done tokens) (ev'.collect id rounds' done tokens) := by
  induction rounds generalizing rounds' done tokens with
  | zero => exact .exhausted _
  | succ rounds ih =>
    obtain ⟨more, rfl⟩ := Nat.exists_eq_succ_of_ne_zero (show rounds' ≠ 0 by omega)
    refine (hev id tokens).bind fun r ↦ ?_
    cases r with
    | value t rest => exact ih (by omega) (t :: done) rest
    | nothing => exact .refl _
    | failed f left => exact .refl _

theorem unquoteNext_extends (t : Token) (rest : List Token) :
    Extends (Envoy.unquoteNext ev id t rest) (Envoy.unquoteNext ev' id t rest) := by
  refine .after _ fun s ↦ ?_
  split_ifs
  · exact .refl _
  · exact (next_extends hev id _).bind fun _ ↦ .refl _

theorem branch_extends (args : List Token) :
    Extends (SpecialForm.branch ev id args) (SpecialForm.branch ev' id args) := by
  refine (next_extends hev id args).bind fun answer ↦ ?_
  obtain ⟨condition, rest⟩ := answer
  cases condition with
  | none => exact .refl _
  | some condition =>
    refine .after _ fun v ↦ ?_
    dsimp only
    split_ifs
    · exact .after _ fun rest ↦ (next_extends hev id rest).bind fun _ ↦ .refl _
    · exact .after _ fun rest ↦ (next_extends hev id rest).bind fun _ ↦ .refl _

theorem untilTruth_extends (stop : Bool) (forms : Nat) (last : Token) (args : List Token) :
    Extends (SpecialForm.untilTruth ev id stop forms last args)
      (SpecialForm.untilTruth ev' id stop forms last args) := by
  induction forms generalizing last args with
  | zero => exact .refl _
  | succ forms ih =>
    refine (next_extends hev id args).bind fun answer ↦ ?_
    obtain ⟨t, rest⟩ := answer
    cases t with
    | none => exact .refl _
    | some t =>
      refine .after _ fun v ↦ ?_
      split_ifs
      · exact .refl _
      · exact ih t rest

include hfuel

theorem reduce_extends (tokens : List Token) :
    Extends (ev.reduce fuel id tokens) (ev'.reduce fuel' id tokens) :=
  (collect_extends hev id hfuel [] tokens).bind fun _ ↦ .refl _

/-- Host code, which takes its bound from the evaluations that it makes. -/
theorem code_extends {α : Type} (code : Host.Code α) :
    Extends (code.run ev fuel id) (code.run ev' fuel' id) := by
  induction code with
  | answer | fail => exact .refl _
  | look next ih => exact .after _ ih
  | fresh count next ih => exact .after _ ih
  | write text next ih | setMemory n next ih => exact .after _ fun _ ↦ ih
  | memory next ih => exact .after _ ih
  | assign name t next ih | define name t next ih => exact .after _ ih
  | evaluate apart tokens next ih =>
    exact .after _ fun scope ↦ (collect_extends hev scope hfuel [] tokens).bind fun answer ↦
      ih _ answer.2

theorem envoy_extends (e : Envoy) (rest : List Token) :
    Extends (e.apply ev fuel id rest) (e.apply ev' fuel' id rest) := by
  cases e with
  | splice tokens => cases rest <;> exact .refl _
  | host key held =>
    cases rest <;> exact (Extends.after _ fun h : Host ↦
      code_extends hev hfuel id (h.envoy key held)).bind fun _ ↦ .refl _
  | mutant name scope body =>
    cases rest <;> exact (reduce_extends hev hfuel scope body).bind fun _ ↦ .refl _
  | quote => cases rest <;> exact .refl _
  | unquote =>
    cases rest with
    | nil => exact .refl _
    | cons t rest =>
      rw [Envoy.apply, Envoy.apply]
      split_ifs
      · exact .refl _
      · exact unquoteNext_extends hev id t rest

/-! ### Special forms -/

theorem nameFrom_extends (hops : Nat) (args : List Token) :
    Extends (SpecialForm.nameFrom ev fuel id hops args)
      (SpecialForm.nameFrom ev' fuel' id hops args) := by
  induction hops generalizing args with
  | zero => cases args <;> exact .refl _
  | succ hops ih =>
    cases args with
    | nil => exact .refl _
    | cons t rest =>
      refine .after _ fun s ↦ ?_
      cases SpecialForm.pendingEnvoy? s t with
      | none => exact .refl _
      | some e => exact (envoy_extends hev hfuel id e rest).bind fun answer ↦ ih _

theorem takeName_extends (args : List Token) :
    Extends (SpecialForm.takeName ev fuel id args) (SpecialForm.takeName ev' fuel' id args) :=
  .after _ fun _ ↦ nameFrom_extends hev hfuel id _ args

theorem takeBinding_extends (args : List Token) :
    Extends (SpecialForm.takeBinding ev fuel id args)
      (SpecialForm.takeBinding ev' fuel' id args) :=
  (takeName_extends hev hfuel id args).bind fun answer ↦
    (next_extends hev id answer.2).bind fun _ ↦ .refl _

theorem adjust_extends (op : ArithOp) (args : List Token) :
    Extends (SpecialForm.adjust ev fuel id op args) (SpecialForm.adjust ev' fuel' id op args) := by
  refine (takeName_extends hev hfuel id args).bind fun answer ↦ .after _ fun s ↦ ?_
  obtain ⟨name, rest⟩ := answer
  dsimp only
  split
  · exact .after _ fun _ ↦ (next_extends hev id rest).bind fun _ ↦ .refl _
  · exact .after _ fun _ ↦ (next_extends hev id rest).bind fun _ ↦ .refl _

theorem whileLoop_extends (condition body : List Token) {rounds rounds' : Nat}
    (hrounds : rounds ≤ rounds') (done : List Token) :
    Extends (SpecialForm.whileLoop ev fuel id condition body rounds done)
      (SpecialForm.whileLoop ev' fuel' id condition body rounds' done) := by
  induction rounds generalizing rounds' done with
  | zero => exact .exhausted _
  | succ rounds ih =>
    obtain ⟨more, rfl⟩ := Nat.exists_eq_succ_of_ne_zero (show rounds' ≠ 0 by omega)
    refine (next_extends hev id condition).bind fun answer ↦ ?_
    obtain ⟨t, rest⟩ := answer
    cases t with
    | none => exact .refl _
    | some t =>
      refine .after _ fun v ↦ ?_
      split_ifs
      · exact (reduce_extends hev hfuel id body).bind fun out ↦ ih (by omega) _
      · exact .refl _

theorem repeatLoop_extends (body : List Token) (rounds : Nat) (done : List Token) :
    Extends (SpecialForm.repeatLoop ev fuel id body rounds done)
      (SpecialForm.repeatLoop ev' fuel' id body rounds done) := by
  induction rounds generalizing done with
  | zero => exact .refl _
  | succ rounds ih => exact (reduce_extends hev hfuel id body).bind fun out ↦ ih _

theorem bindRecursive_extends
    (make : String → ScopeId → List String → List Token → Ref → Value) (args : List Token) :
    Extends (SpecialForm.bindRecursive ev fuel id make args)
      (SpecialForm.bindRecursive ev' fuel' id make args) :=
  (takeName_extends hev hfuel id args).bind fun _ ↦ .refl _

/-- One case for each special form; those that go in rounds take their number from the bound,
too. -/
theorem special_extends (form : SpecialForm) (args : List Token) :
    Extends (form.expand ev fuel id args) (form.expand ev' fuel' id args) := by
  cases form with
  | define | assign => exact (takeBinding_extends hev hfuel id args).bind fun _ ↦ .refl _
  | increment | decrement => exact adjust_extends hev hfuel id _ args
  | choose => exact branch_extends hev id args
  | and | or => exact untilTruth_extends hev id _ _ _ args
  | loop =>
    unfold SpecialForm.expand
    split_ifs
    · exact .refl _
    · exact .after _ fun answer ↦ whileLoop_extends hev hfuel id answer.1 answer.2 hfuel []
  | times =>
    refine (next_extends hev id args).bind fun answer ↦ ?_
    obtain ⟨t, body⟩ := answer
    cases t with
    | none => exact .refl _
    | some t => exact .after _ fun v ↦ repeatLoop_extends hev hfuel id body _ []
  | lambda => exact .refl _
  | defineFunction | defineExpander =>
    unfold SpecialForm.expand
    exact bindRecursive_extends hev hfuel id _ args
  | defineMutant => exact (takeName_extends hev hfuel id args).bind fun _ ↦ .refl _

/-! ### Calls -/

theorem callClosure_extends (f : Callable) (params : List String) (body args : List Token) :
    Extends (Callable.callClosure ev fuel f id params body args)
      (Callable.callClosure ev' fuel' f id params body args) := by
  refine .after _ fun s ↦ ?_
  have hbody := ((reduce_extends hev hfuel id body).ensuring fun w ↦
    w.modifyScope id fun s ↦ s.unbindParams params).bind fun out ↦ .refl (pure out.getLast?)
  split_ifs
  · exact .after _ fun _ ↦ .after _ fun _ ↦ hbody
  · exact .after _ fun _ ↦ hbody

theorem function_extends (f : Callable) (args : List Token) :
    Extends (f.apply ev fuel id args) (f.apply ev' fuel' id args) := by
  unfold Callable.apply
  cases f.core with
  | closure name scope params body => exact callClosure_extends hev hfuel scope _ params body args
  | arith op => exact .refl _
  | compare op => exact .refl _
  | primitive p => exact .refl _
  | host name key => exact .after _ fun h ↦ code_extends hev hfuel id (h.function key args)
  | renamed name inner => exact .refl _

theorem expandTemplate_extends (m : Expander) (scope : ScopeId) (params : List String)
    (body args : List Token) :
    Extends (Expander.expandTemplate ev fuel m id scope params body args)
      (Expander.expandTemplate ev' fuel' m id scope params body args) := by
  refine .after _ fun forms ↦ .after _ fun s ↦ ?_
  have hbody := ((reduce_extends hev hfuel scope body).ensuring fun w ↦
    w.modifyScope scope fun s ↦ s.unbindParams params).bind fun out ↦ .refl (pure (splicedLast out))
  split_ifs
  · exact .after _ fun _ ↦ .after _ fun _ ↦ hbody
  · exact .after _ fun _ ↦ hbody

theorem expander_extends (m : Expander) (args : List Token) :
    Extends (m.expand ev fuel id args) (m.expand ev' fuel' id args) := by
  cases m with
  | special form => exact special_extends hev hfuel id form args
  | template name scope params body =>
    exact expandTemplate_extends hev hfuel id _ scope params body args
  | host key => exact .after _ fun h ↦ code_extends hev hfuel id (h.expander key args)

omit hev in
theorem ofRng_extends (name : String) (args : List Token) :
    Extends (Method.ofRng fuel name args) (Method.ofRng fuel' name args) := by
  unfold Method.ofRng
  split
  · dsimp only
    split_ifs
    · exact .refl _
    · refine .after _ fun w ↦ ?_
      split
      · next drawn hdrawn =>
        rw [Generator.between_of_le hfuel hdrawn]
        exact .refl _
      · exact .exhausted _
  all_goals exact .refl _

theorem method_extends (receiver : Value) (name : String) (args : List Token) :
    Extends (Method.call ev fuel id receiver name args)
      (Method.call ev' fuel' id receiver name args) := by
  unfold Method.call
  split
  case h_6 => exact ofRng_extends hfuel name args
  case h_8 key _ => exact .after _ fun h ↦ code_extends hev hfuel id (h.method key name args)
  all_goals exact .refl _

theorem callMethod_extends (callee first : Token) (rest : List Token) :
    Extends (ev.callMethod fuel id callee first rest)
      (ev'.callMethod fuel' id callee first rest) := by
  refine .after _ fun receiver ↦ ?_
  split_ifs
  · cases Method.name? first with
    | none => exact .refl _
    | some name => exact (method_extends hev hfuel id receiver name rest).bind fun _ ↦ .refl _
  · exact .refl _

theorem call_extends (callee : Token) (args : List Token) :
    Extends (ev.call fuel id callee args) (ev'.call fuel' id callee args) := by
  unfold Evaluator.call
  split
  · exact (function_extends hev hfuel id _ args).bind fun _ ↦ .refl _
  · exact expander_extends hev hfuel id _ args
  · exact .refl _
  · exact callMethod_extends hev hfuel id _ _ _

/-! ### Regions -/

theorem applyQuotedCall_extends (form : List Token) :
    Extends (Varying.applyQuotedCall ev fuel id form)
      (Varying.applyQuotedCall ev' fuel' id form) := by
  cases form with
  | nil => exact .refl _
  | cons t form =>
    refine (next_extends hev id _).bind fun answer ↦ ?_
    obtain ⟨callee, args⟩ := answer
    cases callee with
    | none => exact .refl _
    | some callee => exact .after _ fun args ↦ call_extends hev hfuel id callee args

theorem varying_extends (v : Varying) (r : Region) :
    Extends (v.apply ev fuel id r) (v.apply ev' fuel' id r) := by
  cases v with
  | call =>
    show Extends (Varying.applyCall ev fuel id r.inside) (Varying.applyCall ev' fuel' id r.inside)
    cases r.inside with
    | nil => exact .refl _
    | cons callee args => exact call_extends hev hfuel id callee args
  | quotedCall => exact applyQuotedCall_extends hev hfuel id r.inside
  | list | map | set | infixForm | sym => exact .refl _
  | host key => exact .after _ fun h ↦ code_extends hev hfuel id (h.varying key r)

theorem close_extends (opening : Token) (inside : List Token) :
    Extends (ev.close fuel id opening inside) (ev'.close fuel' id opening inside) := by
  refine .after _ fun s ↦ ?_
  cases (s.varying? opening.mode).or (s.varying? opening.bracket) with
  | none => exact .refl _
  | some v => exact ((varying_extends hev hfuel id v _).locating _).blaming opening

theorem closeLiteral_extends (t : Token) :
    Extends (ev.closeLiteral fuel id t) (ev'.closeLiteral fuel' id t) := by
  refine .after _ fun s ↦ ?_
  cases s.varying? t.mode with
  | none => exact .refl _
  | some v => exact varying_extends hev hfuel id v _

theorem act_extends (t : Token) (rest : List Token) :
    Extends (ev.act fuel id t rest) (ev'.act fuel' id t rest) := by
  cases t with
  | envoy e ref => exact envoy_extends hev hfuel id e rest
  | literal delimiter text mode pos =>
    exact (closeLiteral_extends hev hfuel id _).bind fun _ ↦ .refl _
  | symbol _ _ | opening _ _ _ | closing _ _ | done _ _ | varying _ _ => exact .refl _

end Rounds

end Parts

/-! ### The scan -/

namespace Scan

section Steps

variable {ev ev' : Evaluator} (hev : ev.Extends ev') {fuel fuel' : Nat} (hfuel : fuel ≤ fuel')
  (id : ScopeId) (s : Scan)

include hev hfuel

theorem closeFrame_extends (t : Token) (rest : List Token) :
    Extends (s.closeFrame ev fuel id t rest) (s.closeFrame ev' fuel' id t rest) := by
  unfold closeFrame
  split
  · exact .refl _
  · split_ifs
    · exact .refl _
    · exact (close_extends hev hfuel id _ _).attempt.bind fun _ ↦ .refl _

theorem resolveFront_extends (t : Token) (rest : List Token) :
    Extends (s.resolveFront ev fuel id t rest) (s.resolveFront ev' fuel' id t rest) := by
  refine .after _ fun c ↦ ?_
  split_ifs
  · exact .refl _
  · exact (act_extends hev hfuel id t rest).attempt.bind fun _ ↦ .refl _

/-- One step. -/
theorem advance_extends : Extends (s.advance ev fuel id) (s.advance ev' fuel' id) := by
  unfold advance
  split
  · exact .refl _
  · split_ifs
    · exact closeFrame_extends hev hfuel id s _ _
    · exact .refl _
    · exact .refl _
    · exact resolveFront_extends hev hfuel id s _ _

end Steps

/-- A run with more steps. The evaluator within a step is the run of one step less, in any scope and
on any tokens. -/
theorem run_extends {bound bound' : Nat} (hbound : bound ≤ bound') (id : ScopeId) (s : Scan) :
    Extends (run bound id s) (run bound' id s) := by
  induction bound generalizing bound' id s with
  | zero => exact .exhausted _
  | succ bound ih =>
    obtain ⟨more, rfl⟩ := Nat.exists_eq_succ_of_ne_zero (show bound' ≠ 0 by omega)
    have hle : bound ≤ more := by omega
    refine (advance_extends (fun id tokens ↦ ih hle id (start tokens)) hle id s).bind fun p ↦ ?_
    cases p with
    | more s => exact ih hle id s
    | «over» r => exact .refl _

end Scan

namespace Program

variable {bound bound' : Nat} {id : ScopeId} {tokens : List Token} {w : World}

theorem stepWithin_extends (hbound : bound ≤ bound') :
    (stepWithin bound).Extends (stepWithin bound') :=
  fun id tokens ↦ Scan.run_extends hbound id (.start tokens)

theorem evaluateWithin_extends (hbound : bound ≤ bound') (id : ScopeId) (tokens : List Token) :
    Extends (evaluateWithin bound id tokens) (evaluateWithin bound' id tokens) :=
  (collect_extends (stepWithin_extends hbound) id hbound [] tokens).bind fun _ ↦ .refl _

theorem evalWithin_extends (hbound : bound ≤ bound') (id : ScopeId) (source : List Char) :
    Extends (evalWithin bound id source) (evalWithin bound' id source) :=
  .after _ fun answer ↦ by
    cases answer with
    | ok tokens => exact evaluateWithin_extends hbound id tokens
    | error f => exact .refl _

/-- An evaluation that ended ends in the same way with more steps. -/
theorem evaluateWithin_of_le (hbound : bound ≤ bound')
    (h : (evaluateWithin bound id tokens).outcome w ≠ .error .exhausted) :
    (evaluateWithin bound' id tokens).run.run w = (evaluateWithin bound id tokens).run.run w :=
  (evaluateWithin_extends hbound id tokens w).resolve_left h

end Program

end TokenLang

import TokenLang.Proofs.Eval.Lockstep

/-!
Every evaluation keeps every discipline. The two evaluators that a part gets as arguments are taken
to keep it (`Discipline.Follows`); each part then agrees with itself, from tokens that are fit, in a
scope that the discipline knows. At the end the scan is shown to follow the guarded scan
(`Scan.runGuarded_agrees`), by induction on its bound. The guarded scan looks at the world before
each step, however deep in evaluations within evaluations; a guard that every related world
satisfies changes nothing.
-/

set_option autoImplicit false
set_option relaxedAutoImplicit false

namespace TokenLang

open Discipline
open Token (allOnly_nil allOnly_cons allOnly_append)

/-- Reductions that ended with a failure. -/
def Reduction.IsFailed : Reduction → Prop
  | .failed _ _ => True
  | _ => False

namespace Discipline

variable {S : Type} [Preorder S] (D : Discipline S)

/-- Reductions whose tokens may occur. -/
def FitReduction (σ : S) : Reduction → Prop
  | .value t rest => D.Fit σ t ∧ D.AllFit σ rest
  | _ => True

/-- Two evaluators in step. -/
def Follows (ev ev' : Evaluator) : Prop :=
  ∀ σ id tokens, D.own σ id → D.AllFit σ tokens →
    D.Agrees σ Reduction.IsFailed D.FitReduction (ev id tokens) (ev' id tokens)

end Discipline

section Parts

variable {S : Type} [Preorder S] {D : Discipline S} {ev ev' : Evaluator} (hev : D.Follows ev ev')
  (fuel : Nat) {id : ScopeId} {σ : S}

include hev

/-! ### Forms and rounds of evaluation -/

/-- Both sides cut the same form off their arguments and evaluate it alike. -/
theorem next_agrees (hid : D.own σ id) {args : List Token} (hargs : D.AllFit σ args) :
    D.Agrees σ unspoilt D.FitNext (ev.next id args) (ev'.next id args) := by
  cases args with
  | nil => exact Agrees.pure ⟨fun t ht ↦ (by cases ht), allOnly_nil⟩
  | cons t args =>
    refine (cut_agrees hargs).bind fun σ' hσ answer hanswer ↦ ?_
    obtain ⟨form, rest⟩ := answer
    refine (hev σ' id form (D.own_mono hσ hid) hanswer.1).bind' (fun _ r hr w b hb ↦ ?_)
      fun σ'' hσ' r hr ↦ ?_
    · cases r with
      | value u _ => exact hr.elim
      | nothing => exact hr.elim
      | failed f _ => cases hb
    · have hrest := allFit_mono hσ' hanswer.2
      cases r with
      | value u _ =>
        refine Agrees.pure ⟨fun v hv ↦ ?_, hrest⟩
        cases hv
        exact hr.1
      | nothing => exact Agrees.pure ⟨fun v hv ↦ (by cases hv), hrest⟩
      | failed f _ => exact Agrees.fail f

/-- By induction on the rounds: each form is evaluated alike, with what both sides made so far. -/
theorem collect_agrees (hid : D.own σ id) (rounds : Nat) {done tokens : List Token}
    (hdone : D.AllFit σ done) (htokens : D.AllFit σ tokens) :
    D.Agrees σ (fun answer ↦ answer.2 ≠ none) (fun σ answer ↦ D.AllFit σ answer.1)
      (ev.collect id rounds done tokens) (ev'.collect id rounds done tokens) := by
  induction rounds generalizing σ done tokens with
  | zero => exact Agrees.throw _
  | succ rounds ih =>
    refine (hev σ id tokens hid htokens).bind' (fun _ r hr w b hb ↦ ?_) fun σ' hσ r hr ↦ ?_
    · cases r with
      | value u _ => exact hr.elim
      | nothing => exact hr.elim
      | failed f _ =>
        cases hb
        exact Option.some_ne_none f
    · have hdone' := allFit_mono hσ hdone
      cases r with
      | value t rest => exact ih (D.own_mono hσ hid) (allOnly_cons.mpr ⟨hr.1, hdone'⟩) hr.2
      | nothing => exact Agrees.pure (Token.allOnly_reverse.mpr hdone')
      | failed f _ => exact Agrees.pure (Token.allOnly_reverse.mpr hdone')

theorem reduce_agrees (hid : D.own σ id) {tokens : List Token} (htokens : D.AllFit σ tokens) :
    D.Agrees σ unspoilt D.AllFit (ev.reduce fuel id tokens) (ev'.reduce fuel id tokens) := by
  refine (collect_agrees hev hid fuel allOnly_nil htokens).bind' (fun _ answer hanswer w b hb ↦ ?_)
    fun σ' _ answer hanswer ↦ ?_
  · obtain ⟨out, failure⟩ := answer
    cases failure with
    | none => exact absurd rfl hanswer
    | some f => cases hb
  · obtain ⟨out, failure⟩ := answer
    cases failure with
    | none => exact Agrees.pure hanswer
    | some f => exact Agrees.fail f

/-! ### Host code -/

omit hev in
theorem outcome_run_of_fails {α : Type} {code : Host.Code α} (h : code.Fails) (w : World) (a : α) :
    (code.run ev fuel id).outcome w ≠ .ok a := by
  have hbind : ∀ {β : Type} {x : EvalM β} {f : β → EvalM α},
      (∀ b v, (f b).outcome v ≠ .ok a) → ∀ v, (x >>= f).outcome v ≠ .ok a :=
    fun hf v hok ↦ (EvalM.ok_of_bind hok).elim fun b hb ↦ hf b _ hb.2
  induction code generalizing w with
  | answer b => exact h.elim
  | fail f => exact nofun
  | look next ih => exact hbind (fun s ↦ ih s (h s)) w
  | fresh count next ih => exact hbind (fun base ↦ ih base (h base)) w
  | write text next ih | setMemory n next ih => exact hbind (fun _ ↦ ih h) w
  | memory next ih => exact hbind (fun n ↦ ih n (h n)) w
  | assign name t next ih | define name t next ih =>
    exact hbind (fun failure ↦ ih failure (h failure)) w
  | evaluate apart tokens next ih =>
    exact hbind (fun _ ↦ hbind fun answer : List Token × Option Failure ↦
      ih _ answer.2 (h _ answer.2)) w

omit hev in
/-- Nothing has captured the scope that host code derives, so any captor without a body will do. -/
theorem place_agrees (hid : D.own σ id) (apart : Bool) :
    D.Agrees σ unspoilt D.own (Host.Code.place id apart) (Host.Code.place id apart) := by
  cases apart with
  | false => exact Agrees.pure hid
  | true =>
    have hderive : D.Agrees σ unspoilt (fun σ n ↦ D.may σ (.mutant "" n [])) (EvalM.derive id)
        (EvalM.derive id) := derive_agrees hid (fun _ ↦ rfl) fun _ ↦ allOnly_nil
    exact hderive.mono (fun _ h ↦ h) fun _ _ _ ↦ D.own_of_may

/-- Host code does the same on both sides, whatever it asks for. -/
theorem code_agrees (hid : D.own σ id) {α : Type} {parts : α → List Token} {code : Host.Code α}
    (hkeeps : code.Keeps parts (D.may σ)) (hdiscreet : D.lax → code.Discreet) :
    D.Agrees σ unspoilt (fun σ a ↦ D.AllFit σ (parts a)) (code.run ev fuel id)
      (code.run ev' fuel id) := by
  have hmay : ∀ {σ σ' : S}, σ ≤ σ' → D.may σ ≤ D.may σ' := fun hσ _ ↦ D.may_mono hσ
  induction code generalizing σ with
  | answer a => exact Agrees.pure hkeeps
  | fail f => exact Agrees.fail f
  | look next ih =>
    refine Agrees.scope fun s s' hs hbound ↦ ?_
    rw [hs.map_eq fun hlax ↦ (hdiscreet hlax).2]
    exact ih s hid (hkeeps _ le_rfl s (hbound hid)) fun hlax ↦ (hdiscreet hlax).1 s
  | fresh count next ih =>
    exact (Agrees.freshRefs count).bind fun σ' hσ base _ ↦ ih base (D.own_mono hσ hid)
      ((hkeeps base).mono (hmay hσ)) fun hlax ↦ hdiscreet hlax base
  | write text next ih =>
    exact (Agrees.write text).bind fun σ' hσ _ _ ↦ ih (D.own_mono hσ hid)
      (hkeeps.mono (hmay hσ)) hdiscreet
  | memory next ih =>
    exact Agrees.memory.bind fun σ' hσ n _ ↦ ih n (D.own_mono hσ hid)
      ((hkeeps n).mono (hmay hσ)) fun hlax ↦ hdiscreet hlax n
  | setMemory n next ih =>
    exact (Agrees.setMemory n).bind fun σ' hσ _ _ ↦ ih (D.own_mono hσ hid)
      (hkeeps.mono (hmay hσ)) hdiscreet
  | assign name t next ih =>
    exact (trying_agrees hid (Scope.revises_assign name hkeeps.1)).bind fun σ' hσ failure _ ↦
      ih failure (D.own_mono hσ hid) ((hkeeps.2 failure).mono (hmay hσ)) fun hlax ↦
        hdiscreet hlax failure
  | define name t next ih =>
    exact (trying_agrees hid (Scope.revises_define name hkeeps.1)).bind fun σ' hσ failure _ ↦
      ih failure (D.own_mono hσ hid) ((hkeeps.2 failure).mono (hmay hσ)) fun hlax ↦
        hdiscreet hlax failure
  | evaluate apart tokens next ih =>
    refine (place_agrees hid apart).bind fun σ₁ h₁ scope hscope ↦ ?_
    have htokens : D.AllFit σ₁ tokens := allFit_mono h₁ hkeeps.1
    refine (collect_agrees hev hscope fuel allOnly_nil htokens).bind'
      (fun hlax answer hanswer w a ↦ ?_) fun σ₂ h₂ answer hout ↦ ?_
    · obtain ⟨failure, hfailure⟩ := Option.ne_none_iff_exists'.mp hanswer
      have hfails := (hdiscreet hlax).2 (answer.1.filterMap Token.value?) failure
      rw [← hfailure] at hfails
      exact fun hok ↦ (outcome_run_of_fails fuel hfails w a hok).elim
    · have hσ := h₁.trans h₂
      refine ih _ answer.2 (D.own_mono hσ hid) (hkeeps.2 _ (hmay hσ) _ answer.2 fun v hv ↦ ?_)
        fun hlax ↦ (hdiscreet hlax).1 _ answer.2
      obtain ⟨t, ht, hv⟩ := List.mem_filterMap.mp hv
      exact (hout t ht).value hv

/-! ### Envoys -/

theorem unquoteNext_agrees (hid : D.own σ id) {t : Token} {rest : List Token}
    (hrest : D.AllFit σ (t :: rest)) : D.Agrees σ unspoilt D.FitPlaced
      (Envoy.unquoteNext ev id t rest) (Envoy.unquoteNext ev' id t rest) := by
  refine Agrees.scope fun s s' hs hbound ↦ ?_
  rw [hs.isMarker_eq, hs.get?_eq]
  split_ifs
  · split
    · rename_i bound hget
      exact Agrees.pure ⟨(hbound hid _ _ hget).unwrapped, (allOnly_cons.mp hrest).2⟩
    · exact Agrees.pure ⟨allOnly_nil, hrest⟩
  · refine (next_agrees hev hid hrest).bind fun σ' _ answer hanswer ↦ ?_
    rcases answer with ⟨_ | v, rest⟩
    · exact Agrees.pure ⟨allOnly_nil, hanswer.2⟩
    · exact Agrees.pure ⟨(hanswer.1 v rfl).unwrapped, hanswer.2⟩

theorem envoy_agrees (hid : D.own σ id) {e : Envoy} (he : e.Only (D.may σ)) {after : List Token}
    (hafter : D.AllFit σ after) :
    D.Agrees σ unspoilt D.FitPlaced (e.apply ev fuel id after) (e.apply ev' fuel id after) := by
  unfold Envoy.apply
  split
  · exact Agrees.pure ⟨he.2, hafter⟩
  · rename_i key held
    have hrun : D.Agrees σ unspoilt D.AllFit (Envoy.ofHost ev fuel id key held)
        (Envoy.ofHost ev' fuel id key held) :=
      Agrees.host fun host hkeeps hdiscreet ↦ code_agrees hev fuel hid
        (hkeeps.envoy key held he.2) fun hlax ↦ (hdiscreet hlax).envoy key held
    exact hrun.bind fun σ' hσ placed hplaced ↦ Agrees.pure ⟨hplaced, allFit_mono hσ hafter⟩
  · obtain ⟨hcaptor, hbody⟩ := he.1 _ rfl
    exact (reduce_agrees hev fuel (D.own_of_may hcaptor) hbody).bind fun σ' hσ out hout ↦
      Agrees.pure ⟨allOnly_splicedLast hout, allFit_mono hσ hafter⟩
  · split_ifs
    · exact Agrees.pure ⟨allOnly_nil, hafter⟩
    · exact quoteNext_agrees hafter
  · split_ifs
    · exact Agrees.pure ⟨allOnly_nil, hafter⟩
    · exact unquoteNext_agrees hev hid hafter
  · exact Agrees.pure ⟨allOnly_nil, allOnly_nil⟩
  · exact Agrees.pure ⟨allOnly_nil, allOnly_nil⟩

/-! ### Special forms -/

/-- The second reading of a name may take more hops when the discipline is lax. -/
theorem nameFrom_agrees (hid : D.own σ id) {hops hops' : Nat}
    (hhops : hops' = hops ∨ D.lax ∧ hops ≤ hops') {args : List Token} (hargs : D.AllFit σ args) :
    D.Agrees σ unspoilt (fun σ answer ↦ D.AllFit σ answer.2)
      (SpecialForm.nameFrom ev fuel id hops args)
      (SpecialForm.nameFrom ev' fuel id hops' args) := by
  induction hops generalizing σ hops' args with
  | zero =>
    rcases hhops with rfl | ⟨hlax, -⟩
    · exact Agrees.failWith _
    · exact Agrees.of_fails hlax fun w a ha ↦ (by cases ha)
  | succ hops ih =>
    obtain ⟨more, rfl⟩ : ∃ more, hops' = more + 1 := by
      rcases hhops with rfl | ⟨-, hle⟩
      · exact ⟨hops, rfl⟩
      · exact ⟨hops' - 1, by omega⟩
    have hmore : more = hops ∨ D.lax ∧ hops ≤ more :=
      hhops.imp (by omega) (And.imp_right (by omega))
    cases args with
    | nil => exact Agrees.failWith _
    | cons t rest =>
      obtain ⟨ht, hrest⟩ := allOnly_cons.mp hargs
      refine Agrees.scope fun s s' hs _ ↦ ?_
      rw [pendingEnvoy?_eq hs]
      split
      · rename_i e he
        refine (envoy_agrees hev fuel hid (only_pendingEnvoy? he ht) hrest).bind
          fun σ' hσ answer hanswer ↦ ?_
        exact ih (D.own_mono hσ hid) hmore (allOnly_append.mpr hanswer)
      · exact (nameOf_agrees t).bind fun σ' hσ name _ ↦ Agrees.pure (allFit_mono hσ hrest)

theorem takeName_agrees (hid : D.own σ id) {args : List Token} (hargs : D.AllFit σ args) :
    D.Agrees σ unspoilt (fun σ answer ↦ D.AllFit σ answer.2)
      (SpecialForm.takeName ev fuel id args) (SpecialForm.takeName ev' fuel id args) := by
  refine Agrees.scope fun s s' hs _ ↦ nameFrom_agrees hev fuel hid ?_ hargs
  rcases hs.maxHops with h | ⟨hlax, h⟩
  · exact .inl (by rw [h])
  · exact .inr ⟨hlax, Nat.succ_le_succ h⟩

theorem takeBinding_agrees (hid : D.own σ id) {args : List Token} (hargs : D.AllFit σ args) :
    D.Agrees σ unspoilt (fun σ answer ↦ D.Fit σ answer.2)
      (SpecialForm.takeBinding ev fuel id args) (SpecialForm.takeBinding ev' fuel id args) :=
  (takeName_agrees hev fuel hid hargs).bind fun _ hσ _ hrest ↦
    (next_agrees hev (D.own_mono hσ hid) hrest).bind fun _ _ _ hanswer ↦
      Agrees.pure (fit_getD hanswer.1 Token.only_null)

theorem adjust_agrees (hid : D.own σ id) (op : ArithOp) {args : List Token}
    (hargs : D.AllFit σ args) : D.Agrees σ unspoilt D.AllFit
      (SpecialForm.adjust ev fuel id op args) (SpecialForm.adjust ev' fuel id op args) := by
  refine (takeName_agrees hev fuel hid hargs).bind fun σ₁ h₁ answer hrest ↦ ?_
  obtain ⟨name, rest⟩ := answer
  have hid₁ := D.own_mono h₁ hid
  refine Agrees.scope fun s s' hs _ ↦ ?_
  rw [hs.peek_eq]
  dsimp only
  split
  · refine (next_agrees hev hid₁ hrest).bind fun σ₂ h₂ answer _ ↦ ?_
    refine Agrees.scope fun s s' hs _ ↦ ?_
    refine (Agrees.locating _ (Agrees.ofExcept' (fold_of_matches hs op _)
      fun _ _ ↦ trivial : D.Agrees σ₂ unspoilt (fun _ _ ↦ True) _ _)).bind fun σ₃ h₃ n _ ↦ ?_
    refine (Agrees.numberToken n).bind fun σ₄ h₄ t ht ↦ ?_
    have hid₄ := D.own_mono (h₂.trans (h₃.trans h₄)) hid₁
    exact (rebind_agrees hid₄ name ht).bind fun σ₅ h₅ _ _ ↦
      Agrees.pure (allFit_singleton (fit_mono h₅ ht))
  · exact Agrees.failWith_bind _

/-- Both sides come to conditions of the same truth, and so to the same branch. -/
theorem branch_agrees (hid : D.own σ id) {args : List Token} (hargs : D.AllFit σ args) :
    D.Agrees σ unspoilt D.AllFit (SpecialForm.branch ev id args)
      (SpecialForm.branch ev' id args) := by
  refine (next_agrees hev hid hargs).bind fun σ₁ h₁ answer hanswer ↦ ?_
  rcases answer with ⟨_ | condition, rest⟩
  · exact Agrees.pure (allFit_singleton Token.only_null)
  · refine (Agrees.ofExcept fun _ _ ↦ trivial : D.Agrees σ₁ unspoilt (fun _ _ ↦ True) _ _).bind
      fun σ₂ h₂ v _ ↦ ?_
    have hrest := allFit_mono h₂ hanswer.2
    have htake : ∀ σ₃, σ₂ ≤ σ₃ → ∀ taken, D.AllFit σ₃ taken → D.Agrees σ₃ unspoilt D.AllFit
        (do return [(← ev.next id taken).1.getD .null])
        (do return [(← ev'.next id taken).1.getD .null]) :=
      fun σ₃ h₃ taken htaken ↦
        (next_agrees hev (D.own_mono (h₁.trans (h₂.trans h₃)) hid) htaken).bind fun _ _ _ hv ↦
          Agrees.pure (allFit_singleton (fit_getD hv.1 Token.only_null))
    dsimp only
    split_ifs
    · exact htake σ₂ (le_refl σ₂) rest hrest
    · refine Agrees.bind ?_ htake
      exact (cut_agrees hrest).map fun _ _ _ h ↦ h.2

theorem untilTruth_agrees (hid : D.own σ id) (stop : Bool) (forms : Nat) {last : Token}
    (hlast : D.Fit σ last) {args : List Token} (hargs : D.AllFit σ args) :
    D.Agrees σ unspoilt D.AllFit (SpecialForm.untilTruth ev id stop forms last args)
      (SpecialForm.untilTruth ev' id stop forms last args) := by
  induction forms generalizing σ last args with
  | zero => exact Agrees.pure (allFit_singleton hlast)
  | succ forms ih =>
    refine (next_agrees hev hid hargs).bind fun σ₁ h₁ answer hanswer ↦ ?_
    rcases answer with ⟨_ | t, rest⟩
    · exact Agrees.pure (allFit_singleton (fit_mono h₁ hlast))
    · refine (payload_agrees t).bind fun σ₂ h₂ v _ ↦ ?_
      have ht := fit_mono h₂ (hanswer.1 t rfl)
      split_ifs
      · exact Agrees.pure (allFit_singleton ht)
      · exact ih (D.own_mono (h₁.trans h₂) hid) ht (allFit_mono h₂ hanswer.2)

/-- One more round of a loop, put in front of those before. -/
theorem round_agrees (hid : D.own σ id) {body done : List Token} (hbody : D.AllFit σ body)
    (hdone : D.AllFit σ done) {f g : List Token → EvalM (List Token)}
    (hf : ∀ σ', σ ≤ σ' → ∀ done, D.AllFit σ' done →
      D.Agrees σ' unspoilt D.AllFit (f done) (g done)) :
    D.Agrees σ unspoilt D.AllFit (do f ((← ev.reduce fuel id body).reverse ++ done))
      (do g ((← ev'.reduce fuel id body).reverse ++ done)) :=
  (reduce_agrees hev fuel hid hbody).bind fun σ' hσ _ hout ↦
    hf σ' hσ _ (allOnly_append.mpr ⟨Token.allOnly_reverse.mpr hout, allFit_mono hσ hdone⟩)

/-- By induction on the rounds that are left: the conditions have the same truth in each. -/
theorem whileLoop_agrees (hid : D.own σ id) {condition body : List Token}
    (hcondition : D.AllFit σ condition) (hbody : D.AllFit σ body) (rounds : Nat)
    {done : List Token} (hdone : D.AllFit σ done) : D.Agrees σ unspoilt D.AllFit
      (SpecialForm.whileLoop ev fuel id condition body rounds done)
      (SpecialForm.whileLoop ev' fuel id condition body rounds done) := by
  induction rounds generalizing σ done with
  | zero => exact Agrees.throw _
  | succ rounds ih =>
    refine (next_agrees hev hid hcondition).bind fun σ₁ h₁ answer hanswer ↦ ?_
    rcases answer with ⟨_ | t, rest⟩
    · exact Agrees.pure (Token.allOnly_reverse.mpr (allFit_mono h₁ hdone))
    · refine (payload_agrees t).bind fun σ₂ h₂ v _ ↦ ?_
      have h₁₂ := h₁.trans h₂
      have hdone₂ := allFit_mono h₁₂ hdone
      split_ifs
      · refine round_agrees hev fuel (D.own_mono h₁₂ hid) (allFit_mono h₁₂ hbody) hdone₂
          fun σ₃ h₃ done hdone ↦ ?_
        have h := h₁₂.trans h₃
        exact ih (D.own_mono h hid) (allFit_mono h hcondition) (allFit_mono h hbody) hdone
      · exact Agrees.pure (Token.allOnly_reverse.mpr hdone₂)

theorem repeatLoop_agrees (hid : D.own σ id) {body : List Token} (hbody : D.AllFit σ body)
    (rounds : Nat) {done : List Token} (hdone : D.AllFit σ done) : D.Agrees σ unspoilt D.AllFit
      (SpecialForm.repeatLoop ev fuel id body rounds done)
      (SpecialForm.repeatLoop ev' fuel id body rounds done) := by
  induction rounds generalizing σ done with
  | zero => exact Agrees.pure (Token.allOnly_reverse.mpr hdone)
  | succ rounds ih =>
    exact round_agrees hev fuel hid hbody hdone fun σ' hσ done hdone ↦
      ih (D.own_mono hσ hid) (allFit_mono hσ hbody) hdone

/-- A captor that is made on both sides has the scope it was made in and the body it was given. -/
theorem bindRecursive_agrees (hid : D.own σ id)
    (make : String → ScopeId → List String → List Token → Captor)
    {value : String → ScopeId → List String → List Token → Ref → Value}
    (hscope : ∀ name n params body, (make name n params body).scope = n)
    (hbody : ∀ name n params body, (make name n params body).body = body)
    (hcaptor : ∀ name n params body ref,
      (Token.stable (value name n params body ref)).captor? = some (make name n params body))
    (hparts : ∀ name n params body ref,
      (Token.stable (value name n params body ref)).parts = body)
    {args : List Token} (hargs : D.AllFit σ args) : D.Agrees σ unspoilt D.AllFit
      (SpecialForm.bindRecursive ev fuel id value args)
      (SpecialForm.bindRecursive ev' fuel id value args) := by
  refine (takeName_agrees hev fuel hid hargs).bind fun σ₁ h₁ answer hrest ↦ ?_
  obtain ⟨name, rest⟩ := answer
  refine (takeParams_agrees hrest).bind fun σ₂ h₂ answer hfit ↦ ?_
  obtain ⟨params, body⟩ := answer
  have hid₂ := D.own_mono (h₁.trans h₂) hid
  refine (captured_agrees hid₂ name (fun n ↦ hscope name n params body)
    (fun n ref ↦ hcaptor name n params body ref)
    (fun n ref ↦ (hparts name n params body ref).trans (hbody name n params body).symm)
    (fun n ↦ (hbody name n params body).symm ▸ hfit)).bind fun σ₃ h₃ t ht ↦ ?_
  exact (bind_agrees (D.own_mono h₃ hid₂) name ht).bind fun _ _ _ _ ↦ Agrees.pure allOnly_nil

theorem makeMutant_agrees (hid : D.own σ id) {args : List Token} (hargs : D.AllFit σ args) :
    D.Agrees σ unspoilt D.AllFit (SpecialForm.makeMutant ev fuel id args)
      (SpecialForm.makeMutant ev' fuel id args) := by
  refine (takeName_agrees hev fuel hid hargs).bind fun σ₁ h₁ answer hbody ↦ ?_
  obtain ⟨name, body⟩ := answer
  have hid₁ := D.own_mono h₁ hid
  refine (derive_agrees hid₁ (fun _ ↦ rfl) (fun _ ↦ hbody) :
    D.Agrees σ₁ _ (fun σ n ↦ D.may σ (.mutant name n body)) _ _).bind fun σ₂ h₂ scope hmay ↦ ?_
  refine Agrees.freshRef.bind fun σ₃ h₃ ref _ ↦ ?_
  have ht : D.Fit σ₃ (.envoy (.mutant name scope body) ref) :=
    Token.only_of_captor rfl rfl (D.may_mono h₃ hmay) (allFit_mono (h₂.trans h₃) hbody)
  exact (bind_agrees (D.own_mono (h₂.trans h₃) hid₁) name ht).bind fun _ _ _ _ ↦
    Agrees.pure allOnly_nil

/-- One case for each special form, from what the pieces it is put together from agree in. -/
theorem special_agrees (hid : D.own σ id) (form : SpecialForm) {args : List Token}
    (hargs : D.AllFit σ args) : D.Agrees σ unspoilt D.AllFit (form.expand ev fuel id args)
      (form.expand ev' fuel id args) := by
  cases form with
  | define =>
    refine (takeBinding_agrees hev fuel hid hargs).bind fun σ₁ h₁ answer ht ↦ ?_
    exact (bind_agrees (D.own_mono h₁ hid) _ ht).bind fun _ _ _ _ ↦ Agrees.pure allOnly_nil
  | assign =>
    refine (takeBinding_agrees hev fuel hid hargs).bind fun σ₁ h₁ answer ht ↦ ?_
    exact (rebind_agrees (D.own_mono h₁ hid) _ ht).bind fun σ₂ h₂ _ _ ↦
      Agrees.pure (allFit_singleton (fit_mono h₂ ht))
  | increment => exact adjust_agrees hev fuel hid .add hargs
  | decrement => exact adjust_agrees hev fuel hid .sub hargs
  | choose => exact branch_agrees hev hid hargs
  | and => exact untilTruth_agrees hev hid false _ (Value.only_of_plain rfl rfl) hargs
  | or => exact untilTruth_agrees hev hid true _ (Value.only_of_plain rfl rfl) hargs
  | loop =>
    unfold SpecialForm.expand
    dsimp only
    split_ifs
    · exact Agrees.failWith _
    · exact (cut_agrees hargs).bind fun σ₁ h₁ _ hcut ↦
        whileLoop_agrees hev fuel (D.own_mono h₁ hid) hcut.1 hcut.2 fuel allOnly_nil
  | times =>
    refine (next_agrees hev hid hargs).bind fun σ₁ h₁ answer hanswer ↦ ?_
    rcases answer with ⟨_ | t, body⟩
    · exact Agrees.failWith _
    · exact (payload_agrees t).bind fun σ₂ h₂ v _ ↦ repeatLoop_agrees hev fuel
        (D.own_mono (h₁.trans h₂) hid) (allFit_mono h₂ hanswer.2) _ allOnly_nil
  | lambda => exact makeLambda_agrees hid hargs
  | defineFunction =>
    unfold SpecialForm.expand
    refine bindRecursive_agrees hev fuel hid Captor.function ?_ ?_ ?_ ?_ hargs
    all_goals intros; rfl
  | defineExpander =>
    unfold SpecialForm.expand
    refine bindRecursive_agrees hev fuel hid Captor.expander ?_ ?_ ?_ ?_ hargs
    all_goals intros; rfl
  | defineMutant => exact makeMutant_agrees hev fuel hid hargs

/-! ### Calls -/

/-- The body of a call, with its parameters unbound after it. -/
theorem body_agrees (hid : D.own σ id) (params : List String) {body : List Token}
    (hbody : D.AllFit σ body) : D.Agrees σ unspoilt D.AllFit
      (EvalM.ensuring (ev.reduce fuel id body) fun w ↦
        w.modifyScope id fun s ↦ s.unbindParams params)
      (EvalM.ensuring (ev'.reduce fuel id body) fun w ↦
        w.modifyScope id fun s ↦ s.unbindParams params) :=
  (reduce_agrees hev fuel hid hbody).ensuring hid fun _ _ ↦ Scope.rewrites_unbindParams params

theorem callClosure_agrees (f : Callable) (hid : D.own σ id) (params : List String)
    {body args : List Token} (hbody : D.AllFit σ body) (hargs : D.AllFit σ args) :
    D.Agrees σ unspoilt D.FitAnswer (f.callClosure ev fuel id params body args)
      (f.callClosure ev' fuel id params body args) := by
  refine Agrees.scope fun s s' hs _ ↦ unlessStrict_agrees hs _ _ ?_
  have hlist : ∀ rest, rest <:+ args → D.Fit σ (.stable (.list rest)) := fun rest h ↦
    Value.only_of_parts rfl fun t ht ↦ hargs t (h.subset ht)
  have hbind := Scope.rewrites_bindParams params hargs Token.only_null hlist
  refine (Agrees.modifyScope hid hbind).bind fun σ₁ h₁ _ _ ↦ ?_
  refine (body_agrees hev fuel (D.own_mono h₁ hid) params (allFit_mono h₁ hbody)).bind
    fun σ₂ _ out hout ↦ Agrees.pure fun t ht ↦ ?_
  exact hout t (List.mem_of_getLast? ht)

theorem function_agrees (hid : D.own σ id) {f : Callable} {ref : Ref}
    (hf : (Value.function f ref).Only (D.may σ)) {args : List Token}
    (hargs : D.AllFit σ args) : D.Agrees σ unspoilt D.FitAnswer
      (f.apply ev fuel id args) (f.apply ev' fuel id args) := by
  unfold Callable.apply
  split
  · exact callArith_agrees _ args
  · exact (plain_agrees _).bind fun _ _ _ _ ↦ bool_agrees _
  · exact callPrimitive_agrees _ args
  · rename_i name scope params body hcore
    obtain ⟨hmay, hbody⟩ := ((Value.only_iff _).mp hf).1 _ (Callable.captor?_of_core hcore)
    exact callClosure_agrees hev fuel _ (D.own_of_may hmay) params hbody hargs
  · refine Agrees.host fun host hkeeps hdiscreet ↦ ?_
    exact (code_agrees hev fuel hid (hkeeps.function _ args hargs)
      fun hlax ↦ (hdiscreet hlax).function _ args).mono (fun _ h ↦ h)
        fun _ _ _ ↦ fitAnswer_of_toList
  · exact Agrees.pure fitAnswer_none

theorem expandTemplate_agrees (m : Expander) {caller : ScopeId} (hcaller : D.own σ caller)
    (hid : D.own σ id) (params : List String) {body args : List Token}
    (hbody : D.AllFit σ body) (hargs : D.AllFit σ args) : D.Agrees σ unspoilt D.AllFit
      (m.expandTemplate ev fuel caller id params body args)
      (m.expandTemplate ev' fuel caller id params body args) := by
  refine (cutAll_agrees hargs).bind fun σ₁ h₁ forms hforms ↦ ?_
  refine Agrees.scope fun s s' hs _ ↦ unlessStrict_agrees hs _ _ ?_
  have hid₁ := D.own_mono h₁ hid
  refine (bindAll_agrees (D.own_mono h₁ hcaller) hid₁ params hforms).bind fun σ₂ h₂ _ _ ↦ ?_
  refine (body_agrees hev fuel (D.own_mono h₂ hid₁) params
    (allFit_mono (h₁.trans h₂) hbody)).bind fun σ₃ _ out hout ↦ ?_
  exact Agrees.pure (allOnly_splicedLast hout)

theorem expander_agrees (hid : D.own σ id) {m : Expander} {ref : Ref}
    (hm : (Value.expander m ref).Only (D.may σ)) {args : List Token} (hargs : D.AllFit σ args) :
    D.Agrees σ unspoilt D.AllFit (m.expand ev fuel id args) (m.expand ev' fuel id args) := by
  unfold Expander.expand
  split
  · exact special_agrees hev fuel hid _ hargs
  · obtain ⟨hmay, hbody⟩ := ((Value.only_iff _).mp hm).1 _ rfl
    exact expandTemplate_agrees hev fuel _ hid (D.own_of_may hmay) _ hbody hargs
  · exact Agrees.host fun host hkeeps hdiscreet ↦ code_agrees hev fuel hid
      (hkeeps.expander _ args hargs) fun hlax ↦ (hdiscreet hlax).expander _ args

theorem method_agrees (hid : D.own σ id) {receiver : Value} (hreceiver : receiver.Only (D.may σ))
    (name : String) {args : List Token} (hargs : D.AllFit σ args) : D.Agrees σ unspoilt D.FitAnswer
      (Method.call ev fuel id receiver name args) (Method.call ev' fuel id receiver name args) := by
  have hparts := ((Value.only_iff receiver).mp hreceiver).2
  unfold Method.call
  split
  · exact gathers_agrees (Method.gathers_ofItems (fun _ ↦ ⟨rfl, rfl⟩) hparts hargs name)
  · exact gathers_agrees (Method.gathers_ofItems (fun _ ↦ ⟨rfl, rfl⟩) hparts hargs name)
  · exact gathers_agrees (Method.gathers_ofEntries Token.only_null hparts hargs name)
  · exact gathers_agrees (Method.gathers_ofMembers hparts hargs name)
  · exact gathers_agrees (Method.gathers_ofText _ name args)
  · exact ofRng_agrees fuel name args
  · exact ofMath_agrees name hargs
  · refine Agrees.host fun host hkeeps hdiscreet ↦ ?_
    exact (code_agrees hev fuel hid (hkeeps.method _ name args hargs)
      fun hlax ↦ (hdiscreet hlax).method _ name args).mono (fun _ h ↦ h)
        fun _ _ _ ↦ fitAnswer_of_toList
  · exact Agrees.pure fitAnswer_none

theorem callMethod_agrees (hid : D.own σ id) {callee first : Token} {rest : List Token}
    (hcallee : D.Fit σ callee) (hrest : D.AllFit σ rest) : D.Agrees σ unspoilt D.AllFit
      (ev.callMethod fuel id callee first rest) (ev'.callMethod fuel id callee first rest) := by
  refine (payload_agrees callee).bind fun σ₁ h₁ receiver hreceiver ↦ ?_
  split_ifs
  · split
    · exact (method_agrees hev fuel (D.own_mono h₁ hid)
        ((fit_mono h₁ hcallee).value hreceiver) _ (allFit_mono h₁ hrest)).bind
          fun _ _ _ h ↦ Agrees.pure (allFit_toList h)
    · exact refuse_agrees callee
  · exact refuse_agrees callee

theorem call_agrees (hid : D.own σ id) {callee : Token} (hcallee : D.Fit σ callee)
    {args : List Token} (hargs : D.AllFit σ args) : D.Agrees σ unspoilt D.AllFit
      (ev.call fuel id callee args) (ev'.call fuel id callee args) := by
  unfold Evaluator.call
  split
  · exact (function_agrees hev fuel hid ((Token.only_done _).mp hcallee) hargs).bind fun _ _ _ h ↦
      Agrees.pure (allFit_toList h)
  · exact expander_agrees hev fuel hid ((Token.only_done _).mp hcallee) hargs
  · exact Agrees.pure (allFit_singleton hcallee)
  · exact callMethod_agrees hev fuel hid hcallee (allOnly_cons.mp hargs).2

/-! ### Regions -/

theorem applyQuotedCall_agrees (hid : D.own σ id) {form : List Token} (hform : D.AllFit σ form) :
    D.Agrees σ unspoilt D.AllFit (Varying.applyQuotedCall ev fuel id form)
      (Varying.applyQuotedCall ev' fuel id form) := by
  cases form with
  | nil => exact Agrees.pure allOnly_nil
  | cons t form =>
    refine (next_agrees hev hid hform).bind fun σ₁ h₁ answer hanswer ↦ ?_
    rcases answer with ⟨_ | callee, args⟩
    · exact Agrees.pure allOnly_nil
    · refine (asWritten_agrees callee hanswer.2).bind fun σ₂ h₂ args hargs ↦ ?_
      exact call_agrees hev fuel (D.own_mono (h₁.trans h₂) hid)
        (fit_mono h₂ (hanswer.1 callee rfl)) hargs

/-- One case for each meaning of a bracket, from what its pieces agree in. -/
theorem varying_agrees (hid : D.own σ id) (v : Varying) {r : Region}
    (hr : D.AllFit σ r.inside) : D.Agrees σ unspoilt D.AllFit (v.apply ev fuel id r)
      (v.apply ev' fuel id r) := by
  cases v with
  | call =>
    unfold Varying.apply Varying.applyCall
    dsimp only
    split
    · exact Agrees.pure allOnly_nil
    · rename_i callee args hinside
      rw [hinside] at hr
      obtain ⟨hcallee, hargs⟩ := allOnly_cons.mp hr
      exact call_agrees hev fuel hid hcallee hargs
  | quotedCall => exact applyQuotedCall_agrees hev fuel hid hr
  | list => exact Agrees.pure (allFit_singleton (Value.only_of_parts rfl hr))
  | map =>
    have hempty : D.AllFit σ (Entry.flatten []) := allOnly_nil
    exact (Agrees.ofExcept fun _ h ↦ Method.forall_mem_putAll h Token.only_null hempty hr :
      D.Agrees σ unspoilt (fun σ entries ↦ D.AllFit σ (Entry.flatten entries)) _ _).bind
        fun _ _ _ h ↦ Agrees.pure (allFit_singleton (Value.only_of_parts rfl h))
  | set =>
    exact (Agrees.ofExcept fun _ h ↦ Token.forall_addMembers allOnly_nil hr h :
      D.Agrees σ unspoilt D.AllFit _ _).bind
        fun _ _ _ h ↦ Agrees.pure (allFit_singleton (Value.only_of_parts rfl h))
  | infixForm => exact applyInfix_agrees hr
  | sym => exact applySym_agrees _
  | host key =>
    exact Agrees.host fun host hkeeps hdiscreet ↦ code_agrees hev fuel hid
      (hkeeps.varying key r hr) fun hlax ↦ (hdiscreet hlax).varying key r

theorem close_agrees (hid : D.own σ id) (opening : Token) {inside : List Token}
    (hinside : D.AllFit σ inside) : D.Agrees σ unspoilt D.AllFit
      (ev.close fuel id opening inside) (ev'.close fuel id opening inside) := by
  refine Agrees.scope fun s s' hs _ ↦ ?_
  rw [hs.varying?_eq, hs.varying?_eq]
  split
  · exact Agrees.blaming opening (Agrees.locating _ (varying_agrees hev fuel hid _ hinside))
  · exact Agrees.pure hinside

theorem closeLiteral_agrees (hid : D.own σ id) (t : Token) : D.Agrees σ unspoilt D.AllFit
    (ev.closeLiteral fuel id t) (ev'.closeLiteral fuel id t) := by
  refine Agrees.scope fun s s' hs _ ↦ ?_
  rw [hs.varying?_eq]
  split
  · exact varying_agrees hev fuel hid _ allOnly_nil
  · exact Agrees.pure (allFit_singleton ((Token.only_done _).mpr (Value.only_of_plain rfl rfl)))

theorem act_agrees (hid : D.own σ id) {t : Token} (ht : D.Fit σ t) {rest : List Token}
    (hrest : D.AllFit σ rest) : D.Agrees σ unspoilt D.FitPlaced (ev.act fuel id t rest)
      (ev'.act fuel id t rest) := by
  unfold Evaluator.act
  split
  · exact envoy_agrees hev fuel hid ((Token.only_envoy _).mp ht) hrest
  · exact (closeLiteral_agrees hev fuel hid _).bind fun _ hσ _ hplaced ↦
      Agrees.pure ⟨hplaced, allFit_mono hσ hrest⟩
  · exact (resolve_agrees hid t).bind fun _ hσ _ hplaced ↦
      Agrees.pure ⟨allFit_singleton hplaced, allFit_mono hσ hrest⟩

end Parts

/-! ### The scan -/

namespace Scan

variable {S : Type} [Preorder S] {D : Discipline S} {id : ScopeId} {σ : S}

/-- Open brackets whose tokens may occur. -/
def FitFrame (D : Discipline S) (σ : S) (f : Frame) : Prop :=
  D.Fit σ f.opening ∧ D.AllFit σ f.passed

/-- Scans whose tokens may occur. -/
structure Fit (D : Discipline S) (σ : S) (s : Scan) : Prop where
  frames : ∀ f ∈ s.frames, FitFrame D σ f
  rest : D.AllFit σ s.rest

theorem FitFrame.mono {σ' : S} (hσ : σ ≤ σ') {f : Frame} (h : FitFrame D σ f) :
    FitFrame D σ' f :=
  ⟨fit_mono hσ h.1, allFit_mono hσ h.2⟩

theorem fit_start {tokens : List Token} (h : D.AllFit σ tokens) : (start tokens).Fit D σ :=
  ⟨fun _ hf ↦ absurd hf List.not_mem_nil, h⟩

theorem Fit.buffer {s : Scan} (h : s.Fit D σ) : D.AllFit σ s.buffer := by
  refine allOnly_append.mpr ⟨fun t ht ↦ ?_, h.rest⟩
  obtain ⟨f, hf, ht⟩ := List.mem_flatMap.mp ht
  obtain ⟨hopening, hpassed⟩ := h.frames f (List.mem_reverse.mp hf)
  exact allOnly_cons.mpr ⟨hopening, Token.allOnly_reverse.mpr hpassed⟩ t ht

namespace Progress

/-- Steps that end the scan with a failure. -/
def IsFailed : Progress → Prop
  | .more _ => False
  | .over r => r.IsFailed

/-- Steps whose tokens may occur. -/
def Fit (D : Discipline S) (σ : S) : Progress → Prop
  | .more s => s.Fit D σ
  | .over r => D.FitReduction σ r

end Progress

theorem giveUp_agrees (s : Scan) (f : Failure) : D.Agrees σ Progress.IsFailed (Progress.Fit D)
    (s.giveUp f) (s.giveUp f) :=
  Agrees.pure trivial

/-- A step that gives up when it fails. -/
theorem attempt_agrees {α : Type} {Q : S → α → Prop} {x y : EvalM α} (s : Scan)
    {k : Except Failure α → EvalM Progress} (hx : D.Agrees σ unspoilt Q x y)
    (herror : ∀ f, k (.error f) = s.giveUp f)
    (hok : ∀ σ', σ ≤ σ' → ∀ a, Q σ' a →
      D.Agrees σ' Progress.IsFailed (Progress.Fit D) (k (.ok a)) (k (.ok a))) :
    D.Agrees σ Progress.IsFailed (Progress.Fit D) (EvalM.attempt x >>= k)
      (EvalM.attempt y >>= k) := by
  refine hx.attempt.bind' (fun _ r hr w b hb ↦ ?_) fun σ' hσ r hr ↦ ?_
  · cases r with
    | ok a => exact (hr a rfl).elim
    | error f =>
      rw [herror] at hb
      cases hb
      trivial
  · cases r with
    | ok a => exact hok σ' hσ a (hr a rfl)
    | error f =>
      rw [herror]
      exact giveUp_agrees s f

theorem allFit_passQuoted (opening : Token) {passed inner rest : List Token}
    (hpassed : D.AllFit σ passed) (hrest : D.AllFit σ rest) :
    D.AllFit σ (Frame.passQuoted opening passed inner rest).1.passed ∧
      D.AllFit σ (Frame.passQuoted opening passed inner rest).2 := by
  fun_induction Frame.passQuoted opening passed inner rest with
  | case1 => exact ⟨hpassed, allOnly_nil⟩
  | case2 _ _ t rest _ ih =>
    obtain ⟨ht, hrest⟩ := allOnly_cons.mp hrest
    exact ih (allOnly_cons.mpr ⟨ht, hpassed⟩) hrest
  | case3 _ _ t rest _ _ ih =>
    obtain ⟨ht, hrest⟩ := allOnly_cons.mp hrest
    exact ih (allOnly_cons.mpr ⟨ht, hpassed⟩) hrest
  | case4 _ t rest _ _ _ _ _ ih =>
    obtain ⟨ht, hrest⟩ := allOnly_cons.mp hrest
    exact ih (allOnly_cons.mpr ⟨ht, hpassed⟩) hrest
  | case5 => exact ⟨hpassed, hrest⟩
  | case6 => exact ⟨hpassed, hrest⟩

theorem fit_openFrame {frames : List Frame} (hframes : ∀ f ∈ frames, FitFrame D σ f) {t : Token}
    (ht : D.Fit σ t) {rest : List Token} (hrest : D.AllFit σ rest) :
    (openFrame t rest frames).Fit D σ := by
  unfold openFrame
  split_ifs
  · obtain ⟨hpassed, hleft⟩ := allFit_passQuoted t allOnly_nil hrest
    have hopening : D.Fit σ (Frame.passQuoted t [] [] rest).1.opening := by
      rwa [Frame.opening_passQuoted]
    exact ⟨List.forall_mem_cons.mpr ⟨⟨hopening, hpassed⟩, hframes⟩, hleft⟩
  · exact ⟨List.forall_mem_cons.mpr ⟨⟨ht, allOnly_nil⟩, hframes⟩, hrest⟩

theorem fit_pass {frames : List Frame} (hframes : ∀ f ∈ frames, FitFrame D σ f) {t : Token}
    (ht : D.Fit σ t) {rest : List Token} (hrest : D.AllFit σ rest) :
    (pass t rest frames).Fit D σ := by
  unfold pass
  split
  · obtain ⟨⟨hopening, hpassed⟩, hothers⟩ := List.forall_mem_cons.mp hframes
    have hfirst := allOnly_cons.mpr ⟨ht, hpassed⟩
    exact ⟨List.forall_mem_cons.mpr ⟨⟨hopening, hfirst⟩, hothers⟩, hrest⟩
  · exact ⟨ht, hrest⟩

section Steps

variable {ev ev' : Evaluator} (hev : D.Follows ev ev') (fuel : Nat) {s : Scan} (hs : s.Fit D σ)
include hev hs

theorem closeFrame_agrees (hid : D.own σ id) (t : Token) {rest : List Token}
    (hrest : D.AllFit σ rest) : D.Agrees σ Progress.IsFailed (Progress.Fit D)
      (s.closeFrame ev fuel id t rest) (s.closeFrame ev' fuel id t rest) := by
  unfold closeFrame
  split
  · exact giveUp_agrees s _
  · rename_i f frames hframes
    have hall := hs.frames
    rw [hframes] at hall
    obtain ⟨hf, hothers⟩ := List.forall_mem_cons.mp hall
    split_ifs
    · exact giveUp_agrees s _
    · refine attempt_agrees s (close_agrees hev fuel hid f.opening (Token.allOnly_reverse.mpr hf.2))
        (fun _ ↦ rfl) fun σ' hσ placed hplaced ↦ Agrees.pure ⟨?_, ?_⟩
      · exact fun f hf ↦ (hothers f hf).mono hσ
      · exact allOnly_append.mpr ⟨hplaced, allFit_mono hσ hrest⟩

/-- Both sides count the same hop, and what acts on one side acts on the other. Only the first scan
may have no hops left where the other has. -/
theorem resolveFront_agrees (hid : D.own σ id) {t : Token} (ht : D.Fit σ t) {rest : List Token}
    (hrest : D.AllFit σ rest) : D.Agrees σ Progress.IsFailed (Progress.Fit D)
      (s.resolveFront ev fuel id t rest) (s.resolveFront ev' fuel id t rest) := by
  have hact : ∀ {k : Except Failure (List Token × List Token) → EvalM Progress},
      (∀ f, k (.error f) = s.giveUp f) → (∀ a, k (.ok a) =
        pure (.more ⟨s.frames, a.1 ++ a.2, if a.1.isEmpty then 0 else s.hops + 1⟩)) →
      D.Agrees σ Progress.IsFailed (Progress.Fit D)
        (EvalM.attempt (ev.act fuel id t rest) >>= k)
        (EvalM.attempt (ev'.act fuel id t rest) >>= k) := by
    intro k herror hok
    refine attempt_agrees s (act_agrees hev fuel hid ht hrest) herror fun σ' hσ a ha ↦ ?_
    rw [hok]
    refine Agrees.pure ⟨fun f hf ↦ (hs.frames f hf).mono hσ, ?_⟩
    exact allOnly_append.mpr ⟨ha.1, ha.2⟩
  refine Agrees.scope fun c c' hc _ ↦ ?_
  rcases hc.maxHops with h | ⟨hlax, hle⟩
  · rw [h]
    split_ifs
    · exact giveUp_agrees s _
    · exact hact (fun _ ↦ rfl) fun _ ↦ rfl
  · split_ifs with hfew hfew' hfew'
    · exact giveUp_agrees s _
    · refine Agrees.of_spoilt hlax fun w a ha ↦ ?_
      cases ha
      trivial
    · omega
    · exact hact (fun _ ↦ rfl) fun _ ↦ rfl

theorem advance_agrees (hid : D.own σ id) : D.Agrees σ Progress.IsFailed (Progress.Fit D)
    (s.advance ev fuel id) (s.advance ev' fuel id) := by
  unfold advance
  split
  · unfold finish
    split
    · exact Agrees.pure trivial
    · exact giveUp_agrees s _
  · rename_i t rest hcons
    have hfit := hs.rest
    rw [hcons] at hfit
    obtain ⟨ht, hrest⟩ := allOnly_cons.mp hfit
    split_ifs
    · exact closeFrame_agrees hev fuel hs hid t hrest
    · exact Agrees.pure (fit_openFrame hs.frames ht hrest)
    · exact Agrees.pure (fit_pass hs.frames ht hrest)
    · exact resolveFront_agrees hev fuel hs hid ht hrest

end Steps

open Classical in
/-- The scan with a look at the world and at itself before each step, however deep in evaluations
within evaluations. Unless they are as the guard demands, the scan ends with the alarm. -/
noncomputable def runGuarded (guard : World → Scan → Prop) (alarm : EvalM Reduction) :
    Nat → ScopeId → Scan → EvalM Reduction
  | 0, _, _ => throw .exhausted
  | fuel + 1, id, s => do
    if guard (← get) s then
      match ← s.advance (fun scope tokens ↦ runGuarded guard alarm fuel scope (start tokens))
        fuel id with
      | .more s => runGuarded guard alarm fuel id s
      | .over r => return r
    else alarm

theorem guarded_agrees {guard : World → Prop} [DecidablePred guard] {x y : EvalM Reduction}
    (alarm : EvalM Reduction) (hguard : ∀ w w', D.rel σ w w' → guard w')
    (h : D.Agrees σ Reduction.IsFailed D.FitReduction x y) :
    D.Agrees σ Reduction.IsFailed D.FitReduction x (do if guard (← get) then y else alarm) := by
  intro w w' hw
  have hlook : (do if guard (← get) then y else alarm : EvalM Reduction).run.run w' =
      y.run.run w' := by
    show (if guard w' then y else alarm).run.run w' = y.run.run w'
    rw [if_pos (hguard w w' hw)]
  unfold EvalM.outcome EvalM.after
  rw [hlook]
  exact h w w' hw

open Classical in
/-- By induction on the bound: the guard holds before every step, so the guarded run goes as the run
does. Evaluations within a run have the smaller bound and follow their guarded copies. -/
theorem runGuarded_agrees {guard : World → Scan → Prop}
    (hguard : ∀ σ w w' s, D.rel σ w w' → s.Fit D σ → guard w' s) (alarm : EvalM Reduction)
    (bound : Nat) (hid : D.own σ id) {s : Scan} (hs : s.Fit D σ) :
    D.Agrees σ Reduction.IsFailed D.FitReduction (run bound id s)
      (runGuarded guard alarm bound id s) := by
  induction bound generalizing σ id s with
  | zero => exact Agrees.throw _
  | succ bound ih =>
    have hev : D.Follows (fun scope tokens ↦ run bound scope (start tokens))
        (fun scope tokens ↦ runGuarded guard alarm bound scope (start tokens)) :=
      fun σ id tokens hid htokens ↦ ih hid (fit_start htokens)
    refine guarded_agrees alarm (fun w w' hw ↦ hguard σ w w' s hw hs) ?_
    refine (advance_agrees hev bound hs hid).bind' (fun _ p hp w b hb ↦ ?_) fun σ' hσ p hp ↦ ?_
    · cases p with
      | more s => exact hp.elim
      | «over» r =>
        cases hb
        exact hp
    · cases p with
      | more s => exact ih (D.own_mono hσ hid) hp
      | «over» r => exact Agrees.pure hp

theorem runGuarded_true (alarm : EvalM Reduction) (bound : Nat) :
    runGuarded (fun _ _ ↦ True) alarm bound = run bound := by
  induction bound with
  | zero => rfl
  | succ bound ih =>
    funext id s
    rw [runGuarded, ih, run]
    simp only [if_true]
    rfl

end Scan

/-! ### Whole evaluations -/

namespace Program

/-- Reduces a buffer up to its first complete token, with a look at the world and at the scan before
each step. -/
noncomputable def stepGuarded (guard : World → Scan → Prop) (alarm : EvalM Reduction)
    (bound : Nat) : Evaluator :=
  fun id tokens ↦ Scan.runGuarded guard alarm bound id (.start tokens)

/-- Evaluates a buffer with an evaluator. -/
def evaluateBy (ev : Evaluator) (rounds : Nat) (id : ScopeId) (tokens : List Token) :
    EvalM Answer := do
  let (out, failure) ← ev.collect id rounds [] tokens
  return ⟨out.filterMap Token.value?, failure⟩

/-- Reads a text and evaluates it with an evaluator. -/
def evalBy (ev : Evaluator) (rounds : Nat) (id : ScopeId) (source : List Char) :
    EvalM Answer := do
  match ← read source with
  | .ok tokens => evaluateBy ev rounds id tokens
  | .error f => return ⟨[], some f⟩

/-- Answers that ended with a failure. -/
def Answer.IsFailed (answer : Answer) : Prop := answer.failure ≠ none

variable {S : Type} [Preorder S] {D : Discipline S} {id : ScopeId} {σ : S}

/-- Answers whose values may occur. -/
def FitAnswer (D : Discipline S) (σ : S) (answer : Answer) : Prop :=
  ∀ v ∈ answer.values, v.Only (D.may σ)

/-- A guard that always holds between related worlds changes nothing. -/
theorem follows_stepGuarded {guard : World → Scan → Prop}
    (hguard : ∀ σ w w' s, D.rel σ w w' → s.Fit D σ → guard w' s) (alarm : EvalM Reduction)
    (bound : Nat) : D.Follows (stepWithin bound) (stepGuarded guard alarm bound) :=
  fun _ _ _ hid htokens ↦
    Scan.runGuarded_agrees hguard alarm bound hid (Scan.fit_start htokens)

theorem follows_self (bound : Nat) : D.Follows (stepWithin bound) (stepWithin bound) := by
  have h := follows_stepGuarded (D := D) (fun _ _ _ _ _ _ ↦ trivial) (throw .exhausted) bound
  unfold stepGuarded at h
  rwa [Scan.runGuarded_true] at h

variable {ev ev' : Evaluator} (hev : D.Follows ev ev')
include hev

theorem evaluateBy_agrees (rounds : Nat) (hid : D.own σ id) {tokens : List Token}
    (htokens : D.AllFit σ tokens) : D.Agrees σ Answer.IsFailed (FitAnswer D)
      (evaluateBy ev rounds id tokens) (evaluateBy ev' rounds id tokens) := by
  refine (collect_agrees hev hid rounds allOnly_nil htokens).bind'
    (fun _ answer hanswer w b hb ↦ ?_) fun σ' _ answer hanswer ↦ Agrees.pure fun v hv ↦ ?_
  · cases hb
    exact hanswer
  · obtain ⟨t, ht, hv⟩ := List.mem_filterMap.mp hv
    exact (hanswer t ht).value hv

omit hev in
/-- Both sides read the same tokens, which hold no captor. -/
theorem read_agrees (source : List Char) : D.Agrees σ unspoilt
    (fun σ r ↦ ∀ tokens, r = .ok tokens → D.AllFit σ tokens) (read source) (read source) := by
  intro w w' hw
  cases hread : Lexeme.read source with
  | error e =>
    have hrun : ∀ v : World, (read source).run.run v = (.ok (.error (.of (.unreadable e))), v) := by
      intro v
      simp only [read, hread]
      rfl
    simp only [EvalM.outcome, EvalM.after, hrun]
    exact .inr ⟨σ, le_refl σ, hw, trivial, fun r hr tokens htokens ↦ by cases hr; cases htokens⟩
  | ok units =>
    have hrun : ∀ v : World, (read source).run.run v =
        (.ok (.ok (Reader.ofLexemes v.nextRef units)),
          { v with nextRef := v.nextRef + units.length }) := by
      intro v
      simp only [read, hread]
      rfl
    simp only [EvalM.outcome, EvalM.after, hrun, D.nextRef hw]
    refine .inr ⟨σ, le_refl σ, D.setRef hw _ (Nat.le_add_right _ _), trivial,
      fun r hr tokens h ↦ ?_⟩
    cases hr
    cases h
    exact Reader.allOnly_ofLexemes _ _

theorem evalBy_agrees (rounds : Nat) (hid : D.own σ id) (source : List Char) :
    D.Agrees σ Answer.IsFailed (FitAnswer D) (evalBy ev rounds id source)
      (evalBy ev' rounds id source) := by
  refine (read_agrees source).bind fun σ' hσ r hr ↦ ?_
  cases r with
  | ok tokens => exact evaluateBy_agrees hev rounds (D.own_mono hσ hid) (hr tokens rfl)
  | error f => exact Agrees.pure fun v hv ↦ absurd hv List.not_mem_nil

end Program

end TokenLang

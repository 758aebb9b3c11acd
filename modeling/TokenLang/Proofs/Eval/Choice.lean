import TokenLang.Proofs.Eval.Places
import TokenLang.Proofs.Eval.QuotedCall

/-!
Conditional calls. A condition is evaluated on its own, once, and then the branch that it takes, on
its own and once; the other branch is cut away unread (`SpecialForm.run_branch`). So a conditional
call comes to what the branch comes to, null where there is no value, and whatever stands in place
of the branch that is not taken changes nothing that can be observed (`Program.choice_isolated`).
-/

set_option autoImplicit false
set_option relaxedAutoImplicit false

namespace TokenLang

open Token (WellNested)

namespace SpecialForm

variable (ev : Evaluator) (id : ScopeId)

/-- What a conditional call is to come to: the value of the branch that the condition takes, null
without one, and null if the condition itself leaves no value. -/
def chosen (condition yes no : List Token) : EvalM Token := do
  match ← ev.alone id condition with
  | none => return .null
  | some x =>
    let v ← EvalM.ofExcept x.payload
    return (← ev.alone id (if v.truthy then yes else no)).getD .null

/-- After a condition that came to a value the branches are forms, each in the scope in which it is
come upon: the first one, and, if that is skipped, the second one up to the end. -/
def Cuts (w : World) (condition yes no : List Token) : Prop :=
  ∀ x v, (ev.alone id condition).outcome w = .ok (some x) → x.payload = .ok v →
    let s := ((ev.alone id condition).after w).scope id
    Form.IsForm s.isMarker yes ∧
      (v.truthy = false → no ≠ [] ∧ Form.split s.isMarker no = .ok (no, []))

variable {ev id} {w : World} {condition yes no : List Token}

theorem run_next_getD {args form rest : List Token} (hne : args ≠ [])
    (hsplit : Form.split (w.scope id).isMarker args = .ok (form, rest)) :
    (ev.next id args >>= fun answer ↦ pure [answer.1.getD .null]).run.run w =
      (ev.alone id form >>= fun t ↦ pure [t.getD .null]).run.run w := by
  rw [EvalM.run_bind_of_eq (ev.run_next id hne hsplit), bind_assoc]
  simp only [pure_bind]

/-- The condition is evaluated, and then only the branch that it takes. -/
theorem run_branch (hcondition : Form.IsForm (w.scope id).isMarker condition)
    (hcuts : Cuts ev id w condition yes no) :
    (branch ev id (condition ++ (yes ++ no))).run.run w =
      (chosen ev id condition yes no >>= fun t ↦ pure [t]).run.run w := by
  have hnext := ev.run_next id (w := w) (by simp [hcondition.ne_nil])
    (Form.split_of_isForm hcondition (yes ++ no))
  rw [branch, chosen, EvalM.run_bind_of_eq hnext, bind_assoc, bind_assoc]
  refine EvalM.run_bind_congr fun answer hanswer ↦ ?_
  cases answer with
  | none => rfl
  | some x =>
    simp only [pure_bind, bind_assoc]
    refine EvalM.run_bind_congr fun v hv ↦ ?_
    obtain ⟨hyes, hno⟩ := hcuts x v hanswer hv
    rw [EvalM.after_ofExcept]
    generalize (ev.alone id condition).after w = w' at *
    have hsplit := Form.split_of_isForm hyes no
    have hne : yes ++ no ≠ [] := by simp [hyes.ne_nil]
    cases htruthy : v.truthy with
    | true => exact run_next_getD hne hsplit
    | false =>
      obtain ⟨hnone, hsecond⟩ := hno htruthy
      have hskip : (Prod.snd <$> Evaluator.cut id (yes ++ no)).run.run w' =
          (pure no : EvalM (List Token)).run.run w' := by
        rw [map_eq_pure_bind, EvalM.run_bind, EvalM.outcome, EvalM.after,
          Evaluator.run_cut id hsplit]
      rw [if_neg (by simp [hyes.ne_nil]), if_neg Bool.false_ne_true, EvalM.run_bind_of_eq hskip,
        pure_bind]
      exact run_next_getD hnone hsecond

/-- Only the branch that is taken matters. -/
theorem run_chosen_congr {yes' no' : List Token}
    (h : ∀ x v, (ev.alone id condition).outcome w = .ok (some x) → x.payload = .ok v →
      (if v.truthy then yes else no) = if v.truthy then yes' else no') :
    (chosen ev id condition yes no).run.run w = (chosen ev id condition yes' no').run.run w := by
  refine EvalM.run_bind_congr fun answer hanswer ↦ ?_
  cases answer with
  | none => rfl
  | some x =>
    refine EvalM.run_bind_congr fun v hv ↦ ?_
    rw [h x v hanswer hv]

/-- What a form on its own comes to is complete. -/
theorem isComplete_of_alone {bound : Nat} {form : List Token} {t : Token}
    (h : ((Program.stepWithin bound).alone id form).outcome w = .ok (some t)) :
    t.isComplete = true := by
  obtain ⟨r, hr, h⟩ := EvalM.ok_of_bind h
  cases r with
  | value u rest =>
    cases h
    exact (Program.complete_of_stepWithin hr).isComplete
  | nothing => cases h
  | failed f left => cases h

/-- A conditional call comes to a complete token: null, or the value of a branch. -/
theorem isComplete_of_chosen {bound : Nat} {t : Token}
    (h : (chosen (Program.stepWithin bound) id condition yes no).outcome w = .ok t) :
    t.isComplete = true := by
  obtain ⟨answer, -, h⟩ := EvalM.ok_of_bind h
  cases answer with
  | none =>
    cases h
    rfl
  | some x =>
    obtain ⟨v, -, h⟩ := EvalM.ok_of_bind h
    obtain ⟨answer, hanswer, h⟩ := EvalM.ok_of_bind h
    cases h
    cases answer with
    | none => rfl
    | some y => exact isComplete_of_alone hanswer

end SpecialForm

/-- A scan that a token ends which takes the place of a region. -/
def Scan.conclude (opening : Token) (left rest : List Token) (x : EvalM Token) :
    EvalM Reduction := do
  match ← EvalM.attempt x with
  | .ok t => return .value t rest
  | .error f => return .failed (f.blame opening) left

theorem Scan.run_conclude {opening : Token} {left rest : List Token} {x : EvalM Token} {t : Token}
    {w w' : World} (h : x.run.run w = (.ok t, w')) :
    (conclude opening left rest x).run.run w = (.ok (.value t rest), w') := by
  rw [conclude, EvalM.run_bind, EvalM.outcome_attempt, EvalM.after_attempt, EvalM.outcome,
    EvalM.after, h]
  rfl

theorem Scan.run_resume_of_eq {w : World} {id : ScopeId} {x y : EvalM (List Token)}
    (h : x.run.run w = y.run.run w) (bound : Nat) (opening : Token) (left rest : List Token) :
    (resume bound id opening left rest x).run.run w =
      (resume bound id opening left rest y).run.run w :=
  EvalM.run_bind_of_eq (EvalM.run_attempt_of_eq h) _

/-- What comes to one complete token ends the scan with that token. -/
theorem Scan.run_resume_one {w : World} {id : ScopeId} {bound : Nat} (hbound : bound ≠ 0)
    (opening : Token) (left rest : List Token) {x : EvalM Token}
    (hx : ∀ t, x.outcome w = .ok t → t.isComplete = true) :
    (resume bound id opening left rest (x >>= fun t ↦ pure [t])).run.run w =
      (conclude opening left rest x).run.run w := by
  obtain ⟨bound, rfl⟩ := Nat.exists_eq_succ_of_ne_zero hbound
  rw [resume, conclude, EvalM.run_bind, EvalM.run_bind, EvalM.outcome_attempt, EvalM.after_attempt,
    EvalM.outcome_attempt, EvalM.after_attempt, EvalM.outcome_bind, EvalM.after_bind]
  rcases hend : x.outcome w with (f | _ | _) | t
  · rfl
  · rfl
  · rfl
  · exact run_value (hx t hend) rest 0 bound id _

/-- The buffer that a failure leaves behind is no part of an answer. -/
theorem Program.run_proceed_conclude {w : World} {id : ScopeId} {x y : EvalM Token}
    (h : x.run.run w = y.run.run w) (bound : Nat) (opening : Token)
    (left left' rest : List Token) :
    (proceed bound id (Scan.conclude opening left rest x)).run.run w =
      (proceed bound id (Scan.conclude opening left' rest y)).run.run w := by
  rw [proceed, proceed, Scan.conclude, Scan.conclude, bind_assoc, bind_assoc, bind_assoc,
    bind_assoc, EvalM.run_bind_of_eq (EvalM.run_attempt_of_eq h)]
  refine EvalM.run_bind_congr fun answer _ ↦ ?_
  cases answer <;> rfl

/-- Scopes in which braces are calls of what stands first in them with the rest as written, and the
name of the conditional form has its meaning. -/
structure Scope.Chooses (s : Scope) : Prop where
  braces : s.varying? "\x7b" = some .quotedCall
  choose : ∃ ref pos, s.get? "if" = some (.done (.expander (.special .choose) ref) pos)
  hops : 0 < s.maxHops

theorem World.chooses_new (settings : Settings) :
    ((World.new settings).scope World.root).Chooses where
  braces := World.varying?_brace_new settings
  choose := ⟨38, none, by rw [World.get?_new]; rfl⟩
  hops := by
    rw [World.maxHops_new]
    split_ifs with hzero
    · decide
    · omega

namespace Program

/-- A conditional call in braces. -/
def choice (p p' p'' : Option Position) (condition yes no rest : List Token) : List Token :=
  .opening "\x7b" "" p :: .symbol "if" p' ::
    (condition ++ (yes ++ no) ++ .closing "\x7d" p'' :: rest)

section Choice

variable {w : World} {id : ScopeId} (hw : (w.scope id).Chooses) {condition : List Token}
  (hcondition : Form.IsForm (w.scope id).isMarker condition) (p p' p'' : Option Position)
  (rest : List Token)

include hw hcondition

/-- A conditional call comes to what the branch comes to that its condition takes. -/
theorem stepWithin_choice {yes no : List Token} (hyes : WellNested yes) (hno : WellNested no)
    {bound : Nat} (hbound : 2 ≤ bound)
    (hcuts : SpecialForm.Cuts (stepWithin bound) id w condition yes no) :
    (stepWithin (bound + 2) id (choice p p' p'' condition yes no rest)).run.run w =
      (Scan.conclude (.opening "\x7b" "" p) (choice p p' p'' condition yes no rest) rest
        (SpecialForm.chosen (stepWithin bound) id condition yes no)).run.run w := by
  obtain ⟨ref, pos, hif⟩ := hw.choose
  let callee : Token := .done (.expander (.special .choose) ref) pos
  let args := condition ++ (yes ++ no)
  have hnested : Token.nested [] args = true := by
    rw [Token.nested_append_nil hcondition.nested,
      Token.nested_append_nil (Token.wellNested_iff.mp hyes)]
    exact Token.wellNested_iff.mp hno
  have hcall : ((stepWithin bound).call bound id callee args).run.run w =
      (SpecialForm.chosen (stepWithin bound) id condition yes no >>= fun t ↦ pure [t]).run.run w :=
    SpecialForm.run_branch hcondition hcuts
  have hgap : ((stepWithin bound).call bound id callee args).outcome w ≠
      .error (.missingValue .elsewhere) := by
    intro hmissing
    have hexpand : ((Expander.special .choose).expand (stepWithin bound) bound id args).outcome w =
        .error (.missingValue .elsewhere) := hmissing
    have hmeets : EvalM.Meets (fun _ _ ↦ True) True False (fun _ ↦ True)
        ((Expander.special .choose).expand (stepWithin bound) bound id args) :=
      expander_meets World.admits_true (reliable_stepWithin World.admits_true bound) bound id _ args
    have hallowed := (hmeets w).2
    rw [hexpand] at hallowed
    exact hallowed
  calc (stepWithin (bound + 2) id (choice p p' p'' condition yes no rest)).run.run w
      = (Scan.resume bound id (.opening "\x7b" "" p) (choice p p' p'' condition yes no rest) rest
          ((stepWithin bound).call bound id callee args)).run.run w :=
        stepWithin_braces hif rfl hw.hops hw.braces hnested rfl hbound hgap p p' p'' rest
    _ = _ := Scan.run_resume_of_eq hcall bound _ _ rest
    _ = _ := Scan.run_resume_one (by omega) _ _ rest fun t ht ↦ SpecialForm.isComplete_of_chosen ht

/-- Two conditional calls that come to the same, evaluated in full. -/
theorem evaluateWithin_choice_congr {yes no yes' no' : List Token} {bound : Nat}
    (hyes : WellNested yes) (hno : WellNested no) (hyes' : WellNested yes') (hno' : WellNested no')
    (hcuts : SpecialForm.Cuts (stepWithin (bound + 2)) id w condition yes no)
    (hcuts' : SpecialForm.Cuts (stepWithin (bound + 2)) id w condition yes' no')
    (htaken : ∀ x v, ((stepWithin (bound + 2)).alone id condition).outcome w = .ok (some x) →
      x.payload = .ok v → (if v.truthy then yes else no) = if v.truthy then yes' else no') :
    (evaluateWithin (bound + 4) id (choice p p' p'' condition yes no rest)).run.run w =
      (evaluateWithin (bound + 4) id (choice p p' p'' condition yes' no' rest)).run.run w := by
  have hbound : 2 ≤ bound + 2 := by omega
  rw [evaluateWithin_succ, evaluateWithin_succ,
    run_proceed (stepWithin_choice hw hcondition p p' p'' rest hyes hno hbound hcuts),
    run_proceed (stepWithin_choice hw hcondition p p' p'' rest hyes' hno' hbound hcuts')]
  exact run_proceed_conclude (SpecialForm.run_chosen_congr htaken) _ _ _ _ _

end Choice

/-- Untaken branches and following forms never matter. In braces that call what stands first in
them, the conditional form evaluates its condition on its own and then, if that came to a value, the
branch that is taken; it comes to the value of that branch, or null, or the failure of the one or
the other. With a condition that comes to no falsy value, any well nested tokens may stand for the
second branch; with one that comes to no truthy value, any form for the first: the evaluation of the
whole buffer runs as before. And wherever a form is evaluated on its own, it makes no difference
what comes after it, and that is left as it was. -/
theorem choice_isolated (w : World) (id : ScopeId) :
    ((w.scope id).Chooses → ∀ condition, Form.IsForm (w.scope id).isMarker condition →
      ∀ (p p' p'' : Option Position) (rest : List Token),
      (∀ bound ≥ 2, ∀ yes no, WellNested yes → WellNested no →
        SpecialForm.Cuts (stepWithin bound) id w condition yes no →
        (stepWithin (bound + 2) id (choice p p' p'' condition yes no rest)).run.run w =
          (Scan.conclude (.opening "\x7b" "" p) (choice p p' p'' condition yes no rest) rest
            (SpecialForm.chosen (stepWithin bound) id condition yes no)).run.run w) ∧
      (∀ bound yes no no', WellNested yes → WellNested no → WellNested no' →
        (∀ x v, ((stepWithin (bound + 2)).alone id condition).outcome w = .ok (some x) →
          x.payload = .ok v → v.truthy = true ∧ Form.IsForm
            ((((stepWithin (bound + 2)).alone id condition).after w).scope id).isMarker yes) →
        (evaluateWithin (bound + 4) id (choice p p' p'' condition yes no rest)).run.run w =
          (evaluateWithin (bound + 4) id (choice p p' p'' condition yes no' rest)).run.run w) ∧
      ∀ bound yes yes' no, WellNested yes → WellNested yes' → WellNested no →
        (∀ x v, ((stepWithin (bound + 2)).alone id condition).outcome w = .ok (some x) →
          x.payload = .ok v → v.truthy = false) →
        SpecialForm.Cuts (stepWithin (bound + 2)) id w condition yes no →
        SpecialForm.Cuts (stepWithin (bound + 2)) id w condition yes' no →
        (evaluateWithin (bound + 4) id (choice p p' p'' condition yes no rest)).run.run w =
          (evaluateWithin (bound + 4) id (choice p p' p'' condition yes' no rest)).run.run w) ∧
    ∀ (ev : Evaluator) (form rest : List Token), Form.IsForm (w.scope id).isMarker form →
      (ev.next id (form ++ rest)).run.run w =
        (ev.alone id form >>= fun t ↦ pure (t, rest)).run.run w := by
  refine ⟨fun hw condition hcondition p p' p'' rest ↦ ⟨?_, ?_, ?_⟩, ?_⟩
  · exact fun bound hbound yes no hyes hno hcuts ↦
      stepWithin_choice hw hcondition p p' p'' rest hyes hno hbound hcuts
  · intro bound yes no no' hyes hno hno' htruthy
    have hcuts : ∀ other, SpecialForm.Cuts (stepWithin (bound + 2)) id w condition yes other := by
      intro other x v hx hv
      obtain ⟨htrue, hform⟩ := htruthy x v hx hv
      exact ⟨hform, fun hfalse ↦ absurd (htrue.symm.trans hfalse) (by decide)⟩
    refine evaluateWithin_choice_congr hw hcondition p p' p'' rest hyes hno hyes hno' (hcuts no)
      (hcuts no') fun x v hx hv ↦ ?_
    rw [(htruthy x v hx hv).1]
    rfl
  · intro bound yes yes' no hyes hyes' hno hfalsy hcuts hcuts'
    refine evaluateWithin_choice_congr hw hcondition p p' p'' rest hyes hno hyes' hno hcuts hcuts'
      fun x v hx hv ↦ ?_
    rw [hfalsy x v hx hv]
    rfl
  · intro ev form rest hform
    exact ev.run_next id (by simp [hform.ne_nil]) (Form.split_of_isForm hform rest)

theorem alone_name {w : World} {id : ScopeId} {name : String} {t : Token}
    (hname : (w.scope id).get? name = some t) (ht : t.isComplete = true)
    (hhops : 0 < (w.scope id).maxHops) {bound : Nat} (hbound : 2 ≤ bound) (pos : Option Position) :
    ((stepWithin bound).alone id [.symbol name pos]).run.run w = (.ok (some t), w) := by
  rw [Evaluator.alone, EvalM.run_bind, EvalM.outcome, EvalM.after,
    stepWithin_name hname ht hhops hbound pos []]
  rfl

/-- A condition that holds, in a new world: the call comes to the first branch, whatever the
second. -/
theorem choice_isolated_true :
    let w := World.new ⟨"", false, 0, 1⟩
    let one : Token := .stable (.int 1)
    let two : Token := .stable (.int 2)
    let call : List Token → List Token := fun no ↦
      choice none none none [.symbol "true" none] [one] no []
    (stepWithin 4 World.root (call [two])).run.run w = (.ok (.value one []), w) ∧
      ∀ no, WellNested no → (evaluateWithin 4 World.root (call [two])).run.run w =
        (evaluateWithin 4 World.root (call no)).run.run w := by
  intro w one two call
  have hw : (w.scope World.root).Chooses := World.chooses_new _
  have htrue : (w.scope World.root).get? "true" = some (.stable (.bool true)) :=
    (World.standard_new ⟨"", false, 0, 1⟩ (by decide)).yes
  have hform : Form.IsForm (w.scope World.root).isMarker [.symbol "true" none] :=
    .single rfl (Scope.isMarker_of_isComplete htrue rfl none)
  have halone := alone_name htrue rfl hw.hops (le_refl 2) none
  have htruthy : ∀ x v, ((stepWithin 2).alone World.root [.symbol "true" none]).outcome w =
      .ok (some x) → x.payload = .ok v → v.truthy = true ∧ Form.IsForm
        ((((stepWithin 2).alone World.root [.symbol "true" none]).after w).scope
          World.root).isMarker [one] := by
    intro x v hx hv
    rw [EvalM.outcome, halone] at hx
    cases hx
    cases hv
    exact ⟨rfl, .single rfl rfl⟩
  have hnested : ∀ v, WellNested [.stable v] := fun v ↦ .plain rfl .nil
  have hcuts : SpecialForm.Cuts (stepWithin 2) World.root w [.symbol "true" none] [one] [two] := by
    intro x v hx hv
    obtain ⟨htruth, hone⟩ := htruthy x v hx hv
    exact ⟨hone, fun hfalse ↦ absurd (htruth.symm.trans hfalse) (by decide)⟩
  have hchosen : ∀ u, ((stepWithin 2).alone World.root [.symbol "true" none]).run.run u =
      (.ok (some (.stable (.bool true))), u) → (SpecialForm.chosen (stepWithin 2) World.root
        [.symbol "true" none] [one] [two]).run.run u = (.ok one, u) := by
    intro u hu
    rw [SpecialForm.chosen, EvalM.run_bind, EvalM.outcome, EvalM.after, hu]
    rfl
  obtain ⟨hstep, hyes, -⟩ := (choice_isolated w World.root).1 hw _ hform none none none []
  refine ⟨?_, fun no hno ↦ hyes 0 [one] [two] no (hnested _) (hnested _) hno htruthy⟩
  exact (hstep 2 (le_refl 2) [one] [two] (hnested _) (hnested _) hcuts).trans
    (Scan.run_conclude (hchosen w halone))

/-- A host that defines an operator under the name of the conditional form takes its meaning away:
the condition and both branches are arguments of the operator, as written. -/
theorem choice_rebound :
    let w := ((Session.new ⟨"", false, 0, 1⟩).perform World.root
      (.defineOperator "if" (.primitive .str) ⟨6, false⟩)).world
    let condition : List Token := [.symbol "true" none]
    let one : Token := .stable (.int 1)
    let two : Token := .stable (.int 2)
    Form.IsForm (w.scope World.root).isMarker condition ∧
      Form.IsForm (w.scope World.root).isMarker [one] ∧
      Form.IsForm (w.scope World.root).isMarker [two] ∧
      (∀ bound ≥ 2, ((stepWithin bound).alone World.root condition).run.run w =
        (.ok (some (.stable (.bool true))), w)) ∧
      ∀ bound ≥ 2, (stepWithin (bound + 2) World.root
        (choice none none none condition [one] [two] [])).run.run w =
        (.ok (.value (.stable (.string ":true12")) []), w) := by
  intro w condition one two
  obtain ⟨ref, hscope⟩ :=
    Session.scope_redefined ⟨"", false, 0, 1⟩ "if" (.primitive .str) ⟨6, false⟩
  have hif : (w.scope World.root).get? "if" =
      some (.stable (.function (.renamed "if" (.primitive .str)) ref)) := by
    rw [hscope, Scope.get?_installOperator]
  have htrue : (w.scope World.root).get? "true" = some (.stable (.bool true)) := by
    rw [hscope, Scope.get?_installOperator_of_ne _ (by decide)]
    exact (World.standard_new ⟨"", false, 0, 1⟩ (by decide)).yes
  have hbraces : (w.scope World.root).varying? "\x7b" = some .quotedCall := by
    rw [hscope, Scope.varying?_installOperator_of_ne _ (by decide), World.varying?_brace_new]
  have hhops : 0 < (w.scope World.root).maxHops := by
    rw [hscope, Scope.maxHops_installOperator]
    exact (World.chooses_new _).hops
  have hcondition : Form.IsForm (w.scope World.root).isMarker condition :=
    .single rfl (Scope.isMarker_of_isComplete htrue rfl none)
  have hone : Form.IsForm (w.scope World.root).isMarker [one] := .single rfl rfl
  have htwo : Form.IsForm (w.scope World.root).isMarker [two] := .single rfl rfl
  refine ⟨hcondition, hone, htwo, fun bound hbound ↦ alone_name htrue rfl hhops hbound none,
    fun bound hbound ↦ ?_⟩
  have hforms : ∀ form ∈ [condition, [one], [two]],
      Form.IsForm (w.scope World.root).isMarker form := by
    simp only [List.forall_mem_cons, List.not_mem_nil, false_implies, implies_true, and_true]
    exact ⟨hcondition, hone, htwo⟩
  let callee : Token := .stable (.function (.renamed "if" (.primitive .str)) ref)
  let args : List Token := [condition, [one], [two]].map Form.quote
  have hcomplete : ∀ t ∈ args, t.isComplete = true := by
    simp only [args, List.map_cons, List.forall_mem_cons]
    exact ⟨rfl, rfl, rfl, List.forall_mem_nil _⟩
  have hcall : ∀ u, ((stepWithin bound).call bound World.root callee args).run.run u =
      (.ok [.stable (.string ":true12")], u) := fun u ↦ rfl
  obtain ⟨more, rfl⟩ := Nat.exists_eq_add_of_le' hbound
  exact (stepWithin_braces hif rfl hhops hbraces (Form.nested_flatten hforms)
    (Varying.run_asWritten_function hforms rfl) hbound (outcome_call_ne_missing hcomplete _)
    none none none []).trans (Scan.run_resume rfl (hcall w))

end Program

end TokenLang

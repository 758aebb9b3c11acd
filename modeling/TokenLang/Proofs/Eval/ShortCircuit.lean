import TokenLang.Proofs.Eval.Choice

/-!
Calls that stop at a truth value. Forms are evaluated on their own, one after the other, until one
comes to a value that decides the call; otherwise the last value stands for it. A form that leaves
no value is to be passed over, but the call ends at it with the last value before it, and the forms
after it are not evaluated (`SpecialForm.run_untilTruth`). So a call does as it should if no form
before the last one leaves no value (`Program.connective_decided`), and else it need not
(`Program.connective_breaks_off`).
-/

set_option autoImplicit false
set_option relaxedAutoImplicit false

namespace TokenLang

open Token (WellNested)

namespace SpecialForm

variable (ev : Evaluator) (id : ScopeId) (stop : Bool)

/-- What forms come to, one after the other and each on its own: the first value that is as truthy
as `stop` says, otherwise the last value that there was. With `breaks`, a form that leaves no value
ends the evaluation; without, it is passed over. -/
def decided (breaks : Bool) : Token → List (List Token) → EvalM Token
  | last, [] => return last
  | last, form :: forms => do
    match ← ev.alone id form with
    | none => if breaks then return last else decided breaks last forms
    | some t =>
      if (← EvalM.ofExcept t.payload).truthy == stop then return t
      else decided breaks t forms

/-- A property of each form that is come upon, after forms that left values which did not stop the
evaluation. -/
def Along (P : World → List Token → List (List Token) → Prop) : World → List (List Token) → Prop
  | _, [] => True
  | w, form :: forms => P w form forms ∧
    ∀ t v, (ev.alone id form).outcome w = .ok (some t) → t.payload = .ok v → v.truthy ≠ stop →
      Along P ((ev.alone id form).after w) forms

/-- Each is a form in the scope in which it is come upon. -/
def CutsEach : World → List (List Token) → Prop :=
  Along ev id stop fun w form _ ↦ Form.IsForm (w.scope id).isMarker form

/-- Only the last form, if any, is come upon and leaves no value. -/
def LeavesEach : World → List (List Token) → Prop :=
  Along ev id stop fun w form forms ↦ (ev.alone id form).outcome w = .ok none → forms = []

variable {ev id stop}

theorem run_decided_none {form : List Token} {w w' : World}
    (h : (ev.alone id form).run.run w = (.ok none, w')) (breaks : Bool) (last : Token)
    (forms : List (List Token)) : (decided ev id stop breaks last (form :: forms)).run.run w =
      (if breaks then pure last else decided ev id stop breaks last forms).run.run w' := by
  rw [decided, EvalM.run_bind, EvalM.outcome, EvalM.after, h]

theorem run_decided_some {form : List Token} {w w' : World} {t : Token} {v : Value}
    (h : (ev.alone id form).run.run w = (.ok (some t), w')) (hv : t.payload = .ok v) (breaks : Bool)
    (last : Token) (forms : List (List Token)) :
    (decided ev id stop breaks last (form :: forms)).run.run w =
      (if v.truthy == stop then pure t else decided ev id stop breaks t forms).run.run w' := by
  rw [decided, EvalM.run_bind, EvalM.outcome, EvalM.after, h]
  dsimp only
  rw [hv]
  rfl

/-- The forms are evaluated up to the one that decides, or that leaves no value. -/
theorem run_untilTruth {forms : List (List Token)} {w : World} (hcuts : CutsEach ev id stop w forms)
    {fuel : Nat} (hfuel : forms.flatten.length < fuel) (last : Token) :
    (untilTruth ev id stop fuel last forms.flatten).run.run w =
      (decided ev id stop true last forms >>= fun t ↦ pure [t]).run.run w := by
  induction forms generalizing w fuel last with
  | nil =>
    obtain ⟨fuel, rfl⟩ := Nat.exists_eq_succ_of_ne_zero (Nat.ne_zero_of_lt hfuel)
    rfl
  | cons form forms ih =>
    obtain ⟨fuel, rfl⟩ := Nat.exists_eq_succ_of_ne_zero (Nat.ne_zero_of_lt hfuel)
    obtain ⟨hform, hrest⟩ := hcuts
    have hnext := ev.run_next id (w := w) (by simp [hform.ne_nil])
      (Form.split_of_isForm hform forms.flatten)
    rw [List.flatten_cons, untilTruth, decided, EvalM.run_bind_of_eq hnext, bind_assoc, bind_assoc]
    refine EvalM.run_bind_congr fun answer hanswer ↦ ?_
    cases answer with
    | none => rfl
    | some t =>
      simp only [pure_bind, bind_assoc]
      refine EvalM.run_bind_congr fun v hv ↦ ?_
      rw [EvalM.after_ofExcept]
      split_ifs with hstop
      · rfl
      · have hlength : 0 < form.length := List.length_pos_iff.mpr hform.ne_nil
        rw [List.flatten_cons, List.length_append] at hfuel
        exact ih (hrest t v hanswer hv (by simpa using hstop)) (by omega) t

/-- Where no form but the last leaves no value, it does not matter what such a form does. -/
theorem run_decided_of_leavesEach {forms : List (List Token)} {w : World}
    (h : LeavesEach ev id stop w forms) (last : Token) :
    (decided ev id stop true last forms).run.run w =
      (decided ev id stop false last forms).run.run w := by
  induction forms generalizing w last with
  | nil => rfl
  | cons form forms ih =>
    obtain ⟨hform, hrest⟩ := h
    rw [decided, decided]
    refine EvalM.run_bind_congr fun answer hanswer ↦ ?_
    cases answer with
    | none =>
      obtain rfl := hform hanswer
      rfl
    | some t =>
      refine EvalM.run_bind_congr fun v hv ↦ ?_
      rw [EvalM.after_ofExcept]
      split_ifs with hstop
      · rfl
      · exact ih (hrest t v hanswer hv (by simpa using hstop)) t

/-- A connective comes to a complete token: the last value, or the one it stops at. -/
theorem isComplete_of_decided {bound : Nat} {breaks : Bool} {forms : List (List Token)} {w : World}
    {last t : Token} (hlast : last.isComplete = true)
    (h : (decided (Program.stepWithin bound) id stop breaks last forms).outcome w = .ok t) :
    t.isComplete = true := by
  induction forms generalizing w last with
  | nil =>
    cases h
    exact hlast
  | cons form forms ih =>
    obtain ⟨answer, hanswer, h⟩ := EvalM.ok_of_bind h
    cases answer with
    | none =>
      cases breaks with
      | true =>
        cases h
        exact hlast
      | false => exact ih hlast h
    | some u =>
      have hu := isComplete_of_alone hanswer
      obtain ⟨v, -, h⟩ := EvalM.ok_of_bind h
      split_ifs at h with hstop
      · cases h
        exact hu
      · exact ih hu h

/-- The form that stops at a truth value. -/
def connective (stop : Bool) : SpecialForm := if stop then .or else .and

theorem connective_expand (ev : Evaluator) (fuel : Nat) (id : ScopeId) (stop : Bool)
    (args : List Token) : (connective stop).expand ev fuel id args =
      untilTruth ev id stop (args.length + 1) (.stable (.bool !stop)) args := by
  cases stop <;> rfl

end SpecialForm

/-- Scopes in which braces are calls of what stands first in them with the rest as written, and the
names of the forms that stop at a truth value have their meanings. -/
structure Scope.Connects (s : Scope) : Prop where
  braces : s.varying? "\x7b" = some .quotedCall
  connective : ∀ stop, ∃ ref pos, s.get? (SpecialForm.connective stop).name =
    some (.done (.expander (.special (SpecialForm.connective stop)) ref) pos)
  hops : 0 < s.maxHops

theorem World.connects_new (settings : Settings) :
    ((World.new settings).scope World.root).Connects where
  braces := World.varying?_brace_new settings
  connective stop := by
    cases stop with
    | false => exact ⟨39, none, World.get?_new settings "and"⟩
    | true => exact ⟨40, none, World.get?_new settings "or"⟩
  hops := (World.chooses_new settings).hops

namespace Program

/-- A call in braces of a form that stops at a truth value. -/
def connectiveCall (stop : Bool) (p p' p'' : Option Position) (forms : List (List Token))
    (rest : List Token) : List Token :=
  .opening "\x7b" "" p :: .symbol (SpecialForm.connective stop).name p' ::
    (forms.flatten ++ .closing "\x7d" p'' :: rest)

theorem outcome_special_ne_missing {w : World} {id : ScopeId} (form : SpecialForm)
    (args : List Token) (bound : Nat) :
    (form.expand (stepWithin bound) bound id args).outcome w ≠
      .error (.missingValue .elsewhere) := by
  intro hmissing
  have hmeets : EvalM.Meets (fun _ _ ↦ True) True False (fun _ ↦ True)
      ((Expander.special form).expand (stepWithin bound) bound id args) :=
    expander_meets World.admits_true (reliable_stepWithin World.admits_true bound) bound id _ args
  have hallowed := (hmeets w).2
  rw [show ((Expander.special form).expand (stepWithin bound) bound id args).outcome w =
    .error (.missingValue .elsewhere) from hmissing] at hallowed
  exact hallowed

theorem nested_flatten_of_wellNested {forms : List (List Token)}
    (h : ∀ form ∈ forms, WellNested form) : Token.nested [] forms.flatten = true := by
  induction forms with
  | nil => rfl
  | cons form forms ih =>
    obtain ⟨hform, hforms⟩ := List.forall_mem_cons.mp h
    rw [List.flatten_cons, Token.nested_append_nil (Token.wellNested_iff.mp hform)]
    exact ih hforms

/-- A connective in braces comes to what its forms decide, evaluated one after the other up to the
first that decides. -/
theorem stepWithin_connective {w : World} {id : ScopeId} (hw : (w.scope id).Connects) {stop : Bool}
    {forms : List (List Token)} (hforms : ∀ form ∈ forms, WellNested form) {bound : Nat}
    (hbound : 2 ≤ bound) (hcuts : SpecialForm.CutsEach (stepWithin bound) id stop w forms)
    (p p' p'' : Option Position) (rest : List Token) :
    (stepWithin (bound + 2) id (connectiveCall stop p p' p'' forms rest)).run.run w =
      (Scan.conclude (.opening "\x7b" "" p) (connectiveCall stop p p' p'' forms rest) rest
        (SpecialForm.decided (stepWithin bound) id stop true (.stable (.bool !stop))
          forms)).run.run w := by
  obtain ⟨ref, pos, hname⟩ := hw.connective stop
  let callee : Token := .done (.expander (.special (SpecialForm.connective stop)) ref) pos
  have hcall : ((stepWithin bound).call bound id callee forms.flatten).run.run w =
      (SpecialForm.decided (stepWithin bound) id stop true (.stable (.bool !stop)) forms >>=
        fun t ↦ pure [t]).run.run w := by
    show ((SpecialForm.connective stop).expand (stepWithin bound) bound id
      forms.flatten).run.run w = _
    rw [SpecialForm.connective_expand]
    exact SpecialForm.run_untilTruth hcuts (Nat.lt_succ_self _) _
  calc (stepWithin (bound + 2) id (connectiveCall stop p p' p'' forms rest)).run.run w
      = (Scan.resume bound id (.opening "\x7b" "" p) (connectiveCall stop p p' p'' forms rest) rest
          ((stepWithin bound).call bound id callee forms.flatten)).run.run w :=
        stepWithin_braces hname rfl hw.hops hw.braces (nested_flatten_of_wellNested hforms) rfl
          hbound (outcome_special_ne_missing _ _ bound) p p' p'' rest
    _ = _ := Scan.run_resume_of_eq hcall bound _ _ rest
    _ = _ := Scan.run_resume_one (by omega) _ _ rest fun t ht ↦
        SpecialForm.isComplete_of_decided rfl ht

/-- Calls that stop at a truth value stop at the first form that decides them, or that leaves no
value. In braces that call what stands first in them, the forms are evaluated from left to right,
each once and on its own; the first value that is truthy, for the one name, or falsy, for the other,
is what the call comes to, and a failure is its failure. The forms after that are not evaluated.
Where all are, the call comes to the last value, or to the truth value that does not stop it if
there was none. A form that leaves no value is passed over just if it is the last one: at any
other the call ends with the last value before it. -/
theorem connective_decided {w : World} {id : ScopeId} (hw : (w.scope id).Connects) (stop : Bool)
    {forms : List (List Token)} (hforms : ∀ form ∈ forms, WellNested form) {bound : Nat}
    (hbound : 2 ≤ bound) (hcuts : SpecialForm.CutsEach (stepWithin bound) id stop w forms)
    (p p' p'' : Option Position) (rest : List Token) :
    let opening : Token := .opening "\x7b" "" p
    let call := connectiveCall stop p p' p'' forms rest
    let value : Bool → EvalM Token := fun breaks ↦
      SpecialForm.decided (stepWithin bound) id stop breaks (.stable (.bool !stop)) forms
    (stepWithin (bound + 2) id call).run.run w =
        (Scan.conclude opening call rest (value true)).run.run w ∧
      (SpecialForm.LeavesEach (stepWithin bound) id stop w forms →
        (stepWithin (bound + 2) id call).run.run w =
          (Scan.conclude opening call rest (value false)).run.run w) := by
  intro opening call value
  have hstep := stepWithin_connective hw hforms hbound hcuts p p' p'' rest
  refine ⟨hstep, fun hleaves ↦ hstep.trans ?_⟩
  exact EvalM.run_bind_of_eq
    (EvalM.run_attempt_of_eq (SpecialForm.run_decided_of_leavesEach hleaves _)) _

/-- Two names that are bound to truth values, in a new world: the first holds, and the call comes to
the second. -/
theorem connective_decided_names :
    let w := World.new ⟨"", false, 0, 1⟩
    let yes : List Token := [.symbol "true" none]
    let no : List Token := [.symbol "false" none]
    (stepWithin 4 World.root (connectiveCall false none none none [yes, no] [])).run.run w =
      (.ok (.value (.stable (.bool false)) []), w) := by
  intro w yes no
  have hw : (w.scope World.root).Connects := World.connects_new _
  have hs : (w.scope World.root).Standard := World.standard_new ⟨"", false, 0, 1⟩ (by decide)
  have hyes : ((stepWithin 2).alone World.root yes).run.run w =
      (.ok (some (.stable (.bool true))), w) := alone_name hs.yes rfl hw.hops (le_refl 2) none
  have hno : ((stepWithin 2).alone World.root no).run.run w =
      (.ok (some (.stable (.bool false))), w) := alone_name hs.no rfl hw.hops (le_refl 2) none
  have halong : ∀ P : World → List Token → List (List Token) → Prop, P w yes [no] → P w no [] →
      SpecialForm.Along (stepWithin 2) World.root false P w [yes, no] := by
    intro P hP hP'
    refine ⟨hP, fun t v ht hv hstop ↦ ?_⟩
    rw [EvalM.after, hyes]
    exact ⟨hP', fun _ _ _ _ _ ↦ trivial⟩
  have hforms : ∀ form ∈ [yes, no], WellNested form := by
    simp only [List.forall_mem_cons]
    exact ⟨.plain rfl .nil, .plain rfl .nil, List.forall_mem_nil _⟩
  have hcuts : SpecialForm.CutsEach (stepWithin 2) World.root false w [yes, no] :=
    halong _ (.single rfl (Scope.isMarker_of_isComplete hs.yes rfl none))
      (.single rfl (Scope.isMarker_of_isComplete hs.no rfl none))
  have hleaves : SpecialForm.LeavesEach (stepWithin 2) World.root false w [yes, no] := by
    refine halong _ (fun hnone ↦ ?_) fun _ ↦ rfl
    rw [EvalM.outcome, hyes] at hnone
    cases hnone
  obtain ⟨-, hdecided⟩ := connective_decided hw false hforms (le_refl 2) hcuts none none none []
  refine (hdecided hleaves).trans (Scan.run_conclude ?_)
  rw [SpecialForm.run_decided_some hyes rfl, if_neg (by decide),
    SpecialForm.run_decided_some hno rfl]
  rfl

/-- An empty call leaves no value. -/
theorem alone_vanished {w : World} {id : ScopeId} (hw : (w.scope id).varying? "(" = some .call)
    {bound : Nat} (hbound : 3 ≤ bound) (p p' : Option Position) :
    ((stepWithin bound).alone id [.opening "(" "" p, .closing ")" p']).run.run w =
      (.ok none, w) := by
  have hv : ((w.scope id).varying? "").or ((w.scope id).varying? "(") = some .call := by
    rw [hw]
    rfl
  have hopen : Scan.Quiet w id ⟨[], [.opening "(" "" p, .closing ")" p'], 0⟩
      ⟨[.start (.opening "(" "" p)], [.closing ")" p'], 0⟩ :=
    Scan.quiet_open (by decide) (by decide) "" p
  have hclose : Scan.Quiet w id ⟨[.start (.opening "(" "" p)], [.closing ")" p'], 0⟩
      ⟨[], [], 0⟩ :=
    Scan.quiet_close [] (by decide)
      (Token.closesWith_of_faces (by decide) (by decide) (by decide) "" _ _)
      fun ev fuel ↦ Evaluator.close_of_apply ev fuel hv rfl
  obtain ⟨more, rfl⟩ := Nat.exists_eq_add_of_le' hbound
  have hrun : (stepWithin (more + 3) id [.opening "(" "" p, .closing ")" p']).run.run w =
      (.ok .nothing, w) := by
    rw [stepWithin, Scan.start, Scan.run_succ_of_quiet hopen, Scan.run_succ_of_quiet hclose]
    rfl
  rw [Evaluator.alone, EvalM.run_bind, EvalM.outcome, EvalM.after, hrun]
  rfl

/-- A form that leaves no value in front of one that comes to false, in a new world: passing it over
would give false, but the call ends at it and comes to true. -/
theorem connective_breaks_off :
    let w := World.new ⟨"", false, 0, 1⟩
    let gone : List Token := [.opening "(" "" none, .closing ")" none]
    let no : List Token := [.symbol "false" none]
    ∀ bound ≥ 3, ((stepWithin bound).alone World.root gone).run.run w = (.ok none, w) ∧
      ((stepWithin bound).alone World.root no).run.run w =
        (.ok (some (.stable (.bool false))), w) ∧
      (SpecialForm.decided (stepWithin bound) World.root false false (.stable (.bool true))
        [gone, no]).run.run w = (.ok (.stable (.bool false)), w) ∧
      (stepWithin (bound + 2) World.root
        (connectiveCall false none none none [gone, no] [])).run.run w =
        (.ok (.value (.stable (.bool true)) []), w) := by
  intro w gone no bound hbound
  have hw : (w.scope World.root).Connects := World.connects_new _
  have hs : (w.scope World.root).Standard := World.standard_new ⟨"", false, 0, 1⟩ (by decide)
  have hgone : ((stepWithin bound).alone World.root gone).run.run w = (.ok none, w) :=
    alone_vanished (World.callsInParens_new _).varying hbound none none
  have hno : ((stepWithin bound).alone World.root no).run.run w =
      (.ok (some (.stable (.bool false))), w) := alone_name hs.no rfl hw.hops (by omega) none
  have hgone' : WellNested ([.opening "(" "" none] ++ ([] ++ [.closing ")" none])) :=
    .region rfl rfl .nil .nil
  have hform : Form.IsForm (w.scope World.root).isMarker
      ([.opening "(" "" none] ++ ([] ++ [.closing ")" none])) := .region rfl rfl .nil
  refine ⟨hgone, hno, ?_, ?_⟩
  · rw [SpecialForm.run_decided_none hgone, if_neg Bool.false_ne_true,
      SpecialForm.run_decided_some hno rfl]
    rfl
  · have hforms : ∀ form ∈ [gone, no], WellNested form := by
      simp only [List.forall_mem_cons]
      exact ⟨hgone', .plain rfl .nil, List.forall_mem_nil _⟩
    have hcuts : SpecialForm.CutsEach (stepWithin bound) World.root false w [gone, no] := by
      refine ⟨hform, fun t v ht ↦ ?_⟩
      rw [EvalM.outcome, hgone] at ht
      cases ht
    refine (stepWithin_connective hw hforms (by omega) hcuts none none none []).trans
      (Scan.run_conclude ?_)
    rw [SpecialForm.run_decided_none hgone]
    rfl

end Program

end TokenLang

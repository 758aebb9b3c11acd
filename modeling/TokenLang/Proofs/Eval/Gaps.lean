import TokenLang.Proofs.Eval.Parts

/-!
Values that are missing. An evaluation asks for the value of a token that has none in two places
only: where a region that was left as written is given to a map, to a set or to a call, and where
a name is counted whose binding has no value (`eval_gap_known`). Both are reached, and there the
condition is exact: a map stops at a key without a value and a set at a member without one
(`Entry.putAll_eq_missing_iff`, `Token.addMembers_eq_missing_iff`), and a count at a counter
without one (`ArithOp.fold_eq_missing_iff`).
-/

set_option autoImplicit false
set_option relaxedAutoImplicit false

namespace TokenLang

/-! ### Where a value is missing -/

theorem Token.payload_eq_missing_iff (t : Token) :
    t.payload = .error (.missingValue .elsewhere) ↔ t.value? = none := by
  unfold Token.payload
  split <;> simp_all

theorem Token.exists_payload_eq_ok {t : Token} (h : t.value? ≠ none) : ∃ v, t.payload = .ok v := by
  obtain ⟨v, hv⟩ := Option.ne_none_iff_exists'.mp h
  exact ⟨v, by rw [Token.payload, hv]⟩

section Missing

variable {α β : Type}

/-- A token without a value stops what asks for it, and any other lets it go on. -/
theorem Token.payload_bind_eq_missing_iff (t : Token) (f : Value → Except Stop α) {P : Prop}
    (h : ∀ v, f v = .error (.missingValue .elsewhere) ↔ P) :
    (t.payload >>= f) = .error (.missingValue .elsewhere) ↔ t.value? = none ∨ P := by
  by_cases ht : t.value? = none
  · rw [(t.payload_eq_missing_iff).mpr ht]
    exact iff_of_true rfl (.inl ht)
  · obtain ⟨v, hv⟩ := t.exists_payload_eq_ok ht
    rw [hv, or_iff_right ht]
    exact h v

theorem bind_pure_eq_missing_iff (x : Except Stop α) (f : α → β) (gap : Gap) :
    (x >>= fun a ↦ pure (f a)) = .error (.missingValue gap) ↔ x = .error (.missingValue gap) := by
  cases x with
  | ok a => exact iff_of_false (fun h ↦ by cases h) fun h ↦ by cases h
  | error stop =>
    constructor
    · intro h
      cases h
      rfl
    · intro h
      cases h
      rfl

end Missing

/-- A map stops exactly at a key without a value. -/
theorem Entry.putAll_eq_missing_iff (entries : List Entry) (args : List Token) :
    Entry.putAll entries args = .error (.missingValue .elsewhere) ↔ Varying.map.Lacks args := by
  rw [Entry.putAll, bind_pure_eq_missing_iff]
  show _ ↔ ∃ t ∈ Token.keysIn args, t.value? = none
  generalize Entry.keyed entries = k
  induction args using Token.keysIn.induct generalizing k with
  | case1 => simp [Entry.putFrom, Token.keysIn]
  | case2 key =>
    rw [Entry.putFrom, Token.payload_bind_eq_missing_iff key _ (P := False) fun v ↦
      iff_of_false (fun h ↦ by cases h) id]
    simp [Token.keysIn]
  | case3 key value rest ih =>
    rw [Entry.putFrom, Token.payload_bind_eq_missing_iff key _ fun v ↦ ih _]
    simp [Token.keysIn]

/-- A set stops exactly at a member without a value. -/
theorem Token.addMembers_eq_missing_iff (members args : List Token) :
    Token.addMembers members args = .error (.missingValue .elsewhere) ↔
      Varying.set.Lacks args := by
  rw [Token.addMembers, bind_pure_eq_missing_iff]
  show _ ↔ ∃ t ∈ args, t.value? = none
  generalize Token.keyed members = k
  induction args generalizing k with
  | nil => simp [Token.addFrom]
  | cons t rest ih =>
    rw [Token.addFrom, Token.payload_bind_eq_missing_iff t _ fun v ↦ ih _]
    simp

/-- A fold of a counter and an amount stops exactly when the counter has no value. -/
theorem ArithOp.fold_eq_missing_iff (op : ArithOp) (strict : Bool) (counter amount : Token)
    (hamount : amount.value?.isSome = true) :
    op.fold strict [counter, amount] = .error (.missingValue .elsewhere) ↔
      counter.value? = none := by
  constructor
  · intro h
    by_contra hcounter
    have hvalued : Valued False [counter, amount] := .inl fun t ht ↦ by
      rcases List.mem_pair.mp ht with rfl | rfl
      · exact Option.isSome_iff_ne_none.mpr hcounter
      · exact hamount
    exact (answers_fold strict op hvalued _ h).1
  · intro h
    have hpayload := (counter.payload_eq_missing_iff).mpr h
    show (do ArithOp.foldFrom strict op (← op.operandOf strict counter) [amount]) = _
    rw [ArithOp.operandOf, hpayload]
    rfl

/-- A call of a token without a value, with anything after it. -/
theorem Evaluator.outcome_call_of_value?_eq_none (ev : Evaluator) (fuel : Nat) (id : ScopeId)
    {callee : Token} (h : callee.value? = none) (first : Token) (rest : List Token) (w : World) :
    (ev.call fuel id callee (first :: rest)).outcome w = .error (.missingValue .elsewhere) := by
  have hpayload := (callee.payload_eq_missing_iff).mpr h
  have hcall : ev.call fuel id callee (first :: rest) =
      ev.callMethod fuel id callee first rest := by
    unfold Evaluator.call
    split
    · cases h
    · cases h
    · contradiction
    · simp_all
  rw [hcall, Evaluator.callMethod, hpayload]
  rfl

/-! ### Closing a region -/

/-- A missing value comes out of a region with the place of the region. -/
theorem EvalM.outcome_blaming_locating {α : Type} (t : Token) (gap : Gap) (x : EvalM α)
    (w : World) : (blaming t (locating gap x)).outcome w =
      match x.outcome w with
      | .ok a => .ok a
      | .error (.failed f) => .error (.failed (f.blame t))
      | .error (.missingValue .elsewhere) => .error (.missingValue gap)
      | .error stop => .error stop := by
  rw [blaming, outcome_bind, outcome_attempt, outcome_locating]
  rcases x.outcome w with (f | (_ | _ | _) | _) | a <;> rfl

theorem EvalM.ofExcept_bind_pure {α β : Type} (x : Except Stop α) (f : α → β) :
    (ofExcept x >>= fun a ↦ pure (f a)) = ofExcept (x >>= fun a ↦ pure (f a)) := by
  cases x <;> rfl

/-- A collection is made of a region without effects, and stops only where an item that has to
have a value has none. -/
theorem Varying.exists_apply_eq (ev : Evaluator) (fuel : Nat) (id : ScopeId) (opening : Token)
    (inside : List Token) {v : Varying} (hkind : v = .map ∨ v = .set) :
    ∃ x : Except Stop (List Token),
      v.apply ev fuel id (.bracketed opening inside) = EvalM.ofExcept x ∧
      (x = .error (.missingValue .elsewhere) ↔ v.Lacks inside) ∧
      (¬ v.Lacks inside → Answers False x) := by
  rcases hkind with rfl | rfl
  · refine ⟨_, EvalM.ofExcept_bind_pure _ _, ?_, fun hlacks ↦ ?_⟩
    · rw [bind_pure_eq_missing_iff, Entry.putAll_eq_missing_iff]
      rfl
    · refine (answers_putAll [] (.inl fun t ht ↦ ?_)).bind fun _ ↦ Answers.ok _
      exact Option.isSome_iff_ne_none.mpr fun hnone ↦ hlacks ⟨t, ht, hnone⟩
  · refine ⟨_, EvalM.ofExcept_bind_pure _ _, ?_, fun hlacks ↦ ?_⟩
    · rw [bind_pure_eq_missing_iff, Token.addMembers_eq_missing_iff]
      rfl
    · refine (answers_addMembers [] (.inl fun t ht ↦ ?_)).bind fun _ ↦ Answers.ok _
      exact Option.isSome_iff_ne_none.mpr fun hnone ↦ hlacks ⟨t, ht, hnone⟩

/-- Closing a region that becomes a map or a set comes upon a gap in it exactly when an item that
has to have a value has none. -/
theorem Evaluator.outcome_close_eq_gap_iff (ev : Evaluator) (fuel : Nat) (id : ScopeId)
    (w : World) (opening : Token) (inside : List Token) {v : Varying}
    (hv : ((w.scope id).varying? opening.mode).or ((w.scope id).varying? opening.bracket) =
      some v) (hkind : v = .map ∨ v = .set) :
    (ev.close fuel id opening inside).outcome w =
        .error (.missingValue (.region v opening inside)) ↔ v.Lacks inside := by
  obtain ⟨x, hx, hmissing, hanswers⟩ :=
    Varying.exists_apply_eq ev fuel id opening inside hkind
  have hclose : (ev.close fuel id opening inside).outcome w =
      (EvalM.blaming opening (EvalM.locating (.region v opening inside)
        (EvalM.ofExcept x))).outcome w := by
    rw [Evaluator.close, EvalM.outcome_bind, EvalM.outcome_scope, EvalM.after_scope]
    dsimp only
    rw [hv]
    dsimp only
    rw [hx]
  rw [hclose, EvalM.outcome_blaming_locating, EvalM.outcome_ofExcept]
  constructor
  · intro h
    by_contra hlacks
    have hallowed := hanswers hlacks
    split at h
    · cases h
    · cases h
    · exact (hallowed _ rfl).1
    · cases h
      exact hlacks (hallowed _ rfl).1.2
  · intro h
    rw [hmissing.mpr h]

/-! ### Whole evaluations -/

theorem Program.exists_outcome_read (source : List Char) (w : World) :
    ∃ answer, (Program.read source).outcome w = .ok answer := by
  show ∃ answer, Except.ok (Prod.fst _) = Except.ok answer
  exact ⟨_, rfl⟩

/-- A whole evaluation from the root never stops over a missing value. -/
theorem Program.evalWithin_meets (bound : Nat) (source : List Char) :
    EvalM.Meets (fun _ _ ↦ True) False False (fun _ ↦ True)
      (Program.evalWithin bound World.root source) := by
  have hR := World.admits_true
  have hread : EvalM.Meets (fun _ _ ↦ True) False False (fun _ ↦ True) (Program.read source) := by
    intro w
    obtain ⟨answer, hanswer⟩ := Program.exists_outcome_read source w
    rw [hanswer]
    exact ⟨trivial, trivial⟩
  refine hR.bind hread fun answer _ ↦ ?_
  cases answer with
  | ok tokens =>
    exact hR.bind (collect_meets hR (reliable_stepWithin hR bound) World.root bound [] tokens)
      fun answer _ ↦ hR.pure trivial
  | error f => exact hR.pure trivial

/-- How a run may end: with an answer, at the bound on its steps, or at a gap of a known kind. -/
def EndsKnown {α : Type} : Except Stop α → Prop
  | .ok _ => True
  | .error stop => stop = .exhausted ∨ ∃ gap, stop = .missingValue gap ∧ gap.Known

theorem endsKnown_of_meets {α : Type} {R : World → World → Prop} {P : α → Prop} {x : EvalM α}
    (h : EvalM.Meets R False False P x) (w : World) : EndsKnown (x.outcome w) := by
  have hend := (h w).2
  rcases hx : x.outcome w with (f | gap | _) | a
  · rw [hx] at hend
    exact False.elim hend
  · rw [hx] at hend
    refine .inr ⟨gap, rfl, ?_⟩
    cases gap <;> exact hend
  · exact .inl rfl
  · trivial

/-- Every evaluation of a text in a new world comes to an answer unless it stops at a known gap,
and known gaps stop an evaluation: a map or a set made of a region as written where a key or a
member has no value, a counter without a value, and a token without a value that is called. -/
theorem eval_gap_known (settings : Settings) (bound : Nat) (source : List Char) :
    EndsKnown ((Program.evalWithin bound World.root source).outcome (World.new settings)) ∧
    (∀ (ev : Evaluator) (fuel : Nat) (id : ScopeId) (w : World) (opening : Token)
      (inside : List Token) (v : Varying),
      ((w.scope id).varying? opening.mode).or ((w.scope id).varying? opening.bracket) = some v →
      v = .map ∨ v = .set → ((ev.close fuel id opening inside).outcome w =
        .error (.missingValue (.region v opening inside)) ↔ v.Lacks inside)) ∧
    (∀ (strict : Bool) (op : ArithOp) (counter amount : Token), amount.value?.isSome = true →
      (op.fold strict [counter, amount] = .error (.missingValue .elsewhere) ↔
        counter.value? = none)) ∧
    (∀ (ev : Evaluator) (fuel : Nat) (id : ScopeId) (callee first : Token) (rest : List Token)
      (w : World), callee.value? = none → (ev.call fuel id callee (first :: rest)).outcome w =
        .error (.missingValue .elsewhere)) := by
  refine ⟨endsKnown_of_meets (Program.evalWithin_meets bound source) _, ?_, ?_, ?_⟩
  · intro ev fuel id w opening inside v hv hkind
    exact ev.outcome_close_eq_gap_iff fuel id w opening inside hv hkind
  · intro strict op counter amount hamount
    exact op.fold_eq_missing_iff strict counter amount hamount
  · intro ev fuel id callee first rest w hcallee
    exact ev.outcome_call_of_value?_eq_none fuel id hcallee first rest w

/-- Whether a run stopped at a gap. -/
def stoppedAtGap {α : Type} : Except Stop α → Bool
  | .error (.missingValue _) => true
  | _ => false

/-- Gaps of both kinds are reached: a map, a set and a call made of regions as written, and a
count of a parameter that is bound to an unknown name. -/
theorem eval_gap_reached : (["#map\x7ba 1\x7d", "#set\x7ba\x7d",
    "\x7bdef call @#sym'('\x7d #call\x7ba b\x7d",
    "\x7bdefmacro m [x] \x7b++ x\x7d\x7d \x7bm y\x7d"].all fun text ↦
      stoppedAtGap ((Program.evalWithin 30 World.root text.toList).outcome
        (World.new ⟨"", false, 0, 1⟩))) = true := by
  decide +kernel

end TokenLang

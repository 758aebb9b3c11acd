import TokenLang.Proofs.Eval.Contract

/-!
Steps of a scan. There are four kinds after which a scan goes on (`Scan.advances_of_more`) and
three ways to end (`Scan.endsAs_of_over`), and what holds across every step is read off them.

Some steps leave the world as it is and evaluate nothing else on the way. Each way to take such a
step has its lemma, and a run goes through any number of them (`Scan.run_of_reaches`).
-/

set_option autoImplicit false
set_option relaxedAutoImplicit false

namespace TokenLang.Scan

/-! ### What a step comes to -/

section Inversion

variable (ev : Evaluator) (fuel : Nat) (id : ScopeId) (w : World)

/-- The steps after which a scan goes on: a region is closed, a bracket opened, a complete token
passed, or a pending one acts. -/
inductive Advances : Scan → Scan → Prop
  | close {f : Frame} {frames : List Frame} {t : Token} {rest placed : List Token} {hops : Nat}
      (hdelimiter : t.isDelimiter = true) (hcloses : t.closes = true)
      (hmatch : f.innermost.closesWith t = true)
      (hclose : (ev.close fuel id f.opening f.passed.reverse).outcome w = .ok placed) :
      Advances ⟨f :: frames, t :: rest, hops⟩ ⟨frames, placed ++ rest, 0⟩
  | enter {frames : List Frame} {t : Token} {rest : List Token} {hops : Nat} {s' : Scan}
      (hdelimiter : t.isDelimiter = true) (hopens : t.closes = false)
      (hopen : openFrame t rest frames = .more s') : Advances ⟨frames, t :: rest, hops⟩ s'
  | pass {frames : List Frame} {t : Token} {rest : List Token} {hops : Nat} {s' : Scan}
      (hdelimiter : t.isDelimiter = false) (hcomplete : t.isComplete = true)
      (hpass : pass t rest frames = .more s') : Advances ⟨frames, t :: rest, hops⟩ s'
  | act {frames : List Frame} {t : Token} {rest placed after : List Token} {hops : Nat}
      (hdelimiter : t.isDelimiter = false) (hpending : t.isComplete = false)
      (hact : (ev.act fuel id t rest).outcome w = .ok (placed, after)) :
      Advances ⟨frames, t :: rest, hops⟩
        ⟨frames, placed ++ after, if placed.isEmpty then 0 else hops + 1⟩

/-- The ends of a scan: a complete token outside all brackets, the end of the buffer there, or a
failure. -/
inductive EndsAs : Scan → Reduction → Prop
  | value {t : Token} {rest : List Token} {hops : Nat} (hdelimiter : t.isDelimiter = false)
      (hcomplete : t.isComplete = true) : EndsAs ⟨[], t :: rest, hops⟩ (.value t rest)
  | nothing {hops : Nat} : EndsAs ⟨[], [], hops⟩ .nothing
  | failed {s : Scan} (f : Failure) (left : List Token) : EndsAs s (.failed f left)

variable {ev fuel id w}

/-- A step after which a scan goes on is of one of the four kinds. -/
theorem advances_of_more {s s' : Scan} (h : (s.advance ev fuel id).outcome w = .ok (.more s')) :
    Advances ev fuel id w s s' := by
  obtain ⟨frames, rest, hops⟩ := s
  cases rest with
  | nil => cases frames <;> cases h
  | cons t rest =>
    simp only [advance] at h
    split_ifs at h with hdelimiter hcloses hcomplete
    · cases frames with
      | nil => cases h
      | cons f frames =>
        simp only [closeFrame] at h
        split_ifs at h with hmismatch
        · cases h
        · obtain ⟨answer, hanswer, h⟩ := EvalM.ok_of_bind h
          cases answer <;> cases h
          exact .close hdelimiter hcloses (by simpa using hmismatch) (EvalM.ok_of_attempt hanswer)
    · exact .enter hdelimiter (Bool.eq_false_iff.mpr hcloses) (Except.ok.inj h)
    · exact .pass (Bool.eq_false_iff.mpr hdelimiter) hcomplete (Except.ok.inj h)
    · simp only [resolveFront] at h
      obtain ⟨scope, -, h⟩ := EvalM.ok_of_bind h
      split_ifs at h
      · cases h
      · obtain ⟨answer, hanswer, h⟩ := EvalM.ok_of_bind h
        rcases answer with failure | ⟨placed, after⟩
        · cases h
        · cases h
          exact .act (Bool.eq_false_iff.mpr hdelimiter) (Bool.eq_false_iff.mpr hcomplete)
            (EvalM.ok_of_attempt hanswer)

/-- A step that ends a scan ends it in one of the three ways. -/
theorem endsAs_of_over {s : Scan} {r : Reduction}
    (h : (s.advance ev fuel id).outcome w = .ok (.over r)) : EndsAs s r := by
  obtain ⟨frames, rest, hops⟩ := s
  cases rest with
  | nil =>
    cases frames <;> cases h
    · exact .nothing
    · exact .failed _ _
  | cons t rest =>
    simp only [advance] at h
    split_ifs at h with hdelimiter hcloses hcomplete
    · simp only [closeFrame] at h
      split at h
      · cases h
        exact .failed _ _
      · split_ifs at h
        · cases h
          exact .failed _ _
        · obtain ⟨answer, -, h⟩ := EvalM.ok_of_bind h
          cases answer <;> cases h
          exact .failed _ _
    · unfold openFrame at h
      split_ifs at h <;> cases h
    · cases frames <;> cases h
      exact .value (Bool.eq_false_iff.mpr hdelimiter) hcomplete
    · simp only [resolveFront] at h
      obtain ⟨scope, -, h⟩ := EvalM.ok_of_bind h
      split_ifs at h
      · cases h
        exact .failed _ _
      · obtain ⟨answer, -, h⟩ := EvalM.ok_of_bind h
        cases answer <;> cases h
        exact .failed _ _

end Inversion

/-! ### Quiet steps -/

variable (w : World) (id : ScopeId)

/-- From one scan to the next, whatever evaluates inner buffers, with the world as it was. -/
def Quiet (s s' : Scan) : Prop :=
  ∀ (ev : Evaluator) (fuel : Nat), (s.advance ev fuel id).outcome w = .ok (.more s') ∧
    (s.advance ev fuel id).after w = w

/-- Any number of such steps. -/
def Reaches : Scan → Scan → Prop := Relation.ReflTransGen (Quiet w id)

variable {w id}

theorem Quiet.reaches {s s' : Scan} (h : Quiet w id s s') : Reaches w id s s' :=
  Relation.ReflTransGen.single h

theorem Reaches.refl (s : Scan) : Reaches w id s s := Relation.ReflTransGen.refl

theorem Reaches.trans {s t u : Scan} (h : Reaches w id s t) (h' : Reaches w id t u) :
    Reaches w id s u := Relation.ReflTransGen.trans h h'

/-- One step of a run. -/
theorem run_succ_of_quiet {s s' : Scan} (h : Quiet w id s s') (fuel : Nat) :
    (run (fuel + 1) id s).run.run w = (run fuel id s').run.run w := by
  obtain ⟨houtcome, hafter⟩ := h (fun scope tokens ↦ run fuel scope (start tokens)) fuel
  rw [run, EvalM.run_bind, houtcome, hafter]

theorem run_of_reaches {s s' : Scan} (h : Reaches w id s s') :
    ∃ n, ∀ fuel, (run (fuel + n) id s).run.run w = (run fuel id s').run.run w := by
  induction h using Relation.ReflTransGen.head_induction_on with
  | refl => exact ⟨0, fun fuel ↦ rfl⟩
  | head hstep _ ih =>
    obtain ⟨n, hn⟩ := ih
    refine ⟨n + 1, fun fuel ↦ ?_⟩
    rw [← Nat.add_assoc, run_succ_of_quiet hstep, hn]

/-! ### The ways to take a quiet step -/

section Steps

variable {frames : List Frame} {rest : List Token} {hops : Nat}

theorem quiet_pass (f : Frame) (v : Value) (pos : Option Position) :
    Quiet w id ⟨f :: frames, .done v pos :: rest, hops⟩
      ⟨⟨f.opening, .done v pos :: f.passed, f.inner⟩ :: frames, rest, 0⟩ := by
  obtain ⟨opening, passed, inner⟩ := f
  exact fun ev fuel ↦ ⟨rfl, rfl⟩

/-- An opening bracket that does not quote. -/
theorem quiet_open {bracket : String} (hne : bracket ≠ "") (hquotes : bracket ≠ "\x7b")
    (mode : String) (pos : Option Position) :
    Quiet w id ⟨frames, .opening bracket mode pos :: rest, hops⟩
      ⟨.start (.opening bracket mode pos) :: frames, rest, 0⟩ := by
  have hdelimiter : (Token.opening bracket mode pos).isDelimiter = true := by
    simp [Token.isDelimiter, Token.bracket, Token.isLiteral, hne]
  have hplain : (Token.opening bracket mode pos).quotes = false := by
    simp [Token.quotes, Token.bracket, hquotes]
  intro ev fuel
  have hadvance : (⟨frames, .opening bracket mode pos :: rest, hops⟩ : Scan).advance ev fuel id =
      pure (.more ⟨.start (.opening bracket mode pos) :: frames, rest, 0⟩) := by
    simp [advance, openFrame, hdelimiter, hplain, Token.closes]
  rw [hadvance]
  exact ⟨rfl, rfl⟩

/-- Closing a region whose meaning leaves the world as it is. -/
theorem quiet_close {f : Frame} {bracket : String} {pos : Option Position} (placed : List Token)
    (hne : bracket ≠ "") (hmatch : f.innermost.closesWith (.closing bracket pos) = true)
    (hclose : ∀ (ev : Evaluator) (fuel : Nat),
      (ev.close fuel id f.opening f.passed.reverse).outcome w = .ok placed ∧
        (ev.close fuel id f.opening f.passed.reverse).after w = w) :
    Quiet w id ⟨f :: frames, .closing bracket pos :: rest, hops⟩
      ⟨frames, placed ++ rest, 0⟩ := by
  have hdelimiter : (Token.closing bracket pos).isDelimiter = true := by
    simp [Token.isDelimiter, Token.bracket, Token.isLiteral, hne]
  intro ev fuel
  obtain ⟨houtcome, hafter⟩ := hclose ev fuel
  have hadvance : (⟨f :: frames, .closing bracket pos :: rest, hops⟩ : Scan).advance ev fuel id =
      (⟨f :: frames, .closing bracket pos :: rest, hops⟩ : Scan).closeFrame ev fuel id
        (.closing bracket pos) rest := by
    simp [advance, hdelimiter, Token.closes]
  rw [hadvance, closeFrame]
  dsimp only
  rw [if_neg (by simp [hmatch]), EvalM.outcome_bind, EvalM.after_bind, EvalM.outcome_attempt,
    EvalM.after_attempt, houtcome, hafter]
  exact ⟨rfl, rfl⟩

/-- A pending token or an envoy that acts. -/
theorem quiet_act {t : Token} {after left : List Token} (placed : List Token)
    (hdelimiter : t.isDelimiter = false) (hcomplete : t.isComplete = false)
    (hhops : hops + 1 ≤ (w.scope id).maxHops) (hne : placed ≠ [])
    (hact : ∀ (ev : Evaluator) (fuel : Nat),
      (ev.act fuel id t after).outcome w = .ok (placed, left) ∧
        (ev.act fuel id t after).after w = w) :
    Quiet w id ⟨frames, t :: after, hops⟩ ⟨frames, placed ++ left, hops + 1⟩ := by
  intro ev fuel
  obtain ⟨houtcome, hafter⟩ := hact ev fuel
  have hadvance : (⟨frames, t :: after, hops⟩ : Scan).advance ev fuel id =
      (⟨frames, t :: after, hops⟩ : Scan).resolveFront ev fuel id t after := by
    simp [advance, hdelimiter, hcomplete]
  rw [hadvance, resolveFront, EvalM.outcome_bind, EvalM.after_bind, EvalM.outcome_scope,
    EvalM.after_scope]
  dsimp only
  rw [if_neg (Nat.not_lt.mpr hhops), EvalM.outcome_bind, EvalM.after_bind, EvalM.outcome_attempt,
    EvalM.after_attempt, houtcome, hafter]
  simp [hne]

/-- A name that is bound. -/
theorem quiet_resolve {name : String} {pos : Option Position} {bound : Token}
    (hbound : (w.scope id).get? name = some bound) (hhops : hops + 1 ≤ (w.scope id).maxHops) :
    Quiet w id ⟨frames, .symbol name pos :: rest, hops⟩ ⟨frames, bound :: rest, hops + 1⟩ := by
  refine quiet_act [bound] rfl rfl hhops (List.cons_ne_nil _ _) fun ev fuel ↦ ?_
  have hresolve : (Evaluator.resolve id (.symbol name pos)).outcome w = .ok bound ∧
      (Evaluator.resolve id (.symbol name pos)).after w = w := by
    rw [Evaluator.resolve, EvalM.outcome_bind, EvalM.after_bind, EvalM.outcome_scope,
      EvalM.after_scope]
    dsimp only [Token.content]
    rw [hbound]
    exact ⟨rfl, rfl⟩
  show ((Evaluator.resolve id (.symbol name pos) >>= fun t ↦ pure ([t], rest)).outcome w = _ ∧ _)
  rw [EvalM.outcome_bind, hresolve.1]
  refine ⟨rfl, ?_⟩
  show (Evaluator.resolve id (.symbol name pos) >>= fun t ↦ pure ([t], rest)).after w = w
  rw [EvalM.after_bind, hresolve.1, hresolve.2]
  rfl

/-- The quoting marker in front of a form. -/
theorem quiet_quote {ref : Ref} {t : Token} {after form left : List Token}
    (hsplit : Form.split (w.scope id).isMarker (t :: after) = .ok (form, left))
    (hclosing : t.isClosing = false) (hhops : hops + 1 ≤ (w.scope id).maxHops) :
    Quiet w id ⟨frames, .envoy .quote ref :: t :: after, hops⟩
      ⟨frames, Form.quote form :: left, hops + 1⟩ := by
  refine quiet_act [Form.quote form] rfl rfl hhops (List.cons_ne_nil _ _)
    fun ev fuel ↦ ?_
  have hact : ev.act fuel id (.envoy .quote ref) (t :: after) =
      Envoy.quoteNext id (t :: after) := by
    show Envoy.apply ev fuel id .quote (t :: after) = _
    rw [Envoy.apply, hclosing]
    rfl
  rw [hact]
  show ((EvalM.scope id >>= fun s ↦
    EvalM.ofFailure (Form.split s.isMarker (t :: after))) >>= _).outcome w = _ ∧
    ((EvalM.scope id >>= fun s ↦
      EvalM.ofFailure (Form.split s.isMarker (t :: after))) >>= _).after w = _
  simp only [EvalM.outcome_bind, EvalM.after_bind, EvalM.outcome_scope, EvalM.after_scope, hsplit]
  exact ⟨rfl, rfl⟩

end Steps

end TokenLang.Scan

import TokenLang.Proofs.Eval.Balance
import TokenLang.Proofs.Eval.Gaps
import TokenLang.Proofs.Eval.Intact
import TokenLang.Proofs.OperatorTree.Grouping
import TokenLang.Proofs.Session.Builtins

/-!
The calls of an infix form. The tree of a form is written out as nested calls, and the scan of these
goes the way of the tree: the left side of a node, then its right side, then one call of its
operator with the two values (`OperatorTree.Computes.runs`). `Scan.Runs` follows a scan from one
place to the next and lists the regions that it closes on the way, so it says of each call when it
is made and with what. An operand is worth the complete token that the scan puts in its place;
complete operands stand for themselves and add no regions. Main statement:
`OperatorTree.parse_and_call`.
-/

set_option autoImplicit false
set_option relaxedAutoImplicit false

namespace TokenLang

/-! ### Stretches of a scan -/

namespace Scan

/-- What is between the brackets of the region that the next step closes, if it does. -/
def closed (s : Scan) : List (List Token) :=
  match s.frames, s.rest with
  | f :: _, t :: _ => if t.isClosing && f.innermost.closesWith t then [f.passed.reverse] else []
  | _, _ => []

/-- The scan goes from one state to another, with any bound on inner evaluations that is large
enough, and closes regions on the way, listed from the first to the last. -/
inductive Runs (id : ScopeId) : World → Scan → List (List Token) → World → Scan → Prop
  | refl (w : World) (s : Scan) : Runs id w s [] w s
  | head {w w' w'' : World} {s s' s'' : Scan} {regions : List (List Token)} (bound : Nat)
      (hstep : ∀ fuel ≥ bound, (s.advance (Program.stepWithin fuel) fuel id).run.run w =
        (.ok (.more s'), w'))
      (hmore : Runs id w' s' regions w'' s'') : Runs id w s (s.closed ++ regions) w'' s''

variable {id : ScopeId} {w w' w'' : World} {s s' s'' : Scan} {regions regions' : List (List Token)}

theorem Runs.trans (h : Runs id w s regions w' s') (h' : Runs id w' s' regions' w'' s'') :
    Runs id w s (regions ++ regions') w'' s'' := by
  induction h with
  | refl => exact h'
  | head bound hstep _ ih =>
    rw [List.append_assoc]
    exact .head bound hstep (ih h')

theorem Runs.single (bound : Nat) (hstep : ∀ fuel ≥ bound,
      (s.advance (Program.stepWithin fuel) fuel id).run.run w = (.ok (.more s'), w')) :
    Runs id w s s.closed w' s' := by
  have hrun := Runs.head bound hstep (.refl w' s')
  rwa [List.append_nil] at hrun

theorem Quiet.runs (h : Quiet w id s s') : Runs id w s s.closed w s' :=
  .single 0 fun fuel _ ↦ Prod.ext (h _ fuel).1 (h _ fuel).2

/-- A scan does what its stretches do. -/
theorem Runs.run_eq (h : Runs id w s regions w' s') : ∃ bound steps, ∀ fuel ≥ bound,
    (run (fuel + steps) id s).run.run w = (run fuel id s').run.run w' := by
  induction h with
  | refl => exact ⟨0, 0, fun fuel _ ↦ rfl⟩
  | @head w w' _ s s' _ _ bound hstep _ ih =>
    obtain ⟨bound', steps, hrun⟩ := ih
    refine ⟨max bound bound', steps + 1, fun fuel hfuel ↦ ?_⟩
    have hadvance := hstep (fuel + steps) (by omega)
    have houtcome : (s.advance (fun scope tokens ↦ run (fuel + steps) scope (start tokens))
        (fuel + steps) id).outcome w = .ok (.more s') := congrArg Prod.fst hadvance
    have hafter : (s.advance (fun scope tokens ↦ run (fuel + steps) scope (start tokens))
        (fuel + steps) id).after w = w' := congrArg Prod.snd hadvance
    rw [← Nat.add_assoc, run, EvalM.run_bind, houtcome, hafter]
    exact hrun fuel (by omega)

/-- A stretch of a scan leaves all scopes in balance. -/
theorem Runs.balanced (h : Runs id w s regions w' s') (hs : s.Tidy) :
    World.Balanced w w' ∧ s'.Tidy := by
  induction h with
  | refl => exact ⟨World.admits_balanced.refl _, hs⟩
  | @head w w' _ s s' _ _ bound hstep _ ih =>
    have hmeets := advance_meets World.admits_balanced
      (reliable_stepWithin World.admits_balanced bound) bound id hs w
    have hadvance := hstep bound (le_refl _)
    have houtcome : (s.advance (Program.stepWithin bound) bound id).outcome w = .ok (.more s') :=
      congrArg Prod.fst hadvance
    have hafter : (s.advance (Program.stepWithin bound) bound id).after w = w' :=
      congrArg Prod.snd hadvance
    rw [houtcome, hafter] at hmeets
    obtain ⟨hbalanced, hs'⟩ := ih hmeets.2
    exact ⟨World.admits_balanced.trans _ _ _ hmeets.1 hbalanced, hs'⟩

theorem closed_eq_nil {t : Token} (ht : t.isClosing = false) (frames : List Frame)
    (rest : List Token) (hops : Nat) : closed ⟨frames, t :: rest, hops⟩ = [] := by
  cases frames with
  | nil => rfl
  | cons f frames => simp [closed, ht]

/-- Passing an opening parenthesis. -/
theorem runs_open (frames : List Frame) (rest : List Token) (hops : Nat) :
    Runs id w ⟨frames, .opening "(" "" none :: rest, hops⟩ [] w
      ⟨.start (.opening "(" "" none) :: frames, rest, 0⟩ := by
  rw [← closed_eq_nil (t := .opening "(" "" none) rfl frames rest hops]
  exact (quiet_open (by decide) (by decide) "" none).runs

/-- Passing a complete token. -/
theorem runs_pass {t : Token} (ht : t.isComplete = true) (f : Frame) (frames : List Frame)
    (rest : List Token) (hops : Nat) : Runs id w ⟨f :: frames, t :: rest, hops⟩ [] w
      ⟨⟨f.opening, t :: f.passed, f.inner⟩ :: frames, rest, 0⟩ := by
  have hdelimiter := Token.isDelimiter_of_isComplete ht
  have hclosing : t.isClosing = false := by
    simp [Token.isClosing, hdelimiter]
  rw [← closed_eq_nil hclosing (f :: frames) rest hops]
  refine Quiet.runs fun ev fuel ↦ ?_
  have hadvance : (⟨f :: frames, t :: rest, hops⟩ : Scan).advance ev fuel id =
      pure (pass t rest (f :: frames)) := by
    simp [advance, hdelimiter, ht]
  rw [hadvance]
  exact ⟨rfl, rfl⟩

/-- A complete token outside all brackets is the end of a scan. -/
theorem advance_value {t : Token} (ht : t.isComplete = true) (rest : List Token) (hops fuel : Nat)
    (ev : Evaluator) (id : ScopeId) : (⟨[], t :: rest, hops⟩ : Scan).advance ev fuel id =
      pure (.over (.value t rest)) := by
  simp [advance, Token.isDelimiter_of_isComplete ht, ht, pass]

theorem run_value {t : Token} (ht : t.isComplete = true) (rest : List Token) (hops fuel : Nat)
    (id : ScopeId) (w : World) :
    (run (fuel + 1) id ⟨[], t :: rest, hops⟩).run.run w = (.ok (.value t rest), w) := by
  rw [run, advance_value ht]
  rfl

theorem Runs.eq_of_isComplete {t : Token} (ht : t.isComplete = true) {rest : List Token}
    {hops : Nat} (h : Runs id w ⟨[], t :: rest, hops⟩ regions w' s') : regions = [] := by
  cases h with
  | refl => rfl
  | head bound hstep =>
    have hover := hstep bound (le_refl _)
    rw [advance_value ht] at hover
    cases hover

end Scan

/-! ### Parentheses -/

/-- Scopes in which plain parentheses are calls, and stay so. -/
structure Scope.CallsInParens (s : Scope) : Prop where
  reserved : s.isReserved "(" = true
  varying : s.varying? "(" = some .call

theorem Scope.Balanced.get?_eq {s s' : Scope} (h : s.Balanced s') {name : String}
    (hname : s.isReserved name = true) : s'.get? name = s.get? name := by
  have hstack : StackMap.Plain.values s'.store.toList name =
      StackMap.Plain.values s.store.toList name := h.fixed name hname
  unfold Scope.get?
  rw [StackMap.get?_eq_toList, StackMap.get?_eq_toList, StackMap.Plain.get?_eq_getLast?,
    StackMap.Plain.get?_eq_getLast?, hstack]

theorem Scope.Balanced.callsInParens {s s' : Scope} (h : s.Balanced s') (hs : s.CallsInParens) :
    s'.CallsInParens := by
  refine ⟨(h.isReserved "(").trans hs.reserved, ?_⟩
  rw [← hs.varying]
  unfold Scope.varying?
  rw [h.get?_eq hs.reserved]

/-- A place without a scope reserves nothing. -/
theorem World.lt_size_of_isReserved {w : World} {id : ScopeId} {name : String}
    (h : (w.scope id).isReserved name = true) : id < w.scopes.size := by
  by_contra hid
  have hscope : w.scope id = default := by
    unfold World.scope
    rw [Array.getElem?_eq_none (Nat.le_of_not_lt hid)]
    rfl
  rw [hscope] at h
  cases h

theorem World.Balanced.callsInParens {w w' : World} (h : w.Balanced w') {id : ScopeId}
    (hw : (w.scope id).CallsInParens) : (w'.scope id).CallsInParens :=
  (h.scopes id (World.lt_size_of_isReserved hw.reserved)).callsInParens hw

theorem World.callsInParens_new (settings : Settings) :
    ((World.new settings).scope World.root).CallsInParens := by
  have hget : ((World.new settings).scope World.root).get? "(" = some (.varying .call 5) := by
    rw [World.get?_new]
    rfl
  refine ⟨(World.keeps_new settings "(" _ hget).1, ?_⟩
  rw [Scope.varying?, if_neg (by decide), hget]

/-- An operator is what the name that it is installed under is bound to. -/
theorem Scope.get?_installOperator (s : Scope) (name : String) (t : Token) (op : Operator) :
    (s.installOperator name t op).get? name = some t := by
  show (s.store.push name t).get? name = _
  rw [StackMap.get?_eq_toList, StackMap.toList_push]
  exact StackMap.Plain.get?_of_last _ fun _ h ↦ absurd h List.not_mem_nil

/-- Other names keep their bindings. -/
theorem Scope.get?_installOperator_of_ne (s : Scope) {name other : String} (hne : other ≠ name)
    (t : Token) (op : Operator) : (s.installOperator name t op).get? other = s.get? other := by
  show (s.store.push name t).get? other = s.store.get? other
  rw [StackMap.get?_eq_toList, StackMap.get?_eq_toList, StackMap.toList_push]
  simp [StackMap.Plain.get?, StackMap.Plain.push, hne.symm]

theorem Scope.varying?_installOperator_of_ne (s : Scope) {name other : String}
    (hne : other ≠ name) (t : Token) (op : Operator) :
    (s.installOperator name t op).varying? other = s.varying? other := by
  rw [Scope.varying?, Scope.varying?, Scope.get?_installOperator_of_ne s hne]

/-- A name that an operator is installed under is no varying. -/
theorem Scope.varying?_installOperator (s : Scope) (name : String) (f : Callable) (ref : Ref)
    (op : Operator) :
    (s.installOperator name (.stable (.function f ref)) op).varying? name = none := by
  rw [Scope.varying?, Scope.get?_installOperator]
  split <;> rfl

theorem EvalM.after_blaming {α : Type} (t : Token) (x : EvalM α) (w : World) :
    (blaming t x).after w = x.after w := by
  rw [blaming, after_bind, outcome_attempt, after_attempt]
  rcases x.outcome w with (f | _ | _) | a <;> rfl

/-- Closing plain parentheses calls the first token between them. -/
theorem Evaluator.close_call {w w' : World} {id : ScopeId} (hw : (w.scope id).CallsInParens)
    {ev : Evaluator} {fuel : Nat} {callee : Token} {args placed : List Token}
    (hcall : (ev.call fuel id callee args).run.run w = (.ok placed, w')) :
    (ev.close fuel id (.opening "(" "" none) (callee :: args)).outcome w = .ok placed ∧
      (ev.close fuel id (.opening "(" "" none) (callee :: args)).after w = w' := by
  have houtcome : (ev.call fuel id callee args).outcome w = .ok placed := congrArg Prod.fst hcall
  have hafter : (ev.call fuel id callee args).after w = w' := congrArg Prod.snd hcall
  have hv : ((w.scope id).varying? "").or ((w.scope id).varying? "(") = some .call := by
    rw [hw.varying]
    rfl
  rw [Evaluator.close, EvalM.outcome_bind, EvalM.after_bind, EvalM.outcome_scope,
    EvalM.after_scope]
  dsimp only [Token.mode, Token.bracket]
  rw [hv]
  dsimp only [Varying.apply, Varying.applyCall, Region.inside]
  rw [EvalM.outcome_blaming_locating, EvalM.after_blaming, EvalM.after_locating, houtcome, hafter]
  exact ⟨rfl, rfl⟩

/-- The closing bracket of plain parentheses whose call gives tokens. -/
theorem Scan.runs_close {w w' : World} {id : ScopeId} (hw : (w.scope id).CallsInParens)
    {callee : Token} {args passed placed : List Token} (hpassed : passed.reverse = callee :: args)
    (bound : Nat) (hcall : ∀ fuel ≥ bound,
      ((Program.stepWithin fuel).call fuel id callee args).run.run w = (.ok placed, w'))
    (frames : List Frame) (rest : List Token) (hops : Nat) :
    Runs id w ⟨⟨.opening "(" "" none, passed, []⟩ :: frames, .closing ")" none :: rest, hops⟩
      [callee :: args] w' ⟨frames, placed ++ rest, 0⟩ := by
  have hclosing : (Token.closing ")" none).isClosing = true := rfl
  have hmatch : (Token.opening "(" "" none).closesWith (.closing ")" none) = true := rfl
  have hinnermost : (⟨.opening "(" "" none, passed, []⟩ : Frame).innermost =
      .opening "(" "" none := rfl
  have hclosed : closed ⟨⟨.opening "(" "" none, passed, []⟩ :: frames,
      .closing ")" none :: rest, hops⟩ = [callee :: args] := by
    simp only [closed, hinnermost, hclosing, hmatch, hpassed, Bool.and_self, if_true]
  rw [← hclosed]
  refine .single bound fun fuel hfuel ↦ ?_
  obtain ⟨houtcome, hafter⟩ := Evaluator.close_call hw (hcall fuel hfuel)
  have hadvance : (⟨⟨.opening "(" "" none, passed, []⟩ :: frames, .closing ")" none :: rest,
        hops⟩ : Scan).advance (Program.stepWithin fuel) fuel id =
      closeFrame (Program.stepWithin fuel) fuel id ⟨⟨.opening "(" "" none, passed, []⟩ :: frames,
        .closing ")" none :: rest, hops⟩ (.closing ")" none) rest := rfl
  rw [hadvance, closeFrame]
  simp only [hinnermost, hmatch, Bool.not_true, Bool.false_eq_true, if_false, hpassed]
  rw [EvalM.run_bind, EvalM.outcome_attempt, EvalM.after_attempt, houtcome, hafter]
  rfl

namespace OperatorTree

/-! ### What a tree comes to -/

/-- The operators of a tree, each after those of both of its sides. -/
def postorder : OperatorTree → List Token
  | .leaf _ => []
  | .node op left right => left.postorder ++ right.postorder ++ [op]

/-- What a tree comes to in a scope: an operand to the complete token that the scan puts in its
place, a node to the one complete token that a call of its operator gives with what both sides came
to. The calls are listed in turn, each as the operator and its two arguments; so are all regions
that are closed on the way, which an operand that is not complete may add to. -/
inductive Computes (id : ScopeId) :
    World → OperatorTree → List (List Token) → List (List Token) → World → Token → Prop
  | leaf {w w' : World} {t v : Token} {regions : List (List Token)}
      (hscan : ∀ frames rest, ∃ hops,
        Scan.Runs id w ⟨frames, t :: rest, 0⟩ regions w' ⟨frames, v :: rest, hops⟩)
      (hv : v.isComplete = true) : Computes id w (.leaf t) [] regions w' v
  | node {w₀ w₁ w₂ w₃ : World} {op : Token} {left right : OperatorTree}
      {calls calls' regions regions' : List (List Token)} {a b v : Token}
      (hleft : Computes id w₀ left calls regions w₁ a)
      (hright : Computes id w₁ right calls' regions' w₂ b) (bound : Nat)
      (hcall : ∀ fuel ≥ bound, ((Program.stepWithin fuel).call fuel id op [a, b]).run.run w₂ =
        (.ok [v], w₃))
      (hv : v.isComplete = true) :
      Computes id w₀ (.node op left right) (calls ++ calls' ++ [[op, a, b]])
        (regions ++ regions' ++ [[op, a, b]]) w₃ v

variable {id : ScopeId} {w w' : World} {tree : OperatorTree} {calls regions : List (List Token)}
  {v : Token}

theorem computes_leaf (id : ScopeId) (w : World) {t : Token} (ht : t.isComplete = true) :
    Computes id w (.leaf t) [] [] w t :=
  .leaf (fun _ _ ↦ ⟨0, .refl _ _⟩) ht

theorem Computes.isComplete (h : Computes id w tree calls regions w' v) : v.isComplete = true := by
  cases h with
  | leaf _ hv => exact hv
  | node _ _ _ _ hv => exact hv

/-- One call for each operator. -/
theorem Computes.map_head? (h : Computes id w tree calls regions w' v) :
    calls.map List.head? = tree.postorder.map some := by
  induction h with
  | leaf => rfl
  | node _ _ _ _ _ ihl ihr => simp [postorder, ihl, ihr]

/-- Calls are regions that are closed. -/
theorem Computes.sublist (h : Computes id w tree calls regions w' v) : calls.Sublist regions := by
  induction h with
  | leaf => exact List.nil_sublist _
  | node _ _ _ _ _ ihl ihr => exact (ihl.append ihr).append (.refl _)

/-- Complete operands add no regions. -/
theorem Computes.regions_eq (h : Computes id w tree calls regions w' v)
    {operatorFor : Token → Option Operator} (hgrouped : tree.Grouped operatorFor)
    (hoperands : ∀ t ∈ tree.inorder, operatorFor t = none → t.isComplete = true) :
    regions = calls := by
  induction h with
  | leaf hscan =>
    obtain ⟨hops, hrun⟩ := hscan [] []
    exact hrun.eq_of_isComplete (hoperands _ (List.mem_singleton_self _) hgrouped)
  | node _ _ _ _ _ ihl ihr =>
    obtain ⟨hgroupedl, hgroupedr, -⟩ := hgrouped
    rw [ihl hgroupedl fun t ht ↦ hoperands t (by simp [inorder, ht]),
      ihr hgroupedr fun t ht ↦ hoperands t (by simp [inorder, ht])]

/-- An operator is a function. -/
theorem isComplete_of_operatorFor {s : Scope} {t : Token} {o : Operator}
    (h : s.operatorFor t = some o) : t.isComplete = true := by
  unfold Scope.operatorFor at h
  split at h
  · rfl
  · cases h

/-- A call with two arguments leaves all scopes in balance. -/
theorem balanced_call {op a b : Token} {bound : Nat} {out : List Token}
    (hop : op.isComplete = true) (ha : a.isComplete = true) (hb : b.isComplete = true)
    (hcall : ((Program.stepWithin bound).call bound id op [a, b]).run.run w = (.ok out, w')) :
    World.Balanced w w' := by
  have hvalued : Valued False [op, a, b] := .inl fun t ht ↦ by
    simp only [List.mem_cons, List.not_mem_nil, or_false] at ht
    obtain rfl | rfl | rfl := ht
    · exact Token.value?_of_isComplete hop
    · exact Token.value?_of_isComplete ha
    · exact Token.value?_of_isComplete hb
  have hmeets := (call_meets World.admits_balanced
    (reliable_stepWithin World.admits_balanced bound) bound id hvalued w).1
  have hafter : ((Program.stepWithin bound).call bound id op [a, b]).after w = w' :=
    congrArg Prod.snd hcall
  rwa [hafter] at hmeets

theorem Computes.balanced {s : Scope} (h : Computes id w tree calls regions w' v)
    (hgrouped : tree.Grouped s.operatorFor) : World.Balanced w w' := by
  induction h with
  | leaf hscan =>
    obtain ⟨hops, hrun⟩ := hscan [] []
    exact (hrun.balanced (Scan.tidy_start _)).1
  | node hleft hright bound hcall _ ihl ihr =>
    obtain ⟨hgroupedl, hgroupedr, o, hop, -⟩ := hgrouped
    have hbalanced := balanced_call (isComplete_of_operatorFor hop) hleft.isComplete
      hright.isComplete (hcall bound (le_refl _))
    exact World.admits_balanced.trans _ _ _
      (World.admits_balanced.trans _ _ _ (ihl hgroupedl) (ihr hgroupedr)) hbalanced

/-- The scan of the nested calls of a tree makes the calls of the tree. -/
theorem Computes.runs {s : Scope} (h : Computes id w tree calls regions w' v)
    (hgrouped : tree.Grouped s.operatorFor) (hw : (w.scope id).CallsInParens) (frames : List Frame)
    (rest : List Token) : ∃ hops,
      Scan.Runs id w ⟨frames, tree.calls ++ rest, 0⟩ regions w' ⟨frames, v :: rest, hops⟩ := by
  induction h generalizing frames rest with
  | leaf hscan => exact hscan frames rest
  | @node w₀ w₁ w₂ w₃ op left right _ _ _ _ a b v hleft hright bound hcall _ ihl ihr =>
    obtain ⟨hgroupedl, hgroupedr, o, hop, -⟩ := hgrouped
    have hw₁ := (hleft.balanced hgroupedl).callsInParens hw
    have hw₂ := (hright.balanced hgroupedr).callsInParens hw₁
    let opening : Token := .opening "(" "" none
    let after : List Token := .closing ")" none :: rest
    obtain ⟨hops₁, hruns₁⟩ := ihl hgroupedl hw (⟨opening, [op], []⟩ :: frames)
      (right.calls ++ after)
    obtain ⟨hops₂, hruns₂⟩ := ihr hgroupedr hw₁ (⟨opening, [a, op], []⟩ :: frames) after
    refine ⟨0, ?_⟩
    have hcalls : (OperatorTree.node op left right).calls ++ rest =
        opening :: op :: (left.calls ++ (right.calls ++ after)) := by
      simp [OperatorTree.calls, opening, after]
    rw [hcalls]
    have hfirst : Scan.Runs id w₀
        ⟨frames, opening :: op :: (left.calls ++ (right.calls ++ after)), 0⟩ [] w₀
        ⟨⟨opening, [op], []⟩ :: frames, left.calls ++ (right.calls ++ after), 0⟩ :=
      (Scan.runs_open frames _ 0).trans
        (Scan.runs_pass (isComplete_of_operatorFor hop) _ frames _ 0)
    have hsecond := hruns₁.trans (Scan.runs_pass hleft.isComplete _ frames _ hops₁)
    have hthird := hruns₂.trans (Scan.runs_pass hright.isComplete _ frames _ hops₂)
    have hlast := Scan.runs_close hw₂ (show [b, a, op].reverse = [op, a, b] from rfl) bound
      hcall frames rest 0
    simpa using hfirst.trans (hsecond.trans (hthird.trans hlast))

/-- In a form, all operands are complete, and in every world that an evaluation may come to a call
of an operator gives one complete token for any two. -/
structure Yields (id : ScopeId) (w : World) (s : Scope) (form : List Token) : Prop where
  operand : ∀ t ∈ form, s.operatorFor t = none → t.isComplete = true
  call : ∀ w₁, World.Balanced w w₁ → ∀ op ∈ form, (s.operatorFor op).isSome → ∀ a b : Token,
    a.isComplete = true → b.isComplete = true → ∃ bound v w₂, v.isComplete = true ∧
      ∀ fuel ≥ bound, ((Program.stepWithin fuel).call fuel id op [a, b]).run.run w₁ = (.ok [v], w₂)

theorem Yields.part {s : Scope} {form form' : List Token} (h : Yields id w s form)
    (hform : form' ⊆ form) {w₁ : World} (hw : World.Balanced w w₁) : Yields id w₁ s form' where
  operand t ht := h.operand t (hform ht)
  call w₂ hw₂ op hop := h.call w₂ (World.admits_balanced.trans _ _ _ hw hw₂) op (hform hop)

theorem Yields.exists_computes {s : Scope} (h : Yields id w s tree.inorder)
    (hgrouped : tree.Grouped s.operatorFor) :
    ∃ calls w' v, Computes id w tree calls calls w' v := by
  induction tree generalizing w with
  | leaf t =>
    exact ⟨[], w, t, computes_leaf id w (h.operand t (List.mem_singleton_self _) hgrouped)⟩
  | node op left right ihl ihr =>
    obtain ⟨hgroupedl, hgroupedr, o, hop, -⟩ := hgrouped
    have hl : Yields id w s left.inorder :=
      h.part (by simp [inorder]) (World.admits_balanced.refl w)
    obtain ⟨calls, w₁, a, hleft⟩ := ihl hl hgroupedl
    have hr : Yields id w₁ s right.inorder :=
      h.part (fun t ht ↦ by simp [inorder, ht]) (hleft.balanced hgroupedl)
    obtain ⟨calls', w₂, b, hright⟩ := ihr hr hgroupedr
    have hw₂ := World.admits_balanced.trans _ _ _ (hleft.balanced hgroupedl)
      (hright.balanced hgroupedr)
    obtain ⟨bound, v, w₃, hv, hcall⟩ := h.call w₂ hw₂ op (by simp [inorder]) (by simp [hop]) a b
      hleft.isComplete hright.isComplete
    exact ⟨_, w₃, v, .node hleft hright bound hcall hv⟩

/-- Operators of a grouped tree are those of the form that it reads as. -/
theorem Grouped.postorder_perm {operatorFor : Token → Option Operator}
    (h : tree.Grouped operatorFor) :
    tree.postorder.Perm (tree.inorder.filter fun t ↦ (operatorFor t).isSome) := by
  induction tree with
  | leaf t =>
    have ht : operatorFor t = none := h
    simp [postorder, inorder, ht]
  | node op left right ihl ihr =>
    obtain ⟨hl, hr, o, hop, -⟩ := h
    rw [postorder, inorder, List.filter_append, List.filter_cons_of_pos (by simp [hop])]
    exact (List.perm_append_comm.trans (((ihl hl).append (ihr hr)).cons op)).trans
      List.perm_middle.symm

/-- Operands and operators in turn, from an operand to an operand, are one tree, which reads in
order as they do and in which both sides of each node bind first. An infix form becomes the nested
calls of that tree. Where parentheses are calls and each call of an operator gives one complete
token, the scan of these makes the calls of the tree: one for each operator of the form, with what
its two sides came to, and no others if the operands are complete. -/
theorem parse_and_call (w : World) (id : ScopeId) {form : List Token}
    (h : Alternates (w.scope id).operatorFor form) :
    ∃ tree, parse (w.scope id).operatorFor form = .ok (some tree) ∧
      (Varying.applyInfix id form).run.run w = (.ok tree.calls, w) ∧
      tree.inorder = form ∧ tree.Grouped (w.scope id).operatorFor ∧
      ((w.scope id).CallsInParens → ∀ calls regions w' v, Computes id w tree calls regions w' v →
        (calls.filterMap List.head?).Perm
          (form.filter fun t ↦ ((w.scope id).operatorFor t).isSome) ∧
        calls.Sublist regions ∧
        ((∀ t ∈ form, (w.scope id).operatorFor t = none → t.isComplete = true) →
          regions = calls) ∧
        (∀ frames rest, ∃ hops,
          Scan.Runs id w ⟨frames, tree.calls ++ rest, 0⟩ regions w' ⟨frames, v :: rest, hops⟩) ∧
        ∀ rest, ∃ bound, ∀ fuel ≥ bound,
          (Program.stepWithin fuel id (tree.calls ++ rest)).run.run w =
            (.ok (.value v rest), w')) ∧
      (Yields id w (w.scope id) form → ∃ calls w' v, Computes id w tree calls calls w' v) := by
  obtain ⟨tree, hparse, rfl, hgrouped⟩ := exists_parse h
  refine ⟨tree, hparse, ?_, rfl, hgrouped, fun hw calls regions w' v hcomputes ↦ ?_,
    fun hyields ↦ hyields.exists_computes hgrouped⟩
  · rw [Varying.applyInfix, EvalM.run_bind, EvalM.outcome_scope, EvalM.after_scope]
    dsimp only
    rw [hparse]
    rfl
  have hruns := hcomputes.runs hgrouped hw
  refine ⟨?_, hcomputes.sublist, hcomputes.regions_eq hgrouped, hruns, fun rest ↦ ?_⟩
  · have hheads : calls.filterMap List.head? = tree.postorder := by
      have hmap := congrArg (List.filterMap fun t ↦ t) hcomputes.map_head?
      simpa [List.filterMap_map, Function.comp_def] using hmap
    rw [hheads]
    exact hgrouped.postorder_perm
  · obtain ⟨hops, hrun⟩ := hruns [] rest
    obtain ⟨bound, steps, hsteps⟩ := hrun.run_eq
    refine ⟨bound + 1 + steps, fun fuel hfuel ↦ ?_⟩
    obtain ⟨extra, rfl⟩ := Nat.exists_eq_add_of_le hfuel
    have hrun := hsteps (bound + extra + 1) (by omega)
    rw [Scan.run_value hcomputes.isComplete] at hrun
    rw [← hrun, show bound + 1 + steps + extra = bound + extra + 1 + steps by omega]
    rfl

/-- A product on the right of a sum, in a new world. -/
theorem parse_and_call_product :
    let w := World.new ⟨"", false, 0, 1⟩
    let plus : Token := .stable (.function (.arith .add) 15)
    let times : Token := .stable (.function (.arith .mul) 12)
    let one : Token := .stable (.int 1)
    let two : Token := .stable (.int 2)
    let three : Token := .stable (.int 3)
    let tree := node plus (.leaf one) (.node times (.leaf two) (.leaf three))
    (Varying.applyInfix World.root [one, plus, two, times, three]).run.run w = (.ok tree.calls, w) ∧
      ∃ bound, ∀ fuel ≥ bound, (Program.stepWithin fuel World.root tree.calls).outcome w =
        .ok (.value (.stable (.int 7)) []) := by
  intro w plus times one two three tree
  have hplus : (w.scope World.root).operatorFor plus = some ⟨6, false⟩ := rfl
  have htimes : (w.scope World.root).operatorFor times = some ⟨7, false⟩ := rfl
  have hform : Alternates (w.scope World.root).operatorFor [one, plus, two, times, three] :=
    .more rfl hplus (.more rfl htimes (.operand rfl))
  have hparse : parse (w.scope World.root).operatorFor [one, plus, two, times, three] =
      .ok (some tree) := rfl
  have hproduct : Computes World.root w (.node times (.leaf two) (.leaf three))
      [[times, two, three]] [[times, two, three]] { w with nextRef := w.nextRef + 1 }
      (.stable (.int 6)) :=
    .node (computes_leaf _ w rfl) (computes_leaf _ w rfl) 0 (fun _ _ ↦ rfl) rfl
  have hsum : Computes World.root w tree [[times, two, three], [plus, one, .stable (.int 6)]]
      [[times, two, three], [plus, one, .stable (.int 6)]]
      { w with nextRef := w.nextRef + 1 + 1 } (.stable (.int 7)) :=
    .node (computes_leaf _ w rfl) hproduct 0 (fun _ _ ↦ rfl) rfl
  have hparens : (w.scope World.root).CallsInParens := World.callsInParens_new _
  obtain ⟨tree', hparse', happly, -, -, hcalls, -⟩ := parse_and_call w World.root hform
  obtain rfl : tree = tree' := Option.some.inj (Except.ok.inj (hparse.symm.trans hparse'))
  refine ⟨happly, ?_⟩
  obtain ⟨-, -, -, -, hstep⟩ := hcalls hparens _ _ _ _ hsum
  obtain ⟨bound, hbound⟩ := hstep []
  refine ⟨bound, fun fuel hfuel ↦ ?_⟩
  have hrun := hbound fuel hfuel
  rw [List.append_nil] at hrun
  exact congrArg Prod.fst hrun

/-- Parentheses without a meaning leave what stands between them. -/
theorem reaches_unbound {w : World} {id : ScopeId} (hw : (w.scope id).varying? "(" = none)
    (u v x : Value) (rest : List Token) :
    Scan.Reaches w id ⟨[], .opening "(" "" none :: .stable u :: .stable v :: .stable x ::
      .closing ")" none :: rest, 0⟩ ⟨[], .stable u :: .stable v :: .stable x :: rest, 0⟩ := by
  have hmodes : ((w.scope id).varying? "").or ((w.scope id).varying? "(") = none := by
    rw [hw]
    rfl
  have hmatch : (Token.opening "(" "" none).closesWith (.closing ")" none) = true := rfl
  refine .trans (Scan.quiet_open (by decide) (by decide) "" none).reaches ?_
  refine .trans (Scan.quiet_pass _ u none).reaches ?_
  refine .trans (Scan.quiet_pass _ v none).reaches ?_
  refine .trans (Scan.quiet_pass _ x none).reaches ?_
  refine (Scan.quiet_close (f := ⟨.opening "(" "" none, [.stable x, .stable v, .stable u], []⟩)
    [.stable u, .stable v, .stable x] (by decide) hmatch fun ev fuel ↦ ?_).reaches
  rw [Evaluator.close, EvalM.outcome_bind, EvalM.after_bind, EvalM.outcome_scope, EvalM.after_scope]
  dsimp only [Token.mode, Token.bracket]
  rw [hmodes]
  exact ⟨rfl, rfl⟩

/-- A host that defines an operator under the name of a parenthesis takes its meaning away. A sum is
still grouped, and adding its operands would give their sum, but the scan of its calls gives the
operator itself and leaves the operands behind it. -/
theorem uncalled_rebound :
    let session := (Session.new ⟨"", false, 0, 1⟩).perform World.root
      (.defineOperator "(" (.arith .add) ⟨6, false⟩)
    let w := session.world
    let plus : Token := .stable (.function (.arith .add) 15)
    let one : Token := .stable (.int 1)
    let two : Token := .stable (.int 2)
    let tree := node plus (.leaf one) (.leaf two)
    Alternates (w.scope World.root).operatorFor [one, plus, two] ∧
      parse (w.scope World.root).operatorFor [one, plus, two] = .ok (some tree) ∧
      Computes World.root w tree [[plus, one, two]] [[plus, one, two]]
        { w with nextRef := w.nextRef + 1 } (.stable (.int 3)) ∧
      ∃ bound, ∀ fuel ≥ bound, (Program.stepWithin fuel World.root tree.calls).run.run w =
        (.ok (.value plus [one, two]), w) := by
  intro session w plus one two tree
  have hplus : (w.scope World.root).operatorFor plus = some ⟨6, false⟩ := rfl
  refine ⟨.more rfl hplus (.operand rfl), rfl, ?_, ?_⟩
  · exact .node (computes_leaf _ w rfl) (computes_leaf _ w rfl) 0 (fun _ _ ↦ rfl) rfl
  have hparens : (w.scope World.root).varying? "(" = none :=
    Scope.varying?_installOperator ((World.new ⟨"", false, 0, 1⟩).scope World.root) "(" _ _ _
  obtain ⟨steps, hsteps⟩ := Scan.run_of_reaches (reaches_unbound hparens _ _ _ [])
  refine ⟨1 + steps, fun fuel hfuel ↦ ?_⟩
  obtain ⟨extra, rfl⟩ := Nat.exists_eq_add_of_le hfuel
  rw [show 1 + steps + extra = extra + 1 + steps by omega]
  exact (hsteps (extra + 1)).trans (Scan.run_value rfl _ 0 extra World.root w)

end OperatorTree

end TokenLang

import Mathlib.Tactic
import TokenLang.OperatorTree

/-!
Infix forms are grouped by precedence. Operands and operators in turn, from an operand to an operand
(`OperatorTree.Alternates`), are always one tree (`OperatorTree.exists_parse`): read in order it is
the form again, and at each of its nodes the operators at the roots of both sides bind first
(`OperatorTree.Grouped`), whatever the precedences and associativities are.

The two stacks of a grouping under way are read as a form whose right end is still open
(`OperatorTree.Pending`): trees and waiting operators in turn, each operator of which takes its
operands after the next one does. Combining the last two trees keeps that reading, and so does every
token of the form.
-/

set_option autoImplicit false
set_option relaxedAutoImplicit false

namespace TokenLang.OperatorTree

/-! ### Forms and trees -/

/-- Operands and operators in turn, the first and the last of them operands. -/
inductive Alternates (operatorFor : Token → Option Operator) : List Token → Prop
  | operand {t : Token} (ht : operatorFor t = none) : Alternates operatorFor [t]
  | more {t op : Token} {o : Operator} {rest : List Token} (ht : operatorFor t = none)
      (hop : operatorFor op = some o) (hrest : Alternates operatorFor rest) :
      Alternates operatorFor (t :: op :: rest)

/-- The tokens of a tree from left to right. -/
def inorder : OperatorTree → List Token
  | .leaf t => [t]
  | .node op left right => left.inorder ++ op :: right.inorder

/-- The operator at the root of a tree, if it is no operand. -/
def root? (operatorFor : Token → Option Operator) : OperatorTree → Option Operator
  | .leaf _ => none
  | .node op _ _ => operatorFor op

/-- An operator may stand at the root of the left side of another: it has the higher precedence, or
the same, and the other groups to the left. -/
def LeftOf (left o : Operator) : Prop :=
  o.precedence < left.precedence ∨ left.precedence = o.precedence ∧ o.rightAssociative = false

/-- An operator may stand at the root of the right side of another: it has the higher precedence, or
the same, and groups to the right. -/
def RightOf (right o : Operator) : Prop :=
  o.precedence < right.precedence ∨ right.precedence = o.precedence ∧ right.rightAssociative = true

/-- Trees of operands and operators in which both sides of each node bind first. -/
def Grouped (operatorFor : Token → Option Operator) : OperatorTree → Prop
  | .leaf t => operatorFor t = none
  | .node op left right => left.Grouped operatorFor ∧ right.Grouped operatorFor ∧
    ∃ o, operatorFor op = some o ∧ (∀ l, left.root? operatorFor = some l → LeftOf l o) ∧
      ∀ r, right.root? operatorFor = some r → RightOf r o

theorem bindsFirst_iff {waiting next : Operator} :
    bindsFirst waiting next = true ↔ LeftOf waiting next := by
  simp [bindsFirst, LeftOf]

theorem bindsFirst_eq_false_iff {waiting next : Operator} :
    bindsFirst waiting next = false ↔ RightOf next waiting := by
  rw [← Bool.not_eq_true, bindsFirst_iff, LeftOf, RightOf]
  cases next.rightAssociative <;> simp <;> omega

/-! ### Groupings under way -/

variable {operatorFor : Token → Option Operator}

/-- Waiting operators and finished trees, last first, and the tokens that they were read from. An
operator waits between two trees; the one on its left may be its left side, and the operator or the
tree after it may be at the root of its right side. -/
inductive Pending (operatorFor : Token → Option Operator) :
    List (Token × Operator) → List OperatorTree → List Token → Prop
  | first {tree : OperatorTree} (htree : tree.Grouped operatorFor) :
      Pending operatorFor [] [tree] tree.inorder
  | next {operators : List (Token × Operator)} {operands : List OperatorTree}
      {left right : OperatorTree} {before : List Token} {op : Token} {o : Operator}
      (hbefore : Pending operatorFor operators (left :: operands) before)
      (hop : operatorFor op = some o)
      (hleft : ∀ l, left.root? operatorFor = some l → LeftOf l o)
      (hwaiting : ∀ w ∈ operators.head?, RightOf o w.2)
      (htree : right.Grouped operatorFor)
      (hright : ∀ r, right.root? operatorFor = some r → RightOf r o) :
      Pending operatorFor ((op, o) :: operators) (right :: left :: operands)
        (before ++ op :: right.inorder)

/-- The last tree is a grouped one, and the tokens read end with it. Another grouped tree may take
its place if the last operator can have it on its right side. -/
theorem Pending.last {operators : List (Token × Operator)} {operands : List OperatorTree}
    {tree : OperatorTree} {tokens : List Token}
    (h : Pending operatorFor operators (tree :: operands) tokens) :
    tree.Grouped operatorFor ∧ ∃ before, tokens = before ++ tree.inorder ∧
      ∀ other : OperatorTree, other.Grouped operatorFor →
        (∀ w ∈ operators.head?, ∀ r, other.root? operatorFor = some r → RightOf r w.2) →
        Pending operatorFor operators (other :: operands) (before ++ other.inorder) := by
  cases h with
  | first htree => exact ⟨htree, [], rfl, fun other hother _ ↦ .first hother⟩
  | @next _ _ left _ before op o hbefore hop hleft hwaiting htree hright =>
    refine ⟨htree, before ++ [op], by simp, fun other hother hroot ↦ ?_⟩
    rw [List.append_assoc, List.singleton_append]
    exact .next hbefore hop hleft hwaiting hother fun r hr ↦ hroot _ rfl r hr

/-- Giving the last operator its two operands. -/
theorem Pending.combine {operators : List (Token × Operator)} {operands : List OperatorTree}
    {op : Token} {o : Operator} {tokens : List Token}
    (h : Pending operatorFor ((op, o) :: operators) operands tokens) :
    ∃ left right others, operands = right :: left :: others ∧ operatorFor op = some o ∧
      Pending operatorFor operators (.node op left right :: others) tokens := by
  cases h with
  | @next _ others left right before _ _ hbefore hop hleft hwaiting htree hright =>
    refine ⟨left, right, others, rfl, hop, ?_⟩
    obtain ⟨hgrouped, start, rfl, hreplace⟩ := hbefore.last
    have hnode := hreplace (.node op left right) ⟨hgrouped, htree, o, hop, hleft, hright⟩
      fun w hw r hr ↦ by
        obtain rfl : o = r := Option.some.inj (hop.symm.trans hr)
        exact hwaiting w hw
    rwa [inorder, ← List.append_assoc] at hnode

/-- Combining the operators that bind before the next one. -/
theorem Pending.settle {operators : List (Token × Operator)} {tree : OperatorTree}
    {operands : List OperatorTree} {tokens : List Token} {next : Operator}
    (h : Pending operatorFor operators (tree :: operands) tokens)
    (htree : ∀ l, tree.root? operatorFor = some l → LeftOf l next) :
    ∃ waiting left others, Stack.settle next operators (tree :: operands) =
        .ok ⟨left :: others, waiting⟩ ∧
      Pending operatorFor waiting (left :: others) tokens ∧
      (∀ l, left.root? operatorFor = some l → LeftOf l next) ∧
      ∀ w ∈ waiting.head?, RightOf next w.2 := by
  induction operators generalizing tree operands with
  | nil => exact ⟨[], tree, operands, rfl, h, htree, fun _ hw ↦ by cases hw⟩
  | cons entry operators ih =>
    obtain ⟨op, o⟩ := entry
    unfold Stack.settle
    cases hbinds : bindsFirst o next with
    | false =>
      refine ⟨(op, o) :: operators, tree, operands, rfl, h, htree, fun w hw ↦ ?_⟩
      cases hw
      exact bindsFirst_eq_false_iff.mp hbinds
    | true =>
      obtain ⟨left, right, others, hoperands, hop, hnode⟩ := h.combine
      cases hoperands
      refine ih hnode fun l hl ↦ ?_
      obtain rfl : o = l := Option.some.inj (hop.symm.trans hl)
      exact bindsFirst_iff.mp hbinds

/-- Combining all operators. -/
theorem Pending.finish {operators : List (Token × Operator)} {operands : List OperatorTree}
    {tokens : List Token} (h : Pending operatorFor operators operands tokens) :
    ∃ tree, Stack.finish operators operands = .ok [tree] ∧ tree.Grouped operatorFor ∧
      tree.inorder = tokens := by
  induction operators generalizing operands with
  | nil =>
    cases h with
    | first htree => exact ⟨_, rfl, htree, rfl⟩
  | cons entry operators ih =>
    obtain ⟨op, o⟩ := entry
    obtain ⟨left, right, others, rfl, -, hnode⟩ := h.combine
    exact ih hnode

/-! ### Whole forms -/

/-- A grouping that waits for an operand: it has read nothing, or an operator last. -/
inductive Ready (operatorFor : Token → Option Operator) : Stack → List Token → Prop
  | start : Ready operatorFor ⟨[], []⟩ []
  | after {operators : List (Token × Operator)} {operands : List OperatorTree}
      {left : OperatorTree} {before : List Token} {op : Token} {o : Operator}
      (hbefore : Pending operatorFor operators (left :: operands) before)
      (hop : operatorFor op = some o)
      (hleft : ∀ l, left.root? operatorFor = some l → LeftOf l o)
      (hwaiting : ∀ w ∈ operators.head?, RightOf o w.2) :
      Ready operatorFor ⟨left :: operands, (op, o) :: operators⟩ (before ++ [op])

/-- Reading an operand. -/
theorem Ready.operand {s : Stack} {before : List Token} (h : Ready operatorFor s before) {t : Token}
    (ht : operatorFor t = none) :
    Pending operatorFor s.operators (.leaf t :: s.operands) (before ++ [t]) := by
  have hleaf : (leaf t).Grouped operatorFor := ht
  cases h with
  | start => exact .first hleaf
  | after hbefore hop hleft hwaiting =>
    rw [List.append_assoc, List.singleton_append]
    exact .next hbefore hop hleft hwaiting hleaf fun _ hr ↦ by cases hr

theorem Ready.feed {form : List Token} (hform : Alternates operatorFor form) {s : Stack}
    {before : List Token} (h : Ready operatorFor s before) :
    ∃ s', Stack.feed operatorFor s form = .ok s' ∧
      Pending operatorFor s'.operators s'.operands (before ++ form) := by
  induction hform generalizing s before with
  | @operand t ht =>
    refine ⟨⟨.leaf t :: s.operands, s.operators⟩, ?_, h.operand ht⟩
    simp [Stack.feed, ht]
  | @more t op o rest ht hop hrest ih =>
    obtain ⟨waiting, left, others, hsettle, hpending, hleft, hwaiting⟩ :=
      (h.operand ht).settle fun l (hl : none = some l) ↦ by cases hl
    obtain ⟨s', hfeed, hs'⟩ := ih (.after hpending hop hleft hwaiting)
    refine ⟨s', ?_, by simpa using hs'⟩
    simp [Stack.feed, ht, hop, hsettle, bind, Except.bind, hfeed]

/-- Operands and operators in turn are one grouped tree, which reads in order as they do. -/
theorem exists_parse {form : List Token} (h : Alternates operatorFor form) :
    ∃ tree, parse operatorFor form = .ok (some tree) ∧ tree.inorder = form ∧
      tree.Grouped operatorFor := by
  obtain ⟨s, hfeed, hpending⟩ := Ready.start.feed h
  obtain ⟨tree, hfinish, hgrouped, hinorder⟩ := hpending.finish
  refine ⟨tree, ?_, hinorder, hgrouped⟩
  simp [parse, hfeed, bind, Except.bind, hfinish, pure, Except.pure]

end TokenLang.OperatorTree

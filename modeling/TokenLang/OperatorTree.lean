import TokenLang.Scope
import TokenLang.Value.Show

/-!
Infix forms as trees. Operands and operators in turn are grouped by the precedence
and associativity of the operators, and the tree is written out as nested calls.
-/

set_option autoImplicit false
set_option relaxedAutoImplicit false

namespace TokenLang

inductive OperatorTree where
  | leaf (t : Token)
  | node (op : Token) (left right : OperatorTree)

namespace OperatorTree

/-- The nested calls that a tree stands for. -/
def calls : OperatorTree → List Token
  | .leaf t => [t]
  | .node op left right =>
    .opening "(" "" none :: op :: (left.calls ++ (right.calls ++ [.closing ")" none]))

/-- A grouping under way: finished operands and waiting operators, last first. -/
structure Stack where
  operands : List OperatorTree
  operators : List (Token × Operator)

/-- Gives the last operator its two operands. -/
def Stack.combine (op : Token) : List OperatorTree → Except Failure (List OperatorTree)
  | right :: left :: operands => .ok (.node op left right :: operands)
  | _ => .error (.blaming op (.operandMissing op.text))

/-- Whether a waiting operator takes its operands before the next operator does. -/
def bindsFirst (waiting next : Operator) : Bool :=
  next.precedence < waiting.precedence ||
    (waiting.precedence == next.precedence && !next.rightAssociative)

/-- Combines waiting operators as long as they bind before the next one. -/
def Stack.settle (next : Operator) :
    List (Token × Operator) → List OperatorTree → Except Failure Stack
  | [], operands => .ok ⟨operands, []⟩
  | (op, entry) :: operators, operands =>
    if bindsFirst entry next then do settle next operators (← combine op operands)
    else .ok ⟨operands, (op, entry) :: operators⟩

/-- Combines all waiting operators. -/
def Stack.finish : List (Token × Operator) → List OperatorTree →
    Except Failure (List OperatorTree)
  | [], operands => .ok operands
  | (op, _) :: operators, operands => do finish operators (← combine op operands)

/-- Takes the tokens of a form in turn. -/
def Stack.feed (operatorFor : Token → Option Operator) :
    Stack → List Token → Except Failure Stack
  | s, [] => .ok s
  | s, t :: rest =>
    match operatorFor t with
    | none => feed operatorFor ⟨.leaf t :: s.operands, s.operators⟩ rest
    | some entry => do
      let settled ← settle entry s.operators s.operands
      feed operatorFor ⟨settled.operands, (t, entry) :: settled.operators⟩ rest

/-- The tree of a form; an empty form has none. -/
def parse (operatorFor : Token → Option Operator) (form : List Token) :
    Except Failure (Option OperatorTree) := do
  let s ← Stack.feed operatorFor ⟨[], []⟩ form
  match ← Stack.finish s.operators s.operands with
  | [] => return none
  | [tree] => return some tree
  | _ => .error (.of (.infixExpression (Token.encode form)))

end OperatorTree

end TokenLang

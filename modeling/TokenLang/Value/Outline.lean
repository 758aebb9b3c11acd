import TokenLang.Value.Show

/-!
An indented view of values, one line for each value and each pending token.
-/

set_option autoImplicit false
set_option relaxedAutoImplicit false

namespace TokenLang

def indentation (level : Nat) : String := String.join (List.replicate level "    ")

/-- The line for a value that is not there. -/
def missingLine (level : Nat) : String := indentation level ++ ":nil\n"

mutual

def Value.outlineAt (level : Nat) : Value → String
  | .list items =>
    indentation level ++ "(list): " ++ toString items.length ++ " items\n" ++
      Token.itemLines level items
  | .quote items =>
    indentation level ++ "(quote): " ++ toString items.length ++ " items\n" ++
      Token.itemLines level items
  | .map entries =>
    indentation level ++ "(map): " ++ toString entries.length ++ " entries\n" ++
      Entry.lines level entries
  | .set members =>
    indentation level ++ "(set): " ++ toString members.length ++ " members\n" ++
      Token.valueLines (level + 1) members
  | v => indentation level ++ "(" ++ v.typeName ++ "): " ++ v.text ++ "\n"

/-- The lines of the value of a token at a level. -/
def Token.outlineAt (level : Nat) : Token → String
  | .done value _ => value.outlineAt level
  | .envoy e _ => indentation level ++ "(morph): " ++ e.text ++ "\n"
  | .varying v _ => indentation level ++ "(morph): " ++ v.text ++ "\n"
  | _ => missingLine level

/-- The lines of the items of a list; a pending item is written as it stands. -/
def Token.itemLines (level : Nat) : List Token → String
  | [] => ""
  | t :: ts =>
    (match t.value? with
      | some _ => t.outlineAt (level + 1)
      | none => indentation (level + 1) ++ t.text ++ "\n") ++ Token.itemLines level ts

def Token.valueLines (level : Nat) : List Token → String
  | [] => ""
  | t :: ts => t.outlineAt level ++ Token.valueLines level ts

def Entry.lines (level : Nat) : List Entry → String
  | [] => ""
  | .mk key value :: entries =>
    key.outlineAt (level + 1) ++ value.outlineAt (level + 2) ++ Entry.lines level entries

end

def Value.outline (values : List Value) : String :=
  String.join (values.map (Value.outlineAt 0))

end TokenLang

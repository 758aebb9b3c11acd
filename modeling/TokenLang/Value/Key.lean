import TokenLang.Text.Quoted
import TokenLang.Value.Show

/-!
The key of a value, the text by which maps and sets tell their members apart.
Parts of a key are quoted, so that where one part ends is never in doubt, and the
parts of a map or set are sorted, so that the order of insertion does not show.
-/

set_option autoImplicit false
set_option relaxedAutoImplicit false

namespace TokenLang

/-- The key of something that is only the same as itself. -/
def Ref.key (ref : Ref) : String := "p:0x" ++ Text.Quoted.hex 1 ref

/-- Puts a text in front of the first that is not smaller. -/
def insertSorted (key : String) : List String → List String
  | [] => [key]
  | k :: rest => if k < key then k :: insertSorted key rest else key :: k :: rest

def sortedKeys (keys : List String) : List String := keys.foldr insertSorted []

mutual

def Value.key : Value → String
  | .null => "n:"
  | .bool b => "bool:" ++ (if b then "true" else "false")
  | .int i => "int:" ++ toString i.toInt
  | .float x _ => "float:" ++ Decimal.plain.write x
  | .char c => "char:" ++ Value.charText c
  | .string s => "s:" ++ s
  | .atom name => "a:" ++ name
  | .list items => "list:[" ++ spaced (Token.quotedKeys items) ++ "]"
  | .quote items => "quote:[" ++ spaced (Token.quotedKeys items) ++ "]"
  | .map entries => "map:" ++ spaced (sortedKeys (Entry.quotedKeys entries))
  | .set members => "set:" ++ spaced (sortedKeys (Token.quotedKeys members))
  | .function _ ref => Ref.key ref
  | .expander _ ref => Ref.key ref
  | .morph _ ref => Ref.key ref
  | .object _ ref => Ref.key ref

/-- The key of the value of a token, or the text of a token that has none. -/
def Token.key : Token → String
  | .done value _ => value.key
  | .envoy _ ref => Ref.key ref
  | .varying _ ref => Ref.key ref
  | .symbol name pos => "t:" ++ (Token.symbol name pos).text
  | .opening bracket mode pos => "t:" ++ (Token.opening bracket mode pos).text
  | .closing bracket pos => "t:" ++ (Token.closing bracket pos).text
  | .literal delimiter text mode pos => "t:" ++ (Token.literal delimiter text mode pos).text

def Token.quotedKeys : List Token → List String
  | [] => []
  | t :: ts => Text.Quoted.quote t.key :: Token.quotedKeys ts

def Entry.quotedKeys : List Entry → List String
  | [] => []
  | .mk key value :: entries =>
    (Text.Quoted.quote key.key ++ "=" ++ Text.Quoted.quote value.key) ::
      Entry.quotedKeys entries

end

/-- Whether two values have the same key. Integers, strings and atoms need not be
written out for that. -/
def Value.sameKey : Value → Value → Bool
  | .int a, .int b => a == b
  | .int _, _ | _, .int _ => false
  | .string a, .string b => a == b
  | .string _, _ | _, .string _ => false
  | .atom a, .atom b => a == b
  | .atom _, _ | _, .atom _ => false
  | a, b => a.key == b.key

/-- Whether two tokens have the same key. -/
def Token.sameKey : Token → Token → Bool
  | .done a _, .done b _ => a.sameKey b
  | s, t => s.key == t.key

theorem Value.sameKey_self (v : Value) : v.sameKey v = true := by
  cases v <;> simp [Value.sameKey]

theorem Token.sameKey_self (t : Token) : t.sameKey t = true := by
  cases t <;> simp [Token.sameKey, Value.sameKey_self]

end TokenLang

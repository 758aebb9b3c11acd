import TokenLang.Program
import TokenLang.Proofs.Collection

/-!
Data: the values that can be written down and read back. `Value.IsData` says which values they
are, `Value.bare` what is compared when they come back (everything but places in a text and
reference numbers), and `Value.source` the tokens that the text of a value is read as.
-/

set_option autoImplicit false
set_option relaxedAutoImplicit false

namespace TokenLang

/-! ### Places and reference numbers left out -/

mutual

/-- A value without the places of its tokens and the reference numbers of its floats. -/
def Value.bare : Value → Value
  | .float x _ => .float x 0
  | .list items => .list (Token.bares items)
  | .quote items => .quote (Token.bares items)
  | .map entries => .map (Entry.bares entries)
  | .set members => .set (Token.bares members)
  | v => v

def Token.bare : Token → Token
  | .symbol name _ => .symbol name none
  | .opening bracket mode _ => .opening bracket mode none
  | .closing bracket _ => .closing bracket none
  | .literal delimiter text mode _ => .literal delimiter text mode none
  | .done v _ => .done v.bare none
  | t => t

def Token.bares : List Token → List Token
  | [] => []
  | t :: ts => t.bare :: Token.bares ts

def Entry.bares : List Entry → List Entry
  | [] => []
  | .mk key value :: entries => .mk key.bare value.bare :: Entry.bares entries

end

theorem Token.bares_eq_map (ts : List Token) : Token.bares ts = ts.map Token.bare := by
  induction ts with
  | nil => rfl
  | cons t ts ih => rw [Token.bares, ih, List.map_cons]

theorem Entry.bares_eq_map (entries : List Entry) :
    Entry.bares entries = entries.map fun e ↦ .mk e.key.bare e.value.bare := by
  induction entries with
  | nil => rfl
  | cons e entries ih =>
    obtain ⟨key, value⟩ := e
    rw [Entry.bares, ih, List.map_cons]
    rfl

mutual

/-- Keys do not depend on what is left out. -/
theorem Value.key_bare (v : Value) : v.bare.key = v.key := by
  match v with
  | .list items => rw [Value.bare, Value.key, Value.key, Token.quotedKeys_bares items]
  | .quote items => rw [Value.bare, Value.key, Value.key, Token.quotedKeys_bares items]
  | .map entries => rw [Value.bare, Value.key, Value.key, Entry.quotedKeys_bares entries]
  | .set members => rw [Value.bare, Value.key, Value.key, Token.quotedKeys_bares members]
  | .float x ref => rw [Value.bare, Value.key, Value.key]
  | .null | .bool _ | .int _ | .char _ | .string _ | .atom _ | .function _ _ | .expander _ _
  | .morph _ _ | .object _ _ => rfl

theorem Token.key_bare (t : Token) : t.bare.key = t.key := by
  match t with
  | .done v pos => rw [Token.bare, Token.key, Token.key, Value.key_bare v]
  | .symbol _ _ | .opening _ _ _ | .closing _ _ | .literal _ _ _ _ => rfl
  | .envoy _ _ | .varying _ _ => rfl

theorem Token.quotedKeys_bares (ts : List Token) :
    Token.quotedKeys (Token.bares ts) = Token.quotedKeys ts := by
  match ts with
  | [] => rfl
  | t :: ts =>
    rw [Token.bares, Token.quotedKeys, Token.quotedKeys, Token.key_bare t,
      Token.quotedKeys_bares ts]

theorem Entry.quotedKeys_bares (entries : List Entry) :
    Entry.quotedKeys (Entry.bares entries) = Entry.quotedKeys entries := by
  match entries with
  | [] => rfl
  | .mk key value :: entries =>
    rw [Entry.bares, Entry.quotedKeys, Entry.quotedKeys, Token.key_bare key,
      Token.key_bare value, Entry.quotedKeys_bares entries]

end

theorem Token.map_key_bares (ts : List Token) :
    (Token.bares ts).map Token.key = ts.map Token.key := by
  rw [Token.bares_eq_map, List.map_map]
  exact List.map_congr_left fun t _ ↦ t.key_bare

theorem Entry.map_keyText_bares (entries : List Entry) :
    (Entry.bares entries).map Entry.keyText = entries.map Entry.keyText := by
  rw [Entry.bares_eq_map, List.map_map]
  exact List.map_congr_left fun e _ ↦ e.key.key_bare

/-! ### Readable words and tokens -/

/-- Whether a text is read as one word, the text itself. -/
def Lexeme.isOneWord (text : String) : Bool :=
  match Lexeme.read (Text.Source.ofString text) with
  | .ok [unit, last] => unit.kind == .word && unit.text == text && last.kind == .finish
  | _ => false

/-- A word that is no number. -/
def isReadable (text : String) : Bool :=
  Lexeme.isOneWord text && (Numeral.read? text).isNone

/-- A mode that can be written in front of a bracket: with no character that ends it, and not
begun by the mark of a line comment. -/
def isReadableMode (mode : String) : Bool :=
  mode.toList.all (fun c ↦ !Lexeme.Scan.breaksWord c) && mode.toList.head? != some '!'

namespace Token

/-- Tokens of a quote that are read back one by one. -/
def IsReadable : Token → Prop
  | .symbol name _ => isReadable name = true ∨ name = ":" ∨ name = "@"
  | .opening bracket mode _ =>
    (bracket = "(" ∨ bracket = "[" ∨ bracket = "\x7b") ∧ isReadableMode mode = true
  | .closing bracket _ => bracket = ")" ∨ bracket = "]" ∨ bracket = "\x7d"
  | .done (.int _) _ => True
  | .done (.float _ _) _ => True
  | .done (.char _) _ => True
  | .done (.string _) _ => True
  | _ => False

/-- Whether every bracket is closed by its partner, those of `stack` included. -/
def nested : List Token → List Token → Bool
  | stack, [] => stack.isEmpty
  | stack, t :: rest =>
    if !t.isDelimiter then nested stack rest
    else if !t.closes then nested (t :: stack) rest
    else match stack with
      | [] => false
      | top :: below => top.closesWith t && nested below rest

end Token

/-! ### Data -/

mutual

/-- Values that have a text which reads back as them. -/
def Value.IsData : Value → Prop
  | .null => True
  | .bool _ => True
  | .int _ => True
  | .float _ _ => True
  | .char _ => True
  | .string _ => True
  | .atom name => isReadable name = true
  | .list items => Token.AllData items
  | .quote items => (∀ t ∈ items, t.IsReadable) ∧ Token.nested [] items = true
  | .map entries => Entry.AllData entries ∧ (entries.map Entry.keyText).Nodup
  | .set members => Token.AllData members ∧ (members.map Token.key).Nodup
  | _ => False

def Token.IsData : Token → Prop
  | .done v _ => v.IsData
  | _ => False

def Token.AllData : List Token → Prop
  | [] => True
  | t :: ts => t.IsData ∧ Token.AllData ts

def Entry.AllData : List Entry → Prop
  | [] => True
  | .mk key value :: entries => key.IsData ∧ value.IsData ∧ Entry.AllData entries

end

theorem Token.allData_iff (ts : List Token) : Token.AllData ts ↔ ∀ t ∈ ts, t.IsData := by
  induction ts with
  | nil => simp [Token.AllData]
  | cons t ts ih => simp [Token.AllData, ih]

theorem Entry.allData_iff (entries : List Entry) :
    Entry.AllData entries ↔ ∀ e ∈ entries, e.key.IsData ∧ e.value.IsData := by
  induction entries with
  | nil => simp [Entry.AllData]
  | cons e entries ih =>
    obtain ⟨key, value⟩ := e
    simp [Entry.AllData, ih, Entry.key, Entry.value, and_assoc]

/-- A map made from data is data. -/
theorem Value.isData_map {entries result : List Entry} {args : List Token}
    (hold : Entry.AllData entries) (hnew : Token.AllData args)
    (h : Entry.putAll entries args = .ok result) : (Value.map result).IsData := by
  refine ⟨(Entry.allData_iff result).mpr ?_, Entry.nodup_putAll h⟩
  refine Entry.forall_putAll ((Entry.allData_iff entries).mp hold) ?_ h
  intro key hkey value hvalue
  refine ⟨(Token.allData_iff args).mp hnew key hkey, ?_⟩
  rcases hvalue with hvalue | rfl
  · exact (Token.allData_iff args).mp hnew value hvalue
  · exact trivial

/-- A set made from data is data. -/
theorem Value.isData_set {members args result : List Token} (hold : Token.AllData members)
    (hnew : Token.AllData args) (h : Token.addMembers members args = .ok result) :
    (Value.set result).IsData := by
  refine ⟨(Token.allData_iff result).mpr ?_, Token.nodup_addMembers h⟩
  exact Token.forall_addMembers ((Token.allData_iff members).mp hold)
    ((Token.allData_iff args).mp hnew) h

mutual

/-- The tokens that the text of a value is read as, without their places. -/
def Value.source : Value → List Token
  | .null => [.symbol "null" none]
  | .bool b => [.symbol (if b then "true" else "false") none]
  | .atom name => [.symbol ":" none, .symbol name none]
  | .list items => .opening "[" "" none :: (Token.sources items ++ [.closing "]" none])
  | .quote items =>
    .symbol ":" none :: .opening "(" "" none :: (Token.bares items ++ [.closing ")" none])
  | .map entries => .opening "[" "map" none :: (Entry.sources entries ++ [.closing "]" none])
  | .set members => .opening "[" "set" none :: (Token.sources members ++ [.closing "]" none])
  | v => [.done v.bare none]

def Token.source : Token → List Token
  | .done v _ => v.source
  | t => [t.bare]

def Token.sources : List Token → List Token
  | [] => []
  | t :: ts => t.source ++ Token.sources ts

def Entry.sources : List Entry → List Token
  | [] => []
  | .mk key value :: entries => key.source ++ value.source ++ Entry.sources entries

end

end TokenLang

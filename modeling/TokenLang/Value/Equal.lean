import TokenLang.Number
import TokenLang.Value.Key

/-!
Equality of values. Numbers are equal across the two numeric types; containers are
equal part by part, maps and sets without regard to order; everything with a
reference number is equal to itself, a float that is not a number included. Hence
every value is equal to itself (`Value.equal_self`).

Values share parts, and a value built from shared parts can be far larger than the
memory it takes. `Value.agrees` is the same equality, computed without looking into
parts that both sides share.
-/

set_option autoImplicit false
set_option relaxedAutoImplicit false

namespace TokenLang

/-- The entry with the key of a token. -/
def Entry.find? (entries : List Entry) (key : Token) : Option Entry :=
  entries.find? fun e ↦ e.key.sameKey key

/-- Whether a member with the key of a token is there. -/
def Token.hasKey (members : List Token) (key : Token) : Bool :=
  members.any fun t ↦ t.sameKey key

mutual

def Value.equal : Value → Value → Bool
  | .null, .null => true
  | .bool a, .bool b => a == b
  | .int a, .int b => a == b
  | .int a, .float b _ => Binary64.ofInt a.toInt == b
  | .float a _, .int b => a == Binary64.ofInt b.toInt
  | .float a r, .float b s => r == s || a == b
  | .char a, .char b => a == b
  | .string a, .string b => a == b
  | .atom a, .atom b => a == b
  | .list a, .list b => a.length == b.length && Token.equalAll a b
  | .quote a, .quote b => a.length == b.length && Token.equalAll a b
  | .map a, .map b => a.length == b.length && Entry.equalIn a b
  | .set a, .set b => a.length == b.length && a.all fun t ↦ Token.hasKey b t
  | .function _ r, .function _ s => r == s
  | .expander _ r, .expander _ s => r == s
  | .morph _ r, .morph _ s => r == s
  | .object _ r, .object _ s => r == s
  | _, _ => false
termination_by structural v => v

/-- Tokens that both hold values are equal by these, others by their text. -/
def Token.equal : Token → Token → Bool
  | .done v p, t =>
    match t.value? with
    | some w => v.equal w
    | none => (Token.done v p).text == t.text
  | .envoy e r, t =>
    match t.value? with
    | some (.morph _ s) => r == s
    | some _ => false
    | none => (Token.envoy e r).text == t.text
  | .varying v r, t =>
    match t.value? with
    | some (.morph _ s) => r == s
    | some _ => false
    | none => (Token.varying v r).text == t.text
  | .symbol name p, t => (Token.symbol name p).text == t.text
  | .opening bracket mode p, t => (Token.opening bracket mode p).text == t.text
  | .closing bracket p, t => (Token.closing bracket p).text == t.text
  | .literal delimiter text mode p, t => (Token.literal delimiter text mode p).text == t.text

def Token.equalAll : List Token → List Token → Bool
  | [], [] => true
  | a :: as, b :: bs => a.equal b && Token.equalAll as bs
  | _, _ => false

/-- Whether each of the entries has its like among the others. -/
def Entry.equalIn : List Entry → List Entry → Bool
  | [], _ => true
  | .mk key value :: entries, others =>
    (others.any fun e ↦ key.sameKey e.key && value.equal e.value) && Entry.equalIn entries others

end

mutual

theorem Value.equal_self (v : Value) : v.equal v = true := by
  match v with
  | .list items | .quote items => simp [Value.equal, Token.equalAll_self items]
  | .map entries => simp [Value.equal, Entry.equalIn_of_subset entries entries fun _ h ↦ h]
  | .set members =>
    simp only [Value.equal, beq_self_eq_true, Bool.true_and, List.all_eq_true]
    exact fun t ht ↦ List.any_eq_true.2 ⟨t, ht, t.sameKey_self⟩
  | .null | .bool _ | .int _ | .char _ | .string _ | .atom _ | .float _ _ | .function _ _
  | .expander _ _ | .morph _ _ | .object _ _ => simp [Value.equal]

theorem Token.equal_self (t : Token) : t.equal t = true := by
  match t with
  | .done value _ => simp [Token.equal, Token.value?, Value.equal_self value]
  | .envoy _ _ | .varying _ _ | .symbol _ _ | .opening _ _ _ | .closing _ _
  | .literal _ _ _ _ => simp [Token.equal, Token.value?]

theorem Token.equalAll_self (tokens : List Token) : Token.equalAll tokens tokens = true := by
  match tokens with
  | [] => rfl
  | t :: rest => simp [Token.equalAll, Token.equal_self t, Token.equalAll_self rest]

theorem Entry.equalIn_of_subset (entries others : List Entry)
    (h : ∀ e ∈ entries, e ∈ others) : Entry.equalIn entries others = true := by
  match entries with
  | [] => rfl
  | .mk key value :: rest =>
    have first : (others.any fun e ↦ key.sameKey e.key && value.equal e.value) = true :=
      List.any_eq_true.2 ⟨.mk key value, h _ (by simp), by
        simp [Entry.key, Entry.value, key.sameKey_self, Token.equal_self value]⟩
    simp [Entry.equalIn, first, Entry.equalIn_of_subset rest others fun e he ↦ h e (by simp [he])]

end

/-! ### Equality of values that share parts -/

mutual

/-- Whether two values are equal, by way of their parts. -/
def Value.agreement (v w : Value) : { r : Bool // r = v.equal w } :=
  match v, w with
  | .list a, .list b =>
    let ⟨r, h⟩ := Token.agreementAll a b
    ⟨a.length == b.length && r, by rw [h, Value.equal]⟩
  | .quote a, .quote b =>
    let ⟨r, h⟩ := Token.agreementAll a b
    ⟨a.length == b.length && r, by rw [h, Value.equal]⟩
  | .map a, .map b =>
    let ⟨r, h⟩ := Entry.agreementIn a b
    ⟨a.length == b.length && r, by rw [h, Value.equal]⟩
  | v, w => ⟨v.equal w, rfl⟩
termination_by structural v

/-- Tokens that hold one and the same value need not be looked into. -/
def Token.agreement (s t : Token) : { r : Bool // r = s.equal t } :=
  match s, t with
  | .done v p, .done w q =>
    have h : (Value.agreement v w).1 = (Token.done v p).equal (.done w q) := by
      rw [(Value.agreement v w).2, Token.equal, Token.value?]
    ⟨withPtrEq v w (fun _ ↦ (Value.agreement v w).1) fun same ↦ by
      rw [(Value.agreement v w).2, same, Value.equal_self], h⟩
  | s, t => ⟨s.equal t, rfl⟩

def Token.agreementAll (a b : List Token) : { r : Bool // r = Token.equalAll a b } :=
  match a, b with
  | [], [] => ⟨true, rfl⟩
  | s :: a, t :: b =>
    have h : ((Token.agreement s t).1 && (Token.agreementAll a b).1) =
        Token.equalAll (s :: a) (t :: b) := by
      rw [(Token.agreement s t).2, (Token.agreementAll a b).2, Token.equalAll]
    ⟨(Token.agreement s t).1 && (Token.agreementAll a b).1, h⟩
  | [], _ :: _ => ⟨false, rfl⟩
  | _ :: _, [] => ⟨false, rfl⟩

def Entry.agreementIn (entries others : List Entry) :
    { r : Bool // r = Entry.equalIn entries others } :=
  match entries with
  | [] => ⟨true, rfl⟩
  | .mk key value :: rest =>
    have h : ((others.any fun e ↦ key.sameKey e.key && (Token.agreement value e.value).1) &&
        (Entry.agreementIn rest others).1) = Entry.equalIn (.mk key value :: rest) others := by
      simp only [(Token.agreement value _).2, (Entry.agreementIn rest others).2, Entry.equalIn]
    ⟨(others.any fun e ↦ key.sameKey e.key && (Token.agreement value e.value).1) &&
      (Entry.agreementIn rest others).1, h⟩

end

/-- Whether two values are equal. -/
def Value.agrees (v w : Value) : Bool :=
  withPtrEq v w (fun _ ↦ (Value.agreement v w).1) fun same ↦ by
    rw [(Value.agreement v w).2, same, Value.equal_self]

/-- Whether two tokens are equal. -/
def Token.agrees (s t : Token) : Bool := (Token.agreement s t).1

@[simp] theorem Value.agrees_eq_equal (v w : Value) : v.agrees w = v.equal w :=
  (Value.agreement v w).2

@[simp] theorem Token.agrees_eq_equal (s t : Token) : s.agrees t = s.equal t :=
  (Token.agreement s t).2

/-- Equality where a value may be missing: what is missing equals only itself. -/
def Value.equal? : Option Value → Option Value → Bool
  | some a, some b => a.agrees b
  | none, none => true
  | _, _ => false

end TokenLang

import TokenLang.Eval.Scan
import TokenLang.Program
import TokenLang.Proofs.Collection

/-!
Captured scopes. User functions, user expanders and mutants run in a scope they captured; such a
`Captor` may sit anywhere in a token: in a list, among the entries of a map, in a body.
`Token.Captures` says that it does, and `Token.Only p` that all captors in a token satisfy `p`.

The parts of an evaluation that have no effect make no captors: what they give holds only captors
of the tokens they were given. There is one lemma for each of them: forms and their quotes,
unquoting and splicing, the calls of an operator tree, the methods, the tokens of a text.
-/

set_option autoImplicit false
set_option relaxedAutoImplicit false

namespace TokenLang

/-- Something that runs in a scope it captured. -/
inductive Captor where
  | function (name : String) (scope : ScopeId) (params : List String) (body : List Token)
  | expander (name : String) (scope : ScopeId) (params : List String) (body : List Token)
  | mutant (name : String) (scope : ScopeId) (body : List Token)

namespace Captor

def scope : Captor → ScopeId
  | .function _ scope _ _ => scope
  | .expander _ scope _ _ => scope
  | .mutant _ scope _ => scope

def body : Captor → List Token
  | .function _ _ _ body => body
  | .expander _ _ _ body => body
  | .mutant _ _ body => body

end Captor

/-! ### Where captors are -/

def Callable.captor? : Callable → Option Captor
  | .closure name scope params body => some (.function name scope params body)
  | .renamed _ f => f.captor?
  | _ => none

theorem Callable.captor?_of_core {f : Callable} {name : String} {scope : ScopeId}
    {params : List String} {body : List Token} (h : f.core = .closure name scope params body) :
    f.captor? = some (.function name scope params body) := by
  fun_induction Callable.core f with
  | case1 _ inner ih => exact ih h
  | case2 f _ => rw [h]; rfl

def Expander.captor? : Expander → Option Captor
  | .template name scope params body => some (.expander name scope params body)
  | _ => none

def Envoy.captor? : Envoy → Option Captor
  | .mutant name scope body => some (.mutant name scope body)
  | _ => none

/-- The tokens that an envoy was made with, apart from a body. -/
def Envoy.parts : Envoy → List Token
  | .splice tokens => tokens
  | .host _ held => held
  | _ => []

namespace Value

def captor? : Value → Option Captor
  | .function f _ => f.captor?
  | .expander m _ => m.captor?
  | .morph (.envoy e) _ => e.captor?
  | _ => none

/-- The tokens that a value is made of, bodies apart. -/
def parts : Value → List Token
  | .list items => items
  | .quote items => items
  | .map entries => Entry.flatten entries
  | .set members => members
  | .morph (.envoy e) _ => e.parts
  | _ => []

end Value

namespace Token

def captor? : Token → Option Captor
  | .done v _ => v.captor?
  | .envoy e _ => e.captor?
  | _ => none

/-- The tokens right inside a token, those of a body included. -/
def parts : Token → List Token
  | .done v _ => v.parts ++ (v.captor?.map Captor.body).getD []
  | .envoy e _ => e.parts ++ (e.captor?.map Captor.body).getD []
  | _ => []

/-- A captor occurs in a token, however deep. -/
inductive Captures : Token → Captor → Prop
  | self {t : Token} {c : Captor} (h : t.captor? = some c) : Captures t c
  | inside {t u : Token} {c : Captor} (hu : u ∈ t.parts) (h : Captures u c) : Captures t c

/-- All captors in a token satisfy a condition. -/
def Only (p : Captor → Prop) (t : Token) : Prop := ∀ c, t.Captures c → p c

variable {p q : Captor → Prop}

theorem only_iff (t : Token) :
    t.Only p ↔ (∀ c, t.captor? = some c → p c) ∧ ∀ u ∈ t.parts, u.Only p := by
  constructor
  · intro h
    exact ⟨fun c hc ↦ h c (.self hc), fun u hu c hc ↦ h c (.inside hu hc)⟩
  · rintro ⟨hself, hparts⟩ c hc
    cases hc with
    | self hc => exact hself c hc
    | inside hu hc => exact hparts _ hu c hc

theorem Only.mono {t : Token} (h : t.Only p) (hpq : ∀ c, p c → q c) : t.Only q :=
  fun c hc ↦ hpq c (h c hc)

/-- A token with nothing inside. -/
theorem only_of_plain {t : Token} (hcaptor : t.captor? = none) (hparts : t.parts = []) :
    t.Only p := by
  refine t.only_iff.mpr ⟨fun c hc ↦ ?_, fun u hu ↦ ?_⟩
  · rw [hcaptor] at hc
    cases hc
  · rw [hparts] at hu
    exact absurd hu List.not_mem_nil

/-- A token that is a captor with nothing else inside than its body. -/
theorem only_of_captor {t : Token} {c : Captor} (hcaptor : t.captor? = some c)
    (hparts : t.parts = c.body) (hc : p c) (hbody : ∀ u ∈ c.body, u.Only p) : t.Only p := by
  refine t.only_iff.mpr ⟨fun d hd ↦ ?_, hparts.symm ▸ hbody⟩
  rw [hcaptor] at hd
  cases hd
  exact hc

/-- Tokens that all hold only captors with a condition. -/
def AllOnly (p : Captor → Prop) (ts : List Token) : Prop := ∀ t ∈ ts, t.Only p

theorem AllOnly.mono {ts : List Token} (h : AllOnly p ts) (hpq : ∀ c, p c → q c) : AllOnly q ts :=
  fun t ht ↦ (h t ht).mono hpq

@[simp] theorem allOnly_nil : AllOnly p [] := fun _ ht ↦ absurd ht List.not_mem_nil

@[simp] theorem allOnly_cons {t : Token} {ts : List Token} :
    AllOnly p (t :: ts) ↔ t.Only p ∧ AllOnly p ts := List.forall_mem_cons

@[simp] theorem allOnly_append {ts us : List Token} :
    AllOnly p (ts ++ us) ↔ AllOnly p ts ∧ AllOnly p us := List.forall_mem_append

@[simp] theorem allOnly_reverse {ts : List Token} : AllOnly p ts.reverse ↔ AllOnly p ts := by
  simp [AllOnly]

end Token

open Token (AllOnly)

variable {p : Captor → Prop}

/-- All captors in a value satisfy a condition. -/
def Value.Only (p : Captor → Prop) (v : Value) : Prop := (Token.stable v).Only p

/-- All captors in an envoy satisfy a condition. -/
def Envoy.Only (p : Captor → Prop) (e : Envoy) : Prop :=
  (∀ c, e.captor? = some c → p c ∧ AllOnly p c.body) ∧ AllOnly p e.parts

theorem forall_mem_body {c? : Option Captor} {P : Token → Prop} :
    (∀ u ∈ (c?.map Captor.body).getD [], P u) ↔ ∀ c, c? = some c → ∀ u ∈ c.body, P u := by
  cases c? <;> simp

/-- A token by its captor and what is inside apart from the body of the captor. -/
theorem Token.only_iff_of_parts {t : Token} {c? : Option Captor} {parts : List Token}
    (hcaptor : t.captor? = c?) (hparts : t.parts = parts ++ (c?.map Captor.body).getD []) :
    t.Only p ↔ (∀ c, c? = some c → p c ∧ AllOnly p c.body) ∧ AllOnly p parts := by
  rw [t.only_iff, hcaptor, hparts, List.forall_mem_append, forall_mem_body]
  constructor
  · rintro ⟨hself, hinside, hbody⟩
    exact ⟨fun c hc ↦ ⟨hself c hc, hbody c hc⟩, hinside⟩
  · rintro ⟨hself, hinside⟩
    exact ⟨fun c hc ↦ (hself c hc).1, hinside, fun c hc ↦ (hself c hc).2⟩

theorem Token.only_envoy {e : Envoy} (ref : Ref) : (Token.envoy e ref).Only p ↔ e.Only p :=
  Token.only_iff_of_parts rfl rfl

namespace Value

theorem only_iff (v : Value) :
    v.Only p ↔ (∀ c, v.captor? = some c → p c ∧ AllOnly p c.body) ∧ AllOnly p v.parts :=
  Token.only_iff_of_parts rfl rfl

/-- A value that captured nothing holds what its tokens hold. -/
theorem only_of_parts {v : Value} (hcaptor : v.captor? = none) (h : AllOnly p v.parts) :
    v.Only p := by
  rw [v.only_iff, hcaptor]
  exact ⟨fun c hc ↦ (by cases hc), h⟩

/-- A value with nothing inside. -/
theorem only_of_plain {v : Value} (hcaptor : v.captor? = none) (hparts : v.parts = []) :
    v.Only p :=
  only_of_parts hcaptor (hparts ▸ Token.allOnly_nil)

end Value

namespace Token

/-- What a token holds does not depend on where it came from. -/
theorem only_done {v : Value} (pos : Option Position) : (Token.done v pos).Only p ↔ v.Only p := by
  rw [v.only_iff]
  exact only_iff_of_parts rfl rfl

theorem only_null : Token.null.Only p := Value.only_of_plain rfl rfl

theorem only_symbol (name : String) (pos : Option Position) : (Token.symbol name pos).Only p :=
  only_of_plain rfl rfl

theorem Only.value {t : Token} (h : t.Only p) {v : Value} (hv : t.value? = some v) :
    v.Only p := by
  cases t with
  | done u pos =>
    cases hv
    exact (only_done pos).mp h
  | envoy e ref =>
    cases hv
    exact (Value.only_iff _).mpr ((only_envoy ref).mp h)
  | varying v ref =>
    cases hv
    exact Value.only_of_plain rfl rfl
  | symbol | opening | closing | literal => cases hv

/-- The tokens right inside a value that is given as a token. -/
theorem Only.items {t : Token} (h : t.Only p) {v : Value} (hv : t.value? = some v) :
    AllOnly p v.parts :=
  ((Value.only_iff v).mp (h.value hv)).2

theorem Only.unwrapped {t : Token} (h : t.Only p) : AllOnly p t.unwrapped := by
  unfold Token.unwrapped
  split
  · exact h.items rfl
  · exact allOnly_cons.mpr ⟨only_symbol _ _, allOnly_nil⟩
  · exact allOnly_cons.mpr ⟨h, allOnly_nil⟩

theorem Only.spliced {t : Token} (h : t.Only p) : AllOnly p t.spliced := by
  unfold Token.spliced
  split
  · exact allOnly_nil
  · exact allOnly_nil
  · rename_i hv
    exact h.items hv
  · rename_i hv
    exact h.items hv
  · exact allOnly_cons.mpr ⟨only_symbol _ _, allOnly_nil⟩
  · exact allOnly_cons.mpr ⟨h, allOnly_nil⟩

end Token

theorem allOnly_splicedLast {tokens : List Token} (h : AllOnly p tokens) :
    AllOnly p (splicedLast tokens) := by
  unfold splicedLast
  split
  · rename_i t ht
    exact (h t (List.mem_of_getLast? ht)).spliced
  · exact Token.allOnly_nil

/-! ### Forms -/

theorem exists_of_map_eq_ok {ε α β : Type} {f : α → β} {x : Except ε α} {b : β}
    (h : x.map f = .ok b) : ∃ a, x = .ok a ∧ f a = b := by
  cases x with
  | error e => cases h
  | ok a => exact ⟨a, rfl, Except.ok.inj h⟩

namespace Form

/-- A region and what follows it are the tokens that were cut, in their order. -/
theorem append_of_region {outer : Token} {stack tokens : List Token}
    {answer : List Token × List Token} (h : region outer stack tokens = .ok answer) :
    answer.1 ++ answer.2 = tokens := by
  induction tokens generalizing stack answer with
  | nil => cases h
  | cons t rest ih =>
    unfold region at h
    split_ifs at h
    · obtain ⟨a, hrest, rfl⟩ := exists_of_map_eq_ok h
      exact congrArg (t :: ·) (ih hrest)
    · obtain ⟨a, hrest, rfl⟩ := exists_of_map_eq_ok h
      exact congrArg (t :: ·) (ih hrest)
    · split at h
      · cases h
        rfl
      · split_ifs at h
        · cases h
          rfl
        · obtain ⟨a, hrest, rfl⟩ := exists_of_map_eq_ok h
          exact congrArg (t :: ·) (ih hrest)

/-- A buffer falls into its first form and the rest. -/
theorem append_of_split {isMarker : Token → Bool} {tokens : List Token}
    {answer : List Token × List Token} (h : split isMarker tokens = .ok answer) :
    answer.1 ++ answer.2 = tokens := by
  induction tokens generalizing answer with
  | nil => cases h; rfl
  | cons t rest ih =>
    unfold split at h
    split_ifs at h
    · obtain ⟨a, hrest, rfl⟩ := exists_of_map_eq_ok h
      exact congrArg (t :: ·) (ih hrest)
    · cases h
      rfl
    · obtain ⟨a, hregion, rfl⟩ := exists_of_map_eq_ok h
      exact congrArg (t :: ·) (append_of_region hregion)

theorem allOnly_split {isMarker : Token → Bool} {tokens : List Token}
    {answer : List Token × List Token} (h : split isMarker tokens = .ok answer)
    (htokens : AllOnly p tokens) : AllOnly p answer.1 ∧ AllOnly p answer.2 := by
  rw [← append_of_split h] at htokens
  exact Token.allOnly_append.mp htokens

theorem allOnly_splitAll {isMarker : Token → Bool} {tokens : List Token}
    {forms : List (List Token)} (h : splitAll isMarker tokens = .ok forms)
    (htokens : AllOnly p tokens) : ∀ form ∈ forms, AllOnly p form := by
  revert htokens
  refine splitAll_induction
    (motive := fun tokens forms ↦ AllOnly p tokens → ∀ form ∈ forms, AllOnly p form)
    (fun _ _ ↦ List.forall_mem_nil _) (fun hsplit hforms htokens ↦ ?_) h
  obtain ⟨hfirst, hrest⟩ := allOnly_split hsplit htokens
  exact List.forall_mem_cons.mpr ⟨hfirst, hforms hrest⟩

theorem only_quote {form : List Token} (h : AllOnly p form) : (quote form).Only p := by
  unfold quote
  split
  · split_ifs
    · exact (Token.only_done _).mpr (Value.only_of_plain rfl rfl)
    · exact (Token.only_done _).mpr (Value.only_of_plain rfl rfl)
    · exact h _ (List.mem_singleton_self _)
  · split
    · refine Value.only_of_parts rfl fun t ht ↦ h t ?_
      exact List.mem_of_mem_drop (List.mem_of_mem_dropLast ht)
    · exact Value.only_of_parts rfl h

end Form

/-! ### Operator trees -/

namespace OperatorTree

variable {P : Token → Prop}

/-- All tokens of a tree satisfy a condition. -/
def All (P : Token → Prop) : OperatorTree → Prop
  | .leaf t => P t
  | .node op left right => P op ∧ left.All P ∧ right.All P

/-- The calls of a tree hold its tokens and parentheses. -/
theorem forall_mem_calls {tree : OperatorTree} (h : tree.All P)
    (hopening : P (.opening "(" "" none)) (hclosing : P (.closing ")" none)) :
    ∀ t ∈ tree.calls, P t := by
  induction tree with
  | leaf t => exact List.forall_mem_singleton.mpr h
  | node op left right ihl ihr =>
    obtain ⟨hop, hl, hr⟩ := h
    simp only [calls, List.forall_mem_cons, List.forall_mem_append]
    exact ⟨hopening, hop, ihl hl, ihr hr, hclosing, fun _ ht ↦ absurd ht List.not_mem_nil⟩

/-- The condition on a grouping under way. -/
def Stack.All (P : Token → Prop) (operands : List OperatorTree)
    (operators : List (Token × Operator)) : Prop :=
  (∀ tree ∈ operands, tree.All P) ∧ ∀ op ∈ operators, P op.1

theorem Stack.all_combine {op : Token} {operands result : List OperatorTree}
    (h : combine op operands = .ok result) (hop : P op)
    (hoperands : ∀ tree ∈ operands, tree.All P) : ∀ tree ∈ result, tree.All P := by
  unfold combine at h
  split at h
  · cases h
    rename_i right left operands
    obtain ⟨hright, hleft, hrest⟩ :=
      (List.forall_mem_cons.trans (and_congr_right fun _ ↦ List.forall_mem_cons)).mp hoperands
    exact List.forall_mem_cons.mpr ⟨⟨hop, hleft, hright⟩, hrest⟩
  · cases h

theorem Stack.all_settle {next : Operator} {operators : List (Token × Operator)}
    {operands : List OperatorTree} {s : Stack} (h : settle next operators operands = .ok s)
    (hall : Stack.All P operands operators) : Stack.All P s.operands s.operators := by
  induction operators generalizing operands with
  | nil => cases h; exact hall
  | cons op operators ih =>
    obtain ⟨t, entry⟩ := op
    unfold settle at h
    split_ifs at h
    · cases hcombine : combine t operands with
      | error f => rw [hcombine] at h; cases h
      | ok operands' =>
        rw [hcombine] at h
        obtain ⟨hop, hrest⟩ := List.forall_mem_cons.mp hall.2
        exact ih h ⟨all_combine hcombine hop hall.1, hrest⟩
    · cases h
      exact hall

theorem Stack.all_finish {operators : List (Token × Operator)}
    {operands result : List OperatorTree} (h : finish operators operands = .ok result)
    (hall : Stack.All P operands operators) : ∀ tree ∈ result, tree.All P := by
  induction operators generalizing operands with
  | nil => cases h; exact hall.1
  | cons op operators ih =>
    obtain ⟨t, entry⟩ := op
    unfold finish at h
    cases hcombine : combine t operands with
    | error f => rw [hcombine] at h; cases h
    | ok operands' =>
      rw [hcombine] at h
      obtain ⟨hop, hrest⟩ := List.forall_mem_cons.mp hall.2
      exact ih h ⟨all_combine hcombine hop hall.1, hrest⟩

theorem Stack.all_feed {operatorFor : Token → Option Operator} {form : List Token} {s s' : Stack}
    (h : feed operatorFor s form = .ok s') (hall : Stack.All P s.operands s.operators)
    (hform : ∀ t ∈ form, P t) : Stack.All P s'.operands s'.operators := by
  induction form generalizing s with
  | nil => cases h; exact hall
  | cons t form ih =>
    obtain ⟨ht, hrest⟩ := List.forall_mem_cons.mp hform
    unfold feed at h
    split at h
    · exact ih h ⟨List.forall_mem_cons.mpr ⟨ht, hall.1⟩, hall.2⟩ hrest
    · rename_i entry _
      cases hsettle : settle entry s.operators s.operands with
      | error f => rw [hsettle] at h; cases h
      | ok settled =>
        rw [hsettle] at h
        have hsettled := all_settle hsettle hall
        exact ih h ⟨hsettled.1, List.forall_mem_cons.mpr ⟨ht, hsettled.2⟩⟩ hrest

/-- What holds of the tokens of an infix form holds of those of its tree. -/
theorem all_parse {operatorFor : Token → Option Operator} {form : List Token}
    {tree : OperatorTree} (h : parse operatorFor form = .ok (some tree))
    (hform : ∀ t ∈ form, P t) : tree.All P := by
  unfold parse at h
  cases hfeed : Stack.feed operatorFor ⟨[], []⟩ form with
  | error f => rw [hfeed] at h; cases h
  | ok s =>
    rw [hfeed] at h
    have hs := Stack.all_feed hfeed
      ⟨fun _ ht ↦ absurd ht List.not_mem_nil, fun _ ht ↦ absurd ht List.not_mem_nil⟩ hform
    cases hfinish : Stack.finish s.operators s.operands with
    | error f => simp [bind, Except.bind, hfinish] at h
    | ok trees =>
      have htrees := Stack.all_finish hfinish hs
      simp only [bind, Except.bind, hfinish] at h
      split at h
      · cases h
      · cases h
        exact htrees _ (List.mem_singleton_self _)
      · cases h

end OperatorTree

/-! ### Methods without effects -/

namespace Method

variable {P : Token → Prop} {items args : List Token}

/-- A method that answers with one of the tokens with a condition, or with a value that captured
nothing and is made of such tokens. -/
def Gathers (P : Token → Prop) (x : Except Stop (Option Token)) : Prop :=
  ∀ t, x = .ok (some t) → P t ∨ t.captor? = none ∧ ∀ u ∈ t.parts, P u

theorem gathers_answer {v : Value} (hcaptor : v.captor? = none) (h : ∀ u ∈ v.parts, P u) :
    Gathers P (answer v) := by
  intro t ht
  cases ht
  refine .inr ⟨hcaptor, ?_⟩
  simpa [Token.parts, Token.stable, hcaptor] using h

theorem gathers_plain {v : Value} (hcaptor : v.captor? = none) (hparts : v.parts = []) :
    Gathers P (answer v) :=
  gathers_answer hcaptor fun _ hu ↦ absurd hu (hparts ▸ List.not_mem_nil)

/-- Handing out a token, or null when there is none. -/
theorem gathers_hand {t? : Option Token} (h : ∀ t, t? = some t → P t) :
    Gathers P (hand (t?.getD .null)) := by
  cases t? with
  | none => exact gathers_plain (v := .null) rfl rfl
  | some t =>
    intro u hu
    cases hu
    exact .inl (h t rfl)

theorem gathers_error (stop : Stop) : Gathers P (.error stop) := fun _ ht ↦ by cases ht

/-- A method of a list or a quote answers with items, or with values made of them and of its
arguments. -/
theorem gathers_ofItems {wrap : List Token → Value}
    (hwrap : ∀ items, (wrap items).captor? = none ∧ (wrap items).parts = items)
    (hitems : ∀ t ∈ items, P t) (hargs : ∀ t ∈ args, P t) (name : String) :
    Gathers P (ofItems wrap items name args) := by
  have hnew : ∀ made, (∀ t ∈ made, P t) → Gathers P (answer (wrap made)) := fun made hmade ↦
    gathers_answer (hwrap made).1 fun u hu ↦ hmade u ((hwrap made).2 ▸ hu)
  unfold ofItems
  split
  · exact gathers_plain rfl rfl
  · refine gathers_hand fun t ht ↦ ?_
    obtain ⟨i, -, hi⟩ := Option.bind_eq_some_iff.mp ht
    exact hitems t (List.mem_of_getElem? hi)
  · exact gathers_hand fun t ht ↦ hitems t (List.mem_of_head? ht)
  · exact gathers_hand fun t ht ↦ hitems t (List.mem_of_getLast? ht)
  · exact hnew _ fun t ht ↦ hitems t (List.mem_of_mem_tail ht)
  · split <;> exact gathers_plain rfl rfl
  · exact hnew _ (List.forall_mem_append.mpr ⟨hitems, hargs⟩)
  · exact gathers_error _

theorem forall_mem_flatten {entries : List Entry} :
    (∀ t ∈ Entry.flatten entries, P t) ↔ ∀ e ∈ entries, P e.key ∧ P e.value := by
  induction entries with
  | nil => simp [Entry.flatten]
  | cons e entries ih =>
    have hflatten : Entry.flatten (e :: entries) = e.key :: e.value :: Entry.flatten entries := rfl
    rw [hflatten, List.forall_mem_cons, List.forall_mem_cons, ih, List.forall_mem_cons, and_assoc]

/-- A map that entries are put into is made of what it held before, what is put, and null. -/
theorem forall_mem_putAll {entries result : List Entry}
    (h : Entry.putAll entries args = .ok result) (hnull : P .null)
    (hentries : ∀ t ∈ Entry.flatten entries, P t) (hargs : ∀ t ∈ args, P t) :
    ∀ t ∈ Entry.flatten result, P t := by
  refine forall_mem_flatten.mpr (Entry.forall_putAll (forall_mem_flatten.mp hentries) ?_ h)
  intro key hkey value hvalue
  refine ⟨hargs key hkey, ?_⟩
  rcases hvalue with hvalue | rfl
  · exact hargs value hvalue
  · exact hnull

/-- A method of a map answers with null, with parts of the entries, or with values made of them and
of its arguments. -/
theorem gathers_ofEntries {entries : List Entry} (hnull : P .null)
    (hentries : ∀ t ∈ Entry.flatten entries, P t) (hargs : ∀ t ∈ args, P t) (name : String) :
    Gathers P (ofEntries entries name args) := by
  have hparts := forall_mem_flatten.mp hentries
  unfold ofEntries
  split
  · exact gathers_plain rfl rfl
  · refine gathers_hand fun t ht ↦ ?_
    obtain ⟨e, he, rfl⟩ := Option.map_eq_some_iff.mp ht
    exact (hparts e (List.mem_of_find?_eq_some he)).2
  · exact gathers_plain rfl rfl
  · cases hput : Entry.putAll entries args with
    | error stop => exact gathers_error stop
    | ok result => exact gathers_answer rfl (forall_mem_putAll hput hnull hentries hargs)
  · refine gathers_answer rfl fun t ht ↦ ?_
    obtain ⟨e, he, rfl⟩ := List.mem_map.mp ht
    exact (hparts e he).1
  · refine gathers_answer rfl fun t ht ↦ ?_
    obtain ⟨e, he, rfl⟩ := List.mem_map.mp ht
    exact (hparts e he).2
  · exact gathers_error _

theorem gathers_ofMembers (hitems : ∀ t ∈ items, P t) (hargs : ∀ t ∈ args, P t) (name : String) :
    Gathers P (ofMembers items name args) := by
  unfold ofMembers
  split
  · exact gathers_plain rfl rfl
  · exact gathers_plain rfl rfl
  · cases hadd : Token.addMembers items args with
    | error stop => exact gathers_error stop
    | ok result => exact gathers_answer rfl (Token.forall_addMembers hitems hargs hadd)
  · exact gathers_answer rfl hitems
  · exact gathers_error _

theorem gathers_ofText (s name : String) (args : List Token) : Gathers P (ofText s name args) := by
  unfold ofText
  split
  · exact gathers_plain rfl rfl
  · split <;> exact gathers_plain rfl rfl
  · exact gathers_plain rfl rfl
  · exact gathers_plain rfl rfl
  · exact gathers_plain rfl rfl
  · exact gathers_error _

/-- The best of some tokens is one of them. -/
theorem mem_of_best (op : Comparison) {champion t : Token}
    (h : op.best champion args = .ok t) : t ∈ champion :: args := by
  induction args generalizing champion with
  | nil =>
    cases h
    exact List.mem_singleton_self _
  | cons u args ih =>
    unfold Comparison.best at h
    cases hpayload : u.payload with
    | error stop => rw [hpayload] at h; cases h
    | ok v =>
      rw [hpayload] at h
      cases hbest : champion.payload with
      | error stop => simp [bind, Except.bind, hbest] at h
      | ok best =>
        simp only [bind, Except.bind, hbest] at h
        split_ifs at h
        · exact List.mem_cons_of_mem _ (ih h)
        · rcases List.mem_cons.mp (ih h) with rfl | ht
          · exact List.mem_cons_self ..
          · exact List.mem_cons_of_mem _ (List.mem_cons_of_mem _ ht)

/-- Captors in the answer of a method that gathers tokens. -/
theorem Gathers.only {x : Except Stop (Option Token)} (h : Gathers (Token.Only p) x) {t : Token}
    (ht : x = .ok (some t)) : t.Only p := by
  rcases h t ht with hone | ⟨hcaptor, hparts⟩
  · exact hone
  · refine t.only_iff.mpr ⟨fun c hc ↦ ?_, hparts⟩
    rw [hcaptor] at hc
    cases hc

end Method

/-! ### Texts -/

/-- Tokens of a text have nothing inside. -/
theorem Reader.plain_ofLexemes {base : Ref} {units : List Lexeme} {t : Token}
    (ht : t ∈ Reader.ofLexemes base units) : t.captor? = none ∧ t.parts = [] := by
  obtain ⟨⟨x, ref⟩, -, hx⟩ := List.mem_filterMap.mp ht
  have hword : ∀ text pos, (Reader.ofWord ref text pos).captor? = none ∧
      (Reader.ofWord ref text pos).parts = [] := by
    intro text pos
    unfold Reader.ofWord
    split <;> exact ⟨rfl, rfl⟩
  unfold Reader.ofLexeme at hx
  dsimp only at hx
  split at hx
  case h_3 => split_ifs at hx <;> cases hx <;> exact ⟨rfl, rfl⟩
  case h_7 => cases hx; exact hword _ _
  case h_8 => cases hx
  all_goals cases hx; exact ⟨rfl, rfl⟩

theorem Reader.allOnly_ofLexemes (base : Ref) (units : List Lexeme) :
    AllOnly p (Reader.ofLexemes base units) := fun _ ht ↦
  Token.only_of_plain (Reader.plain_ofLexemes ht).1 (Reader.plain_ofLexemes ht).2

end TokenLang

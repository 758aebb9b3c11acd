import TokenLang.Proofs.Form.Grammar
import TokenLang.Proofs.OperatorTree.Scanning
import TokenLang.Proofs.RoundTrip.Buffer

/-!
Quoting and its undoing. The tokens of a text are names, brackets, quoted texts with a mode and
plain data (`Reader.Produces`), so a form of a text that is quoted is one token that is done, and
unquoting puts back the form itself, the inside of plain parentheses, or the text of a quoted text.
Unquoting a quoted form therefore has no effect but to put the form in place and to leave what comes
after it (`Envoy.unquote_quote`).
-/

set_option autoImplicit false
set_option relaxedAutoImplicit false

namespace TokenLang

/-! ### The tokens of a text -/

/-- The tokens of a text that are no brackets: names, quoted texts with a mode, and data that holds
nothing for unquoting to take out. -/
inductive Token.Lone : Token → Prop
  | symbol (name : String) (pos : Option Position) : Lone (.symbol name pos)
  | literal {delimiter : String} (hne : delimiter ≠ "") (text mode : String)
      (pos : Option Position) : Lone (.literal delimiter text mode pos)
  | data {v : Value} {pos : Option Position} (hv : (Token.done v pos).unwrapped = [.done v pos]) :
      Lone (.done v pos)

theorem Token.isSymbol_done (v : Value) (pos : Option Position) :
    (Token.done v pos).isSymbol = false := by
  cases v <;> rfl

namespace Reader

/-- Tokens that stand one after the other in some text. -/
def Produces (tokens : List Token) : Prop :=
  ∃ (base : Ref) (source : List Char) (all : List Token),
    read base source = .ok all ∧ tokens <:+: all

/-- The token of a unit that is no bracket is a name, a quoted text with a mode, or data. -/
theorem lone_ofLexeme {ref : Ref} {x : Lexeme} (hx : x.IsShaped) {t : Token}
    (ht : ofLexeme ref x = some t) (hplain : t.isDelimiter = false) : t.Lone := by
  obtain ⟨kind, text, mode, delimiter, position⟩ := x
  cases kind with
  | opening =>
    obtain rfl := Option.some.inj ht
    obtain ⟨⟨c, -, rfl⟩, -⟩ := hx
    simp [Token.isDelimiter, Token.bracket, Token.isLiteral] at hplain
  | closing =>
    obtain rfl := Option.some.inj ht
    obtain ⟨c, -, rfl⟩ := hx
    simp [Token.isDelimiter, Token.bracket, Token.isLiteral] at hplain
  | string =>
    obtain ⟨⟨c, -, rfl⟩, -⟩ := hx
    unfold ofLexeme at ht
    dsimp only at ht
    split_ifs at ht
    · obtain rfl := Option.some.inj ht
      exact .data rfl
    · obtain rfl := Option.some.inj ht
      exact .literal (by simp) _ _ _
  | word =>
    obtain rfl := Option.some.inj ht
    unfold ofWord
    split
    · exact .data rfl
    · exact .data rfl
    · exact .symbol _ _
  | char =>
    obtain rfl := Option.some.inj ht
    exact .data rfl
  | quote | unquote =>
    obtain rfl := Option.some.inj ht
    exact .symbol _ _
  | finish => cases ht

theorem Produces.lone {tokens : List Token} (h : Produces tokens) {t : Token} (ht : t ∈ tokens)
    (hplain : t.isDelimiter = false) : t.Lone := by
  obtain ⟨base, source, all, hread, hpart⟩ := h
  obtain ⟨units, hunits, rfl⟩ := exists_of_map_eq_ok hread
  obtain ⟨⟨x, ref⟩, hx, hofLexeme⟩ := List.mem_filterMap.mp (hpart.subset ht)
  exact lone_ofLexeme (Lexeme.isShaped_of_read hunits x (List.fst_mem_of_mem_zipIdx hx))
    hofLexeme hplain

end Reader

/-! ### Forms that are quoted -/

/-- A token without its place in a text. -/
def Token.unplaced : Token → Token
  | .symbol name _ => .symbol name none
  | .opening bracket mode _ => .opening bracket mode none
  | .closing bracket _ => .closing bracket none
  | .literal delimiter text mode _ => .literal delimiter text mode none
  | .done v _ => .done v none
  | t => t

namespace Form

/-- What takes the place of a form that is quoted and then unquoted: the inside of plain
parentheses, the text of a lone text with a mode, any other form itself. -/
def unquoted (form : List Token) : List Token :=
  match form with
  | [.literal _ text _ pos] => [.done (.string text) pos]
  | .opening "(" "" _ :: _ => strip form
  | _ => form

/-- A lone token that is cut as a form is no bracket. -/
theorem isDelimiter_of_split {isMarker : Token → Bool} {t : Token} {after rest : List Token}
    (h : split isMarker after = .ok ([t], rest)) : t.isDelimiter = false := by
  obtain ⟨-, hform | ⟨hmarkers, -⟩⟩ := split_eq_ok_iff.mp h
  · generalize hone : [t] = form at hform
    cases hform with
    | single ht _ =>
      cases hone
      exact ht
    | @region opening closing inside _ _ _ =>
      have hlength := congrArg List.length hone
      simp at hlength
    | marked _ _ hform =>
      obtain ⟨-, rfl⟩ := List.cons.inj hone
      exact absurd rfl hform.ne_nil
  · exact (hmarkers t (List.mem_singleton_self t)).1

theorem quote_literal {delimiter : String} (hne : delimiter ≠ "") (text mode : String)
    (pos : Option Position) :
    quote [.literal delimiter text mode pos] = .done (.string text) pos := by
  have hsymbol : (Token.literal delimiter text mode pos).isSymbol = false := by
    rw [Token.isSymbol, Bool.and_eq_false_iff]
    exact .inr (beq_false_of_ne hne)
  rw [quote, hsymbol]
  rfl

theorem quote_done (v : Value) (pos : Option Position) : quote [.done v pos] = .done v pos := by
  rw [quote, Token.isSymbol_done]
  rfl

/-- Several tokens are quoted as what unquoting puts in their place. -/
theorem quote_several (t u : Token) (form : List Token) :
    quote (t :: u :: form) = .stable (.quote (unquoted (t :: u :: form))) := by
  unfold quote unquoted
  dsimp only
  split
  · next heq =>
    cases heq
    rfl
  · next hplain =>
    split
    · next heq => cases heq
    · next heq => exact absurd heq (hplain _ _)
    · rfl

section Quoted

variable {isMarker : Token → Bool} {form after rest : List Token}

/-- A form of a text that is quoted is one token that is done. -/
theorem exists_quote_eq_done (hread : Reader.Produces form) (hne : form ≠ [])
    (hsplit : split isMarker after = .ok (form, rest)) : ∃ v pos, quote form = .done v pos := by
  match form with
  | [] => exact absurd rfl hne
  | [t] =>
    cases hread.lone (List.mem_singleton_self t) (isDelimiter_of_split hsplit) with
    | symbol name pos => exact ⟨_, _, rfl⟩
    | literal hmark text mode pos => exact ⟨_, _, quote_literal hmark text mode pos⟩
    | data hv => exact ⟨_, _, quote_done _ _⟩
  | t :: u :: form => exact ⟨_, _, quote_several t u form⟩

/-- Unquoting takes out of a quoted form the tokens that were quoted, their places apart. -/
theorem unwrapped_quote (hread : Reader.Produces form) (hne : form ≠ [])
    (hsplit : split isMarker after = .ok (form, rest)) :
    (quote form).unwrapped.map Token.unplaced = (unquoted form).map Token.unplaced := by
  match form with
  | [] => exact absurd rfl hne
  | [t] =>
    cases hread.lone (List.mem_singleton_self t) (isDelimiter_of_split hsplit) with
    | symbol name pos => rfl
    | literal hmark text mode pos =>
      rw [quote_literal hmark]
      rfl
    | data hv =>
      rw [quote_done, hv]
      rfl
  | t :: u :: form =>
    rw [quote_several]
    rfl

end Quoted

/-- What is cut at the front of a buffer is cut when it is alone. -/
theorem split_alone {isMarker : Token → Bool} {tokens form rest : List Token}
    (h : split isMarker tokens = .ok (form, rest)) : split isMarker form = .ok (form, []) := by
  obtain ⟨-, hform | ⟨hmarkers, -⟩⟩ := split_eq_ok_iff.mp h
  · have halone := split_of_isForm hform []
    rwa [List.append_nil] at halone
  · exact split_of_onlyMarkers hmarkers

/-- A buffer that a form can be cut from begins with no closing bracket. -/
theorem isClosing_of_split {isMarker : Token → Bool} {t : Token} {after : List Token}
    {answer : List Token × List Token} (h : split isMarker (t :: after) = .ok answer) :
    t.isClosing = false := by
  unfold split at h
  split_ifs at h with hplain hmarker hcloses
  · simpa [Token.isClosing] using fun hdelimiter ↦ absurd hdelimiter (by simpa using hplain)
  · simpa [Token.isClosing] using fun hdelimiter ↦ absurd hdelimiter (by simpa using hplain)
  · simp [Token.isClosing, hcloses]

end Form

/-! ### A form on its own -/

namespace Evaluator

variable (ev : Evaluator) (id : ScopeId)

/-- Evaluates a form on its own: its token, unless it left none. -/
def alone (form : List Token) : EvalM (Option Token) := do
  match ← ev id form with
  | .value t _ => return some t
  | .nothing => return none
  | .failed f _ => EvalM.fail f

/-- A cut has no effects. -/
theorem run_cut {w : World} {args form rest : List Token}
    (hsplit : Form.split (w.scope id).isMarker args = .ok (form, rest)) :
    (cut id args).run.run w = (.ok (form, rest), w) := by
  rw [cut, EvalM.run_bind, EvalM.outcome_scope, EvalM.after_scope]
  dsimp only
  rw [hsplit]
  rfl

/-- The first form of the arguments is evaluated on its own, and the arguments after it are left. -/
theorem run_next {w : World} {args form rest : List Token} (hne : args ≠ [])
    (hsplit : Form.split (w.scope id).isMarker args = .ok (form, rest)) :
    (ev.next id args).run.run w = (ev.alone id form >>= fun t ↦ pure (t, rest)).run.run w := by
  obtain ⟨t, args, rfl⟩ := List.exists_cons_of_ne_nil hne
  show (cut id (t :: args) >>= _).run.run w = _
  rw [EvalM.run_bind, EvalM.outcome, EvalM.after, run_cut id hsplit]
  dsimp only
  rw [alone, EvalM.run_bind, EvalM.run_bind, EvalM.outcome_bind, EvalM.after_bind]
  cases (ev id form).outcome w with
  | error stop => rfl
  | ok r => cases r <;> rfl

end Evaluator

/-! ### Quoting and unquoting -/

/-- A name that is bound to a complete token is no marker. -/
theorem Scope.isMarker_of_isComplete {s : Scope} {name : String} {t : Token}
    (h : s.get? name = some t) (ht : t.isComplete = true) (pos : Option Position) :
    s.isMarker (.symbol name pos) = false := by
  have hsymbol : (Token.symbol name pos).isSymbol = true := rfl
  have hmeant : s.get? (Token.symbol name pos).content = some t := h
  rw [Scope.isMarker, Scope.marker?, if_pos hsymbol, hmeant]
  cases t <;> first | rfl | cases ht

section Evaluation

variable {w : World} {id : ScopeId} {ref : Ref}
  (hquote : (w.scope id).get? ":" = some (.envoy .quote ref)) {form rest : List Token}
  (hsplit : Form.split (w.scope id).isMarker (form ++ rest) = .ok (form, rest))

include hquote hsplit

/-- The quoting marker and a form are one form. -/
theorem Form.split_marked (pos : Option Position) :
    Form.split (w.scope id).isMarker (.symbol ":" pos :: (form ++ rest)) =
      .ok (.symbol ":" pos :: form, rest) := by
  have hmarker := Scope.isMarker_of_quote hquote pos
  have hplain : (Token.symbol ":" pos).isDelimiter = false := rfl
  rw [Form.split, hsplit]
  simp [hplain, hmarker, Except.map]

variable (hhops : 2 ≤ (w.scope id).maxHops) (hne : form ≠ [])

include hhops hne

/-- The quoting marker and a form become one token. -/
theorem Scan.reaches_quote (frames : List Frame) (pos : Option Position) :
    Scan.Reaches w id ⟨frames, .symbol ":" pos :: (form ++ rest), 0⟩
      ⟨frames, Form.quote form :: rest, 2⟩ := by
  obtain ⟨t, form, rfl⟩ := List.exists_cons_of_ne_nil hne
  refine .trans (Scan.quiet_resolve hquote (by omega)).reaches ?_
  exact (Scan.quiet_quote hsplit (Form.isClosing_of_split hsplit) hhops).reaches

/-- A quoted form on its own is evaluated to one token, with the world as it was. -/
theorem Program.stepWithin_quote (hread : Reader.Produces form) {bound : Nat} (hbound : 3 ≤ bound)
    (pos : Option Position) : (stepWithin bound id (.symbol ":" pos :: form)).run.run w =
      (.ok (.value (Form.quote form) []), w) := by
  obtain ⟨v, pos', hdone⟩ := Form.exists_quote_eq_done hread hne hsplit
  have halone := Form.split_alone hsplit
  obtain ⟨t, form, rfl⟩ := List.exists_cons_of_ne_nil hne
  obtain ⟨more, rfl⟩ := Nat.exists_eq_add_of_le' hbound
  rw [stepWithin, Scan.start, Scan.run_succ_of_quiet (Scan.quiet_resolve hquote (by omega)),
    Scan.run_succ_of_quiet (Scan.quiet_quote halone (Form.isClosing_of_split halone) hhops), hdone]
  exact Scan.run_value rfl [] 2 more id w

end Evaluation

/-- Unquoting undoes quoting. Where the quoting marker has its meaning and two hops are allowed, the
unquoting marker in front of a quoted form puts the form in place, up to the places in the text, and
leaves exactly what comes after it, with the world as it was. -/
theorem Envoy.unquote_quote {w : World} {id : ScopeId} {ref : Ref}
    (hquote : (w.scope id).get? ":" = some (.envoy .quote ref)) (hhops : 2 ≤ (w.scope id).maxHops)
    {form rest : List Token} (hread : Reader.Produces form) (hne : form ≠ [])
    (hsplit : Form.split (w.scope id).isMarker (form ++ rest) = .ok (form, rest))
    (pos : Option Position) {bound : Nat} (hbound : 3 ≤ bound) (fuel : Nat) :
    ∃ placed, (Envoy.apply (Program.stepWithin bound) fuel id .unquote
        (.symbol ":" pos :: (form ++ rest))).run.run w = (.ok (placed, rest), w) ∧
      placed.map Token.unplaced = (Form.unquoted form).map Token.unplaced := by
  refine ⟨(Form.quote form).unwrapped, ?_, Form.unwrapped_quote hread hne hsplit⟩
  have hmarker := Scope.isMarker_of_quote hquote pos
  have hsymbol : ((Token.symbol ":" pos).isSymbol && !(w.scope id).isMarker (.symbol ":" pos)) =
      false := by
    rw [hmarker]
    rfl
  have hstep := Program.stepWithin_quote hquote hsplit hhops hne hread hbound pos
  have hnext : ((Program.stepWithin bound).next id (.symbol ":" pos :: (form ++ rest))).run.run w =
      (.ok (some (Form.quote form), rest), w) := by
    rw [Evaluator.run_next _ _ (List.cons_ne_nil _ _) (Form.split_marked hquote hsplit pos),
      Evaluator.alone, EvalM.run_bind, EvalM.outcome_bind, EvalM.after_bind, EvalM.outcome,
      EvalM.after, hstep]
    rfl
  show (Envoy.unquoteNext (Program.stepWithin bound) id (.symbol ":" pos)
    (form ++ rest)).run.run w = _
  rw [Envoy.unquoteNext, EvalM.run_bind, EvalM.outcome_scope, EvalM.after_scope]
  dsimp only
  rw [hsymbol, if_neg Bool.false_ne_true, EvalM.run_bind, EvalM.outcome, EvalM.after, hnext]
  rfl

/-- A call in plain parentheses, with a quoted list and a text with a mode inside, in front of a
name. -/
theorem Envoy.unquote_quote_call :
    let w := World.new ⟨"", false, 0, 1⟩
    let inside : List Token := [.symbol "f" (some ⟨1, 2⟩), .symbol ":" (some ⟨1, 4⟩),
      .opening "[" "" (some ⟨1, 5⟩), .closing "]" (some ⟨1, 6⟩),
      .literal "\"" "a" "sym" (some ⟨1, 8⟩)]
    let form : List Token :=
      .opening "(" "" (some ⟨1, 1⟩) :: (inside ++ [.closing ")" (some ⟨1, 15⟩)])
    ∃ placed, (Envoy.apply (Program.stepWithin 3) 0 World.root .unquote
        (.symbol ":" none :: (form ++ [.symbol "x" none]))).run.run w =
        (.ok (placed, [.symbol "x" none]), w) ∧
      placed.map Token.unplaced = inside.map Token.unplaced := by
  intro w inside form
  obtain ⟨ref, hquote⟩ := (World.standard_new ⟨"", false, 0, 1⟩ (by decide)).quote
  have hread : Reader.Produces form := ⟨0, "(f :[] #sym\"a\")".toList, form, rfl, List.infix_refl _⟩
  have hform : Form.IsForm (w.scope World.root).isMarker form :=
    .region rfl rfl (Token.wellNested_iff.mpr rfl)
  exact Envoy.unquote_quote hquote (World.standard_new ⟨"", false, 0, 1⟩ (by decide)).hops hread
    hform.ne_nil (Form.split_of_isForm hform _) none (le_refl 3) 0

/-- Unquoting a name gives what it is bound to. -/
theorem Envoy.run_unquote_name {w : World} {id : ScopeId} {name : String} {t : Token}
    (hname : (w.scope id).get? name = some t) (ht : t.isComplete = true) (pos : Option Position)
    (rest : List Token) (ev : Evaluator) (fuel : Nat) :
    (Envoy.apply ev fuel id .unquote (.symbol name pos :: rest)).run.run w =
      (.ok (t.unwrapped, rest), w) := by
  have hmarker := Scope.isMarker_of_isComplete hname ht pos
  show (Envoy.unquoteNext ev id (.symbol name pos) rest).run.run w = _
  rw [Envoy.unquoteNext, EvalM.run_bind, EvalM.outcome_scope, EvalM.after_scope]
  dsimp only [Token.content]
  rw [hmarker, hname]
  rfl

theorem Scope.maxHops_installOperator (s : Scope) (name : String) (t : Token) (op : Operator) :
    (s.installOperator name t op).maxHops = s.maxHops := rfl

/-- A scope in which a host has defined an operator. -/
theorem Session.scope_redefined (settings : Settings) (name : String) (f : Callable)
    (op : Operator) : ∃ ref : Ref, ((Session.new settings).perform World.root
      (.defineOperator name f op)).world.scope World.root =
      ((World.new settings).scope World.root).installOperator name
        (.stable (.function (.renamed name f) ref)) op := ⟨_, rfl⟩

/-- A host that defines an operator under the name of the quoting marker takes its meaning away:
unquoting gives what the name is bound to then, and leaves the form behind it. -/
theorem Envoy.unquote_rebound :
    let w := ((Session.new ⟨"", false, 0, 1⟩).perform World.root
      (.defineOperator ":" (.arith .add) ⟨6, false⟩)).world
    let five : Token := .done (.int 5) (some ⟨1, 1⟩)
    2 ≤ (w.scope World.root).maxHops ∧ Reader.Produces [five] ∧
      Form.split (w.scope World.root).isMarker ([five] ++ []) = .ok ([five], []) ∧
      Form.unquoted [five] = [five] ∧
      ∃ plus : Token, plus.kind = .function ∧ ∀ bound fuel,
        (Envoy.apply (Program.stepWithin bound) fuel World.root .unquote
          [.symbol ":" none, five]).run.run w = (.ok ([plus], [five]), w) := by
  intro w five
  obtain ⟨ref, hscope⟩ := Session.scope_redefined ⟨"", false, 0, 1⟩ ":" (.arith .add) ⟨6, false⟩
  have hcolon : (w.scope World.root).get? ":" =
      some (.stable (.function (.renamed ":" (.arith .add)) ref)) := by
    rw [hscope, Scope.get?_installOperator]
  have hhops : 2 ≤ (w.scope World.root).maxHops := by
    rw [hscope, Scope.maxHops_installOperator]
    exact (World.standard_new ⟨"", false, 0, 1⟩ (by decide)).hops
  have hread : Reader.Produces [five] := ⟨0, "5".toList, [five], rfl, List.infix_refl _⟩
  exact ⟨hhops, hread, Form.split_of_isForm (.single rfl rfl) [], rfl, _, rfl,
    fun bound fuel ↦ Envoy.run_unquote_name hcolon rfl none [five] _ fuel⟩

end TokenLang

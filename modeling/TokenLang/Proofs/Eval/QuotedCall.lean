import TokenLang.Proofs.Eval.Bounds
import TokenLang.Proofs.Eval.Quoting

/-!
Calls in braces and calls in parentheses. Braces are passed in one step and leave their inside as
written; closing them evaluates the first form and calls it with the others, quoted for a function
(`Program.stepWithin_braces`). In parentheses a scan passes the first name and quotes the forms
behind markers one after the other, and closing them makes the call (`Program.stepWithin_parens`).
Both go on in the same way with what the call gave (`Scan.resume`), so they end alike
(`Program.quotedCall_alike`).
-/

set_option autoImplicit false
set_option relaxedAutoImplicit false

namespace TokenLang

namespace EvalM

variable {α β : Type} {x y : EvalM α} {w : World}

/-- What follows a computation depends on how that ran and on nothing else. -/
theorem run_bind_of_eq (h : x.run.run w = y.run.run w) (f : α → EvalM β) :
    (x >>= f).run.run w = (y >>= f).run.run w := by
  rw [run_bind, run_bind, outcome, outcome, after, after, h]

theorem run_attempt_of_eq (h : x.run.run w = y.run.run w) :
    (attempt x).run.run w = (attempt y).run.run w := by
  unfold attempt
  rw [run_mk_bind, run_mk_bind, outcome, outcome, after, after, h]

theorem run_bind_congr {f g : α → EvalM β}
    (h : ∀ a, x.outcome w = .ok a → (f a).run.run (x.after w) = (g a).run.run (x.after w)) :
    (x >>= f).run.run w = (x >>= g).run.run w := by
  rw [run_bind, run_bind]
  cases hx : x.outcome w with
  | ok a => exact h a hx
  | error stop => rfl

end EvalM

/-! ### Regions that are left as written -/

/-- A quoting bracket passes well nested tokens up to the bracket that closes it. -/
theorem Frame.passQuoted_of_nested (opening closing : Token)
    (hdelimiter : closing.isDelimiter = true) (hcloses : closing.closes = true)
    (rest passed inner inside : List Token)
    (h : Token.nested inner inside = true) :
    Frame.passQuoted opening passed inner (inside ++ closing :: rest) =
      (⟨opening, inside.reverse ++ passed, []⟩, closing :: rest) := by
  induction inside generalizing passed inner with
  | nil =>
    obtain rfl : inner = [] := by simpa [Token.nested] using h
    simp [Frame.passQuoted, hdelimiter, hcloses]
  | cons t inside ih =>
    rw [Token.nested_cons] at h
    rw [List.cons_append, Frame.passQuoted.eq_def]
    dsimp only
    split_ifs at h ⊢ with hplain hopens
    · rw [ih _ _ h]
      simp
    · rw [ih _ _ h]
      simp
    · cases inner with
      | nil => cases h
      | cons top below =>
        obtain ⟨htop, hbelow⟩ := Bool.and_eq_true_iff.mp h
        dsimp only
        rw [if_pos htop, ih _ _ hbelow]
        simp

namespace Scan

variable {w : World} {id : ScopeId}

/-- The step over a brace and all that stands in it. -/
theorem quiet_braces {inside : List Token} (hinside : Token.nested [] inside = true)
    (mode : String) (pos pos' : Option Position) (frames : List Frame) (rest : List Token)
    (hops : Nat) :
    Quiet w id ⟨frames, .opening "\x7b" mode pos :: (inside ++ .closing "\x7d" pos' :: rest), hops⟩
      ⟨⟨.opening "\x7b" mode pos, inside.reverse, []⟩ :: frames,
        .closing "\x7d" pos' :: rest, 0⟩ := by
  have hpassed := Frame.passQuoted_of_nested (.opening "\x7b" mode pos) (.closing "\x7d" pos') rfl
    rfl rest [] [] inside hinside
  rw [List.append_nil] at hpassed
  intro ev fuel
  have hadvance : (⟨frames, .opening "\x7b" mode pos :: (inside ++ .closing "\x7d" pos' :: rest),
      hops⟩ : Scan).advance ev fuel id = pure (openFrame (.opening "\x7b" mode pos)
        (inside ++ .closing "\x7d" pos' :: rest) frames) := rfl
  have hopen : openFrame (.opening "\x7b" mode pos) (inside ++ .closing "\x7d" pos' :: rest)
      frames = .more ⟨⟨.opening "\x7b" mode pos, inside.reverse, []⟩ :: frames,
        .closing "\x7d" pos' :: rest, 0⟩ := by
    have hquotes : (Token.opening "\x7b" mode pos).quotes = true := rfl
    rw [openFrame, if_pos hquotes, hpassed]
  rw [hadvance, hopen]
  exact ⟨rfl, rfl⟩

/-- A scan that goes on with what takes the place of a region, in front of the rest. The opening
bracket is to blame for a failure that has no place yet. -/
def resume (bound : Nat) (id : ScopeId) (opening : Token) (left rest : List Token)
    (x : EvalM (List Token)) : EvalM Reduction := do
  match ← EvalM.attempt x with
  | .ok placed => run bound id ⟨[], placed ++ rest, 0⟩
  | .error f => return .failed (f.blame opening) left

/-- At the closing bracket of the only open region, what takes its place comes in front of the
rest. -/
theorem advance_close {opening closing : Token} {inside rest : List Token} {bound hops : Nat}
    (hdelimiter : closing.isDelimiter = true) (hcloses : closing.closes = true)
    (hmatch : opening.closesWith closing = true) :
    (⟨[⟨opening, inside.reverse, []⟩], closing :: rest, hops⟩ : Scan).advance
      (Program.stepWithin bound) bound id = EvalM.attempt ((Program.stepWithin bound).close bound id
        opening inside) >>= fun answer ↦ match answer with
          | .ok placed => return .more ⟨[], placed ++ rest, 0⟩
          | .error failure =>
            return .over (.failed failure (opening :: (inside ++ closing :: rest))) := by
  have hbuffer : (⟨[⟨opening, inside.reverse, []⟩], closing :: rest, hops⟩ : Scan).buffer =
      opening :: (inside ++ closing :: rest) := by
    simp [buffer, Frame.tokens]
  have hopen : ¬ (!opening.closesWith closing) = true := by simp [hmatch]
  rw [advance]
  dsimp only
  rw [if_pos hdelimiter, if_pos hcloses, closeFrame]
  refine (if_neg hopen).trans ?_
  rw [List.reverse_reverse]
  refine bind_congr fun answer ↦ ?_
  cases answer with
  | ok placed => rfl
  | error failure =>
    dsimp only
    rw [giveUp, hbuffer]

/-- The step that closes the only region that is open. If the place is open, the region is blamed
for its failures and is where a value is missing. -/
theorem run_close {opening closing : Token} {inside rest : List Token} {bound hops : Nat}
    (hdelimiter : closing.isDelimiter = true) (hcloses : closing.closes = true)
    (hmatch : opening.closesWith closing = true) {v : Varying}
    (hv : ((w.scope id).varying? opening.mode).or ((w.scope id).varying? opening.bracket) = some v)
    {x : EvalM (List Token)}
    (hx : (v.apply (Program.stepWithin bound) bound id (.bracketed opening inside)).run.run w =
      x.run.run w)
    (hgap : x.outcome w ≠ .error (.missingValue .elsewhere)) :
    (run (bound + 1) id ⟨[⟨opening, inside.reverse, []⟩], closing :: rest, hops⟩).run.run w =
      (resume bound id opening (opening :: (inside ++ closing :: rest)) rest x).run.run w := by
  have houtcome : (v.apply (Program.stepWithin bound) bound id
      (.bracketed opening inside)).outcome w = x.outcome w := congrArg Prod.fst hx
  have hafter : (v.apply (Program.stepWithin bound) bound id
      (.bracketed opening inside)).after w = x.after w := congrArg Prod.snd hx
  have hclose : ((Program.stepWithin bound).close bound id opening inside).run.run w =
      (EvalM.blaming opening (EvalM.locating (.region v opening inside)
        (v.apply (Program.stepWithin bound) bound id (.bracketed opening inside)))).run.run w := by
    rw [Evaluator.close, EvalM.run_bind, EvalM.outcome_scope, EvalM.after_scope]
    dsimp only
    rw [hv]
  have hcloseOutcome := congrArg Prod.fst hclose
  have hcloseAfter := congrArg Prod.snd hclose
  rw [← EvalM.outcome, ← EvalM.outcome, EvalM.outcome_blaming_locating, houtcome] at hcloseOutcome
  rw [← EvalM.after, ← EvalM.after, EvalM.after_blaming, EvalM.after_locating, hafter]
    at hcloseAfter
  show (advance (Program.stepWithin bound) bound id _ >>= _).run.run w = _
  rw [advance_close hdelimiter hcloses hmatch, resume, EvalM.run_bind, EvalM.run_bind,
    EvalM.outcome_bind, EvalM.after_bind, EvalM.outcome_attempt, EvalM.after_attempt,
    EvalM.outcome_attempt, EvalM.after_attempt, hcloseOutcome, hcloseAfter]
  rcases hend : x.outcome w with (f | (_ | _ | _) | _) | placed
  · rfl
  · rfl
  · rfl
  · exact absurd hend hgap
  · rfl
  · rfl

/-- A region that becomes one complete token. -/
theorem run_resume {bound : Nat} {opening : Token} {left rest : List Token}
    {x : EvalM (List Token)} {w' : World} {t : Token} (ht : t.isComplete = true)
    (hx : x.run.run w = (.ok [t], w')) :
    (resume (bound + 1) id opening left rest x).run.run w = (.ok (.value t rest), w') := by
  have houtcome : x.outcome w = .ok [t] := congrArg Prod.fst hx
  have hafter : x.after w = w' := congrArg Prod.snd hx
  rw [resume, EvalM.run_bind, EvalM.outcome_attempt, EvalM.after_attempt, houtcome, hafter]
  exact run_value ht rest 0 bound id w'

end Scan

/-! ### Calls in braces -/

theorem World.varying?_brace_new (settings : Settings) :
    ((World.new settings).scope World.root).varying? "\x7b" = some .quotedCall := by
  have hget : ((World.new settings).scope World.root).get? "\x7b" =
      some (.varying .quotedCall 6) := by
    rw [World.get?_new]
    rfl
  rw [Scope.varying?, if_neg (by decide), hget]

section Braces

variable {w : World} {id : ScopeId} {name : String} {callee : Token}
  (hname : (w.scope id).get? name = some callee) (hcallee : callee.isComplete = true)
  (hhops : 0 < (w.scope id).maxHops)

include hname hcallee hhops

/-- A name that is bound to a complete token is evaluated to it. -/
theorem Program.stepWithin_name {bound : Nat} (hbound : 2 ≤ bound) (pos : Option Position)
    (rest : List Token) : (stepWithin bound id (.symbol name pos :: rest)).run.run w =
      (.ok (.value callee rest), w) := by
  obtain ⟨more, rfl⟩ := Nat.exists_eq_add_of_le' hbound
  rw [stepWithin, Scan.start, Scan.run_succ_of_quiet (Scan.quiet_resolve hname hhops)]
  exact Scan.run_value hcallee rest 1 more id w

/-- A name that is bound to a complete token is a form, and is evaluated to that token. -/
theorem Evaluator.run_next_name {bound : Nat} (hbound : 2 ≤ bound) (pos : Option Position)
    (args : List Token) :
    ((Program.stepWithin bound).next id (.symbol name pos :: args)).run.run w =
      (.ok (some callee, args), w) := by
  have hplain : (Token.symbol name pos).isDelimiter = false := rfl
  have hform : Form.IsForm (w.scope id).isMarker [.symbol name pos] :=
    .single hplain (Scope.isMarker_of_isComplete hname hcallee pos)
  have hsplit : Form.split (w.scope id).isMarker (.symbol name pos :: args) =
      .ok ([.symbol name pos], args) := Form.split_of_isForm hform args
  rw [Evaluator.run_next _ _ (List.cons_ne_nil _ _) hsplit, Evaluator.alone, EvalM.run_bind,
    EvalM.outcome_bind, EvalM.after_bind, EvalM.outcome, EvalM.after,
    Program.stepWithin_name hname hcallee hhops hbound pos []]
  rfl

/-- A call in braces of a name that is bound to a complete token is a call of that token, with the
arguments as they are to be written for it. -/
theorem Program.stepWithin_braces (hbraces : (w.scope id).varying? "\x7b" = some .quotedCall)
    {args written : List Token} (hargs : Token.nested [] args = true)
    (hwritten : (Varying.asWritten id callee args).run.run w = (.ok written, w))
    {bound : Nat} (hbound : 2 ≤ bound)
    (hgap : ((stepWithin bound).call bound id callee written).outcome w ≠
      .error (.missingValue .elsewhere))
    (pos pos' pos'' : Option Position) (rest : List Token) :
    let opening : Token := .opening "\x7b" "" pos
    let tokens := opening :: .symbol name pos' :: (args ++ .closing "\x7d" pos'' :: rest)
    (stepWithin (bound + 2) id tokens).run.run w =
      (Scan.resume bound id opening tokens rest
        ((stepWithin bound).call bound id callee written)).run.run w := by
  intro opening tokens
  have hinside : Token.nested [] (.symbol name pos' :: args) = true := by
    rwa [Token.nested_of_not_isDelimiter rfl]
  have hmatch : opening.closesWith (.closing "\x7d" pos'') = true :=
    Token.closesWith_of_faces (by decide) (by decide) (by decide) "" pos pos''
  have hv : ((w.scope id).varying? opening.mode).or ((w.scope id).varying? opening.bracket) =
      some .quotedCall := hbraces
  have happly : (Varying.quotedCall.apply (stepWithin bound) bound id
      (.bracketed opening (.symbol name pos' :: args))).run.run w =
      ((stepWithin bound).call bound id callee written).run.run w := by
    show ((stepWithin bound).next id (.symbol name pos' :: args) >>= _).run.run w = _
    rw [EvalM.run_bind, EvalM.outcome, EvalM.after,
      Evaluator.run_next_name hname hcallee hhops hbound]
    dsimp only
    rw [EvalM.run_bind, EvalM.outcome, EvalM.after, hwritten]
  calc (stepWithin (bound + 2) id tokens).run.run w
      = (Scan.run (bound + 1) id ⟨[⟨opening, (.symbol name pos' :: args).reverse, []⟩],
          .closing "\x7d" pos'' :: rest, 0⟩).run.run w :=
        Scan.run_succ_of_quiet (Scan.quiet_braces hinside "" pos pos'' [] rest 0) (bound + 1)
    _ = _ := Scan.run_close rfl rfl hmatch hv happly hgap

end Braces

/-! ### Forms one after the other -/

namespace Form

variable {isMarker : Token → Bool}

theorem IsForm.nested {form : List Token} (h : IsForm isMarker form) :
    Token.nested [] form = true := by
  induction h with
  | single ht _ => exact Token.nested_of_not_isDelimiter ht [] []
  | region hopening hmatch hinside =>
    exact Token.nested_region hopening hmatch (Token.wellNested_iff.mp hinside) [] []
  | marked ht _ _ ih => rwa [Token.nested_of_not_isDelimiter ht]

theorem nested_flatten {forms : List (List Token)} (h : ∀ form ∈ forms, IsForm isMarker form) :
    Token.nested [] forms.flatten = true := by
  induction forms with
  | nil => rfl
  | cons form forms ih =>
    obtain ⟨hform, hforms⟩ := List.forall_mem_cons.mp h
    rw [List.flatten_cons, Token.nested_append_nil hform.nested, ih hforms]

/-- Forms are cut where they were put together. -/
theorem splitUpTo_flatten {forms : List (List Token)} (h : ∀ form ∈ forms, IsForm isMarker form)
    {fuel : Nat} (hfuel : forms.flatten.length ≤ fuel) :
    splitUpTo isMarker fuel forms.flatten = .ok forms := by
  induction forms generalizing fuel with
  | nil => cases fuel <;> rfl
  | cons form forms ih =>
    obtain ⟨hform, hforms⟩ := List.forall_mem_cons.mp h
    have hpos := List.length_pos_of_ne_nil hform.ne_nil
    rw [List.flatten_cons, List.length_append] at hfuel
    obtain ⟨more, rfl⟩ := Nat.exists_eq_succ_of_ne_zero (show fuel ≠ 0 by omega)
    have hsplit := split_of_isForm hform forms.flatten
    obtain ⟨t, form, rfl⟩ := List.exists_cons_of_ne_nil hform.ne_nil
    rw [List.flatten_cons, List.cons_append]
    unfold splitUpTo
    rw [← List.cons_append, hsplit]
    simp [bind, Except.bind, ih hforms (show forms.flatten.length ≤ more by omega), pure,
      Except.pure]

end Form

section Forms

variable {w : World} {id : ScopeId} {forms : List (List Token)}

/-- Plain parentheses in which a scan passes a token and then others call the first with the
rest. -/
theorem Program.stepWithin_of_reaches (hparens : (w.scope id).varying? "(" = some .call)
    {pos pos' : Option Position} {inside rest args : List Token} {callee : Token}
    (hreaches : Scan.Reaches w id
      ⟨[.start (.opening "(" "" pos)], inside ++ .closing ")" pos' :: rest, 0⟩
      ⟨[⟨.opening "(" "" pos, (callee :: args).reverse, []⟩], .closing ")" pos' :: rest, 0⟩)
    (hgap : ∀ bound, ((stepWithin bound).call bound id callee args).outcome w ≠
      .error (.missingValue .elsewhere)) :
    let opening : Token := .opening "(" "" pos
    ∃ steps, ∀ bound, (stepWithin (bound + steps + 1) id
        (opening :: (inside ++ .closing ")" pos' :: rest))).run.run w =
      (Scan.resume bound id opening (opening :: callee :: (args ++ .closing ")" pos' :: rest)) rest
        ((stepWithin bound).call bound id callee args)).run.run w := by
  intro opening
  have hmatch : opening.closesWith (.closing ")" pos') = true :=
    Token.closesWith_of_faces (by decide) (by decide) (by decide) "" pos pos'
  have hv : ((w.scope id).varying? opening.mode).or ((w.scope id).varying? opening.bracket) =
      some .call := hparens
  have hopen : Scan.Quiet w id ⟨[], opening :: (inside ++ .closing ")" pos' :: rest), 0⟩
      ⟨[.start opening], inside ++ .closing ")" pos' :: rest, 0⟩ :=
    Scan.quiet_open (by decide) (by decide) "" pos
  obtain ⟨steps, hsteps⟩ := Scan.run_of_reaches (hopen.reaches.trans hreaches)
  refine ⟨steps, fun bound ↦ ?_⟩
  have hrun := hsteps (bound + 1)
  rw [Nat.add_right_comm] at hrun
  exact hrun.trans (Scan.run_close rfl rfl hmatch hv rfl (hgap bound))

/-- The arguments of a function are written as their forms, quoted. -/
theorem Varying.run_asWritten_function
    (hforms : ∀ form ∈ forms, Form.IsForm (w.scope id).isMarker form) {callee : Token}
    (hcallee : callee.kind = .function) :
    (asWritten id callee forms.flatten).run.run w = (.ok (forms.map Form.quote), w) := by
  have hcut : (Evaluator.cutAll id forms.flatten).run.run w = (.ok forms, w) := by
    rw [Evaluator.cutAll, EvalM.run_bind, EvalM.outcome_scope, EvalM.after_scope]
    dsimp only
    rw [Form.splitAll, Form.splitUpTo_flatten hforms (le_refl _)]
    rfl
  rw [asWritten, hcallee, if_neg (by decide), EvalM.run_bind, EvalM.outcome, EvalM.after, hcut]
  rfl

/-- Forms with the quoting marker in front of each. -/
def Form.Marked (forms markeds : List (List Token)) : Prop :=
  List.Forall₂ (fun form marked ↦ ∃ pos, marked = .symbol ":" pos :: form) forms markeds

variable {ref : Ref} (hquote : (w.scope id).get? ":" = some (.envoy .quote ref))
  (hhops : 2 ≤ (w.scope id).maxHops)

include hquote hhops

/-- Forms with the quoting marker in front of each are passed as their quotes. -/
theorem Scan.reaches_quotes (hforms : ∀ form ∈ forms, Form.IsForm (w.scope id).isMarker form)
    (hread : ∀ form ∈ forms, Reader.Produces form) {markeds : List (List Token)}
    (hmarked : Form.Marked forms markeds) (opening : Token) (passed : List Token)
    (frames : List Frame) (rest : List Token) :
    Reaches w id ⟨⟨opening, passed, []⟩ :: frames, markeds.flatten ++ rest, 0⟩
      ⟨⟨opening, (forms.map Form.quote).reverse ++ passed, []⟩ :: frames, rest, 0⟩ := by
  induction hmarked generalizing passed with
  | nil => exact .refl _
  | @cons form marked forms markeds hone _ ih =>
    obtain ⟨hform, hforms⟩ := List.forall_mem_cons.mp hforms
    obtain ⟨hreadForm, hread⟩ := List.forall_mem_cons.mp hread
    obtain ⟨pos, rfl⟩ := hone
    have hsplit := Form.split_of_isForm hform (markeds.flatten ++ rest)
    obtain ⟨v, pos', hdone⟩ := Form.exists_quote_eq_done hreadForm hform.ne_nil hsplit
    have hfirst := Scan.reaches_quote hquote hsplit hhops hform.ne_nil
      (⟨opening, passed, []⟩ :: frames) pos
    rw [hdone] at hfirst
    have hmore := ih hforms hread (.done v pos' :: passed)
    rw [List.flatten_cons, List.append_assoc, List.cons_append, List.map_cons, List.reverse_cons,
      List.append_assoc, List.singleton_append, hdone]
    exact hfirst.pass.trans hmore

/-- A call in parentheses of a name that is bound to a function, with quoted forms for arguments, is
a call of that function with the quotes. -/
theorem Program.stepWithin_parens (hparens : (w.scope id).varying? "(" = some .call)
    {name : String} {f : Callable} {fref : Ref} {fpos : Option Position}
    (hname : (w.scope id).get? name = some (.done (.function f fref) fpos))
    (hforms : ∀ form ∈ forms, Form.IsForm (w.scope id).isMarker form)
    (hread : ∀ form ∈ forms, Reader.Produces form) {markeds : List (List Token)}
    (hmarked : Form.Marked forms markeds)
    (hgap : ∀ bound, ((stepWithin bound).call bound id (.done (.function f fref) fpos)
      (forms.map Form.quote)).outcome w ≠ .error (.missingValue .elsewhere))
    (pos pos' pos'' : Option Position) (rest : List Token) :
    let opening : Token := .opening "(" "" pos
    let callee : Token := .done (.function f fref) fpos
    let left := opening :: callee :: (forms.map Form.quote ++ .closing ")" pos'' :: rest)
    ∃ steps, ∀ bound, (stepWithin (bound + steps + 1) id (opening :: .symbol name pos' ::
        (markeds.flatten ++ .closing ")" pos'' :: rest))).run.run w =
      (Scan.resume bound id opening left rest
        ((stepWithin bound).call bound id callee (forms.map Form.quote))).run.run w := by
  intro opening callee left
  have hpassed : (callee :: forms.map Form.quote).reverse =
      (forms.map Form.quote).reverse ++ [callee] := List.reverse_cons
  have hreaches : Scan.Reaches w id ⟨[.start opening],
      (.symbol name pos' :: markeds.flatten) ++ .closing ")" pos'' :: rest, 0⟩
      ⟨[⟨opening, (callee :: forms.map Form.quote).reverse, []⟩],
        .closing ")" pos'' :: rest, 0⟩ := by
    rw [hpassed]
    exact (Scan.quiet_resolve hname (by omega)).reaches.pass.trans (Scan.reaches_quotes hquote hhops
      hforms hread hmarked opening [callee] [] (.closing ")" pos'' :: rest))
  exact stepWithin_of_reaches hparens hreaches hgap

end Forms

/-! ### Evaluations that end alike -/

namespace EvalM

variable {α β γ δ : Type}

/-- Answers that are related, or the same stop. -/
inductive EndAlike (P : α → β → Prop) : Except Stop α → Except Stop β → Prop
  | ok {a : α} {b : β} (h : P a b) : EndAlike P (.ok a) (.ok b)
  | stop (stop : Stop) : EndAlike P (.error stop) (.error stop)

/-- Two computations that come from a world to the same world and end alike. -/
def EndsLike (P : α → β → Prop) (w : World) (x : EvalM α) (y : EvalM β) : Prop :=
  x.after w = y.after w ∧ EndAlike P (x.outcome w) (y.outcome w)

theorem EndsLike.refl {P : α → α → Prop} (hP : ∀ a, P a a) (w : World) (x : EvalM α) :
    EndsLike P w x x := by
  refine ⟨rfl, ?_⟩
  cases x.outcome w with
  | ok a => exact .ok (hP a)
  | error stop => exact .stop stop

theorem EndsLike.bind {P : α → β → Prop} {Q : γ → δ → Prop} {w : World} {x : EvalM α} {y : EvalM β}
    {f : α → EvalM γ} {g : β → EvalM δ} (hxy : EndsLike P w x y)
    (hfg : ∀ a b, P a b → ∀ w, EndsLike Q w (f a) (g b)) : EndsLike Q w (x >>= f) (y >>= g) := by
  obtain ⟨hafter, hend⟩ := hxy
  rw [EndsLike, after_bind, after_bind, outcome_bind, outcome_bind, hafter]
  generalize x.outcome w = a at *
  generalize y.outcome w = b at *
  cases hend with
  | ok h => exact hfg _ _ h _
  | stop stop => exact ⟨rfl, .stop stop⟩

theorem EndsLike.of_run_eq {P : α → β → Prop} {w : World} {x x' : EvalM α} {y y' : EvalM β}
    (hx : x'.run.run w = x.run.run w) (hy : y'.run.run w = y.run.run w) (h : EndsLike P w x y) :
    EndsLike P w x' y' := by
  unfold EndsLike after outcome at h ⊢
  rwa [hx, hy]

theorem EndsLike.exhausted_iff {P : α → β → Prop} {w : World} {x : EvalM α} {y : EvalM β}
    (h : EndsLike P w x y) : x.outcome w = .error .exhausted ↔ y.outcome w = .error .exhausted := by
  obtain ⟨-, hend⟩ := h
  generalize x.outcome w = a at *
  generalize y.outcome w = b at *
  cases hend with
  | ok h => exact ⟨fun h ↦ (by cases h), fun h ↦ (by cases h)⟩
  | stop stop => exact ⟨fun h ↦ (by cases h; rfl), fun h ↦ (by cases h; rfl)⟩

end EvalM

open EvalM (EndsLike Extends)

theorem Failure.cause_blame (f : Failure) (t : Token) : (f.blame t).cause = f.cause := by
  unfold blame
  split <;> rfl

/-- The same token in front of the same buffer, or failures with the same cause. -/
inductive Reduction.Alike : Reduction → Reduction → Prop
  | value (t : Token) (rest : List Token) : Alike (.value t rest) (.value t rest)
  | nothing : Alike .nothing .nothing
  | failed {f f' : Failure} (h : f.cause = f'.cause) (left left' : List Token) :
      Alike (.failed f left) (.failed f' left')

theorem Reduction.Alike.refl (r : Reduction) : r.Alike r := by
  cases r with
  | value t rest => exact .value t rest
  | nothing => exact .nothing
  | failed f left => exact .failed rfl left left

namespace Scan

variable {id : ScopeId}

/-- What is to blame for a failure makes no difference but for its place. -/
theorem alike_resume (bound : Nat) (opening opening' : Token) (left left' rest : List Token)
    (x : EvalM (List Token)) (w : World) :
    EndsLike Reduction.Alike w (resume bound id opening left rest x)
      (resume bound id opening' left' rest x) := by
  refine EndsLike.bind (EndsLike.refl (P := Eq) (fun _ ↦ rfl) w (EvalM.attempt x))
    fun answer _ heq w ↦ ?_
  cases heq
  cases answer with
  | ok placed => exact EndsLike.refl Reduction.Alike.refl w _
  | error f =>
    refine ⟨rfl, .ok (.failed ?_ left left')⟩
    rw [Failure.cause_blame, Failure.cause_blame]

theorem resume_extends {bound bound' : Nat} (hbound : bound ≤ bound') (opening : Token)
    (left rest : List Token) {x y : EvalM (List Token)} (hxy : Extends x y) :
    Extends (resume bound id opening left rest x) (resume bound' id opening left rest y) := by
  refine hxy.attempt.bind fun answer ↦ ?_
  cases answer with
  | ok placed => exact run_extends hbound id _
  | error f => exact .refl _

end Scan

namespace Program

/-- The same values, and failures with the same cause, if any. -/
structure Answer.Alike (a b : Answer) : Prop where
  values : a.values = b.values
  cause : a.failure.map Failure.cause = b.failure.map Failure.cause

/-- An evaluation after its first step. -/
def proceed (bound : Nat) (id : ScopeId) (x : EvalM Reduction) : EvalM Answer := do
  let (out, failure) ← (do
    match ← x with
    | .value t rest => (stepWithin (bound + 1)).collect id bound [t] rest
    | .nothing => return ([], none)
    | .failed f _ => return ([], some f))
  return ⟨out.filterMap Token.value?, failure⟩

variable {id : ScopeId}

theorem evaluateWithin_succ (bound : Nat) (tokens : List Token) :
    evaluateWithin (bound + 1) id tokens =
      proceed bound id (stepWithin (bound + 1) id tokens) := rfl

theorem run_proceed {w : World} {x y : EvalM Reduction} (h : x.run.run w = y.run.run w)
    (bound : Nat) : (proceed bound id x).run.run w = (proceed bound id y).run.run w :=
  EvalM.run_bind_of_eq (EvalM.run_bind_of_eq h _) _

theorem proceed_extends {bound bound' : Nat} (hbound : bound ≤ bound') {x y : EvalM Reduction}
    (hxy : Extends x y) : Extends (proceed bound id x) (proceed bound' id y) := by
  refine Extends.bind (hxy.bind fun r ↦ ?_) fun _ ↦ .refl _
  cases r with
  | value t rest => exact collect_extends (stepWithin_extends (by omega)) id hbound [t] rest
  | nothing => exact .refl _
  | failed f left => exact .refl _

/-- Evaluations of whole buffers end alike if their first steps do. -/
theorem alike_proceed (bound : Nat) {w : World} {x y : EvalM Reduction}
    (h : EndsLike Reduction.Alike w x y) :
    EndsLike Answer.Alike w (proceed bound id x) (proceed bound id y) := by
  let Same (a b : List Token × Option Failure) : Prop :=
    a.1 = b.1 ∧ a.2.map Failure.cause = b.2.map Failure.cause
  refine EndsLike.bind (P := Same) (h.bind fun r r' hr w ↦ ?_) fun a b hab w ↦ ?_
  · cases hr with
    | value t rest => exact EndsLike.refl (fun _ ↦ ⟨rfl, rfl⟩) w _
    | nothing => exact EndsLike.refl (fun _ ↦ ⟨rfl, rfl⟩) w _
    | failed hcause left left' => exact ⟨rfl, .ok ⟨rfl, congrArg some hcause⟩⟩
  · obtain ⟨out, failure⟩ := a
    obtain ⟨out', failure'⟩ := b
    obtain ⟨rfl, hcause⟩ := hab
    exact ⟨rfl, .ok ⟨rfl, hcause⟩⟩

/-- Evaluations that came to an end within two bounds came to the same end. -/
theorem run_evaluateWithin_eq {tokens : List Token} {w : World} {bound bound' : Nat}
    (h : (evaluateWithin bound id tokens).outcome w ≠ .error .exhausted)
    (h' : (evaluateWithin bound' id tokens).outcome w ≠ .error .exhausted) :
    (evaluateWithin bound id tokens).run.run w = (evaluateWithin bound' id tokens).run.run w := by
  rcases Nat.le_total bound bound' with hle | hle
  · exact (evaluateWithin_of_le hle h).symm
  · exact evaluateWithin_of_le hle h'

section Ends

variable {w : World} {first second : List Token} {x y : Nat → EvalM Reduction} {k l : Nat}
  (hfirst : ∀ m ≥ 2, (stepWithin (m + k + 1) id first).run.run w = (x m).run.run w)
  (hsecond : ∀ m ≥ 2, (stepWithin (m + l + 1) id second).run.run w = (y m).run.run w)
  (hy : ∀ {m m' : Nat}, m ≤ m' → Extends (y m) (y m'))
  (halike : ∀ m, EndsLike Reduction.Alike w (x m) (y m))

include hfirst hsecond hy halike

/-- A buffer whose evaluation goes on alike after some steps ends alike. -/
theorem exists_alike (bound : Nat)
    (h : (evaluateWithin bound id first).outcome w ≠ .error .exhausted) :
    ∃ bound', (evaluateWithin bound' id second).outcome w ≠ .error .exhausted ∧
      EndsLike Answer.Alike w (evaluateWithin bound id first)
        (evaluateWithin bound' id second) := by
  let m := bound + 2
  have hle : bound ≤ m + k + 1 := by omega
  have hx : (evaluateWithin bound id first).run.run w = (proceed (m + k) id (x m)).run.run w := by
    rw [← evaluateWithin_of_le hle h]
    exact run_proceed (hfirst m (by omega)) (m + k)
  have hproceed : EndsLike Answer.Alike w (proceed (m + k) id (x m)) (proceed (m + k) id (y m)) :=
    alike_proceed (m + k) (halike m)
  have hgoes : (proceed (m + k) id (y m)).outcome w ≠ .error .exhausted := by
    intro hstop
    refine h ?_
    rw [EvalM.outcome, hx]
    exact hproceed.exhausted_iff.mpr hstop
  have hyrun : (evaluateWithin (m + k + l + 1) id second).run.run w =
      (proceed (m + k) id (y m)).run.run w := by
    refine (run_proceed (hsecond (m + k) (by omega)) (m + k + l)).trans ?_
    exact (proceed_extends (by omega) (hy (by omega)) w).resolve_left hgoes
  refine ⟨m + k + l + 1, ?_, hproceed.of_run_eq hx hyrun⟩
  rw [EvalM.outcome, hyrun]
  exact hgoes

end Ends

/-- A call of a function whose arguments are complete lacks no value. -/
theorem outcome_call_ne_missing {w : World} {f : Callable} {ref : Ref} {pos : Option Position}
    {args : List Token} (hargs : ∀ t ∈ args, t.isComplete = true) (bound : Nat) :
    ((stepWithin bound).call bound id (.done (.function f ref) pos) args).outcome w ≠
      .error (.missingValue .elsewhere) := by
  have hvalued : Valued False (.done (.function f ref) pos :: args) := .inl <|
    List.forall_mem_cons.mpr ⟨rfl, fun t ht ↦ Token.value?_of_isComplete (hargs t ht)⟩
  intro hmissing
  have hmeets := (call_meets World.admits_true (reliable_stepWithin World.admits_true bound) bound
    id hvalued w).2
  rw [hmissing] at hmeets
  exact hmeets

/-- A call in braces is a call in parentheses of quoted arguments. Where braces, parentheses and the
quoting marker have their meanings and two hops are allowed, a name that is bound to a function is
called in braces with forms of a text, and in parentheses with the same forms behind quoting
markers: both scans come to a call of the function with the quoted forms and go on with what it
gives in front of the rest. So one evaluation ends if and only if the other does, and then in the
same world with the same values, or stops alike, with failures that have the same cause. -/
theorem quotedCall_alike {w : World} {id : ScopeId} {ref : Ref}
    (hquote : (w.scope id).get? ":" = some (.envoy .quote ref))
    (hbraces : (w.scope id).varying? "\x7b" = some .quotedCall)
    (hparens : (w.scope id).varying? "(" = some .call) (hhops : 2 ≤ (w.scope id).maxHops)
    {name : String} {f : Callable} {fref : Ref} {fpos : Option Position}
    (hname : (w.scope id).get? name = some (.done (.function f fref) fpos))
    {forms markeds : List (List Token)} (hread : ∀ form ∈ forms, Reader.Produces form)
    (hforms : ∀ form ∈ forms, Form.IsForm (w.scope id).isMarker form)
    (hmarked : Form.Marked forms markeds) (p p' p'' q q' q'' : Option Position)
    (rest : List Token) :
    let callee : Token := .done (.function f fref) fpos
    let args := forms.map Form.quote
    let brace : Token := .opening "\x7b" "" p
    let paren : Token := .opening "(" "" q
    let braced := brace :: .symbol name p' :: (forms.flatten ++ .closing "\x7d" p'' :: rest)
    let plain := paren :: .symbol name q' :: (markeds.flatten ++ .closing ")" q'' :: rest)
    (∀ bound ≥ 2, (stepWithin (bound + 2) id braced).run.run w =
      (Scan.resume bound id brace braced rest
        ((stepWithin bound).call bound id callee args)).run.run w) ∧
    (∃ steps, ∀ bound, (stepWithin (bound + steps + 1) id plain).run.run w =
      (Scan.resume bound id paren (paren :: callee :: (args ++ .closing ")" q'' :: rest)) rest
        ((stepWithin bound).call bound id callee args)).run.run w) ∧
    ((∃ bound, (evaluateWithin bound id braced).outcome w ≠ .error .exhausted) ↔
      ∃ bound, (evaluateWithin bound id plain).outcome w ≠ .error .exhausted) ∧
    ∀ bound bound', (evaluateWithin bound id braced).outcome w ≠ .error .exhausted →
      (evaluateWithin bound' id plain).outcome w ≠ .error .exhausted →
      EndsLike Answer.Alike w (evaluateWithin bound id braced)
        (evaluateWithin bound' id plain) := by
  intro callee args brace paren braced plain
  let call bound := (stepWithin bound).call bound id callee args
  have hgap : ∀ bound, (call bound).outcome w ≠ .error (.missingValue .elsewhere) := by
    refine outcome_call_ne_missing fun t ht ↦ ?_
    obtain ⟨form, hform, rfl⟩ := List.mem_map.mp ht
    obtain ⟨v, pos, hdone⟩ := Form.exists_quote_eq_done (hread form hform)
      (hforms form hform).ne_nil (Form.split_of_isForm (hforms form hform) [])
    rw [hdone]
    rfl
  have hbraced : ∀ bound ≥ 2, (stepWithin (bound + 1 + 1) id braced).run.run w =
      (Scan.resume bound id brace braced rest (call bound)).run.run w := fun bound hbound ↦
    stepWithin_braces hname rfl (by omega) hbraces (Form.nested_flatten hforms)
      (Varying.run_asWritten_function hforms rfl) hbound (hgap bound) p p' p'' rest
  obtain ⟨steps, hplain⟩ := stepWithin_parens hquote hhops hparens hname hforms hread hmarked hgap
    q q' q'' rest
  have hextends : ∀ opening left {m m' : Nat}, m ≤ m' → Extends
      (Scan.resume m id opening left rest (call m))
      (Scan.resume m' id opening left rest (call m')) := fun opening left m m' hle ↦
    Scan.resume_extends hle opening left rest
      (call_extends (stepWithin_extends hle) hle id callee args)
  have hforward := exists_alike hbraced (fun bound _ ↦ hplain bound) (hextends _ _)
    fun m ↦ Scan.alike_resume m brace paren _ _ rest (call m) w
  have hbackward := exists_alike (fun bound _ ↦ hplain bound) hbraced (hextends _ _)
    fun m ↦ Scan.alike_resume m paren brace _ _ rest (call m) w
  refine ⟨hbraced, ⟨steps, hplain⟩, ⟨?_, ?_⟩, fun bound bound' h h' ↦ ?_⟩
  · rintro ⟨bound, h⟩
    obtain ⟨bound', h', -⟩ := hforward bound h
    exact ⟨bound', h'⟩
  · rintro ⟨bound, h⟩
    obtain ⟨bound', h', -⟩ := hbackward bound h
    exact ⟨bound', h'⟩
  · obtain ⟨bound'', h'', halike⟩ := hforward bound h
    exact halike.of_run_eq rfl (run_evaluateWithin_eq h' h'')

/-- A name and a list that are handed to the function that joins texts, in a new world. -/
theorem quotedCall_alike_str :
    let w := World.new ⟨"", false, 0, 1⟩
    let x : Token := .symbol "x" (some ⟨1, 1⟩)
    let list : List Token := .opening "[" "" (some ⟨1, 3⟩) ::
      ([.done (.int 1) (some ⟨1, 4⟩), .symbol "y" (some ⟨1, 6⟩)] ++ [.closing "]" (some ⟨1, 7⟩)])
    let markeds : List (List Token) := [[.symbol ":" none, x], .symbol ":" none :: list]
    let joined : Token := .stable (.string ":x:([ 1 y ])")
    (∃ bound, (stepWithin bound World.root (.opening "\x7b" "" none :: .symbol "str" none ::
      ([[x], list].flatten ++ [.closing "\x7d" none]))).outcome w = .ok (.value joined [])) ∧
    ∃ bound, (stepWithin bound World.root (.opening "(" "" none :: .symbol "str" none ::
      (markeds.flatten ++ [.closing ")" none]))).outcome w = .ok (.value joined []) := by
  intro w x list markeds joined
  have hstandard := World.standard_new ⟨"", false, 0, 1⟩ (by decide)
  obtain ⟨ref, hquote⟩ := hstandard.quote
  have hstr : (w.scope World.root).get? "str" =
      some (.stable (.function (.primitive .str) 30)) := by
    rw [World.get?_new]
    rfl
  have hread : ∀ form ∈ [[x], list], Reader.Produces form := by
    have hall : Reader.read 0 "x [1 y]".toList = .ok (x :: list) := rfl
    refine List.forall_mem_cons.mpr ⟨⟨_, _, _, hall, [], list, rfl⟩, ?_⟩
    exact List.forall_mem_singleton.mpr ⟨_, _, _, hall, [x], [], rfl⟩
  have hforms : ∀ form ∈ [[x], list], Form.IsForm (w.scope World.root).isMarker form := by
    have hx := hstandard.marker "x" (some ⟨1, 1⟩) (by decide) (by decide)
    refine List.forall_mem_cons.mpr ⟨.single rfl hx, ?_⟩
    exact List.forall_mem_singleton.mpr (.region rfl rfl (Token.wellNested_iff.mpr rfl))
  have hmarked : Form.Marked [[x], list] markeds := .cons ⟨none, rfl⟩ (.cons ⟨none, rfl⟩ .nil)
  obtain ⟨hbraced, ⟨steps, hplain⟩, -⟩ := quotedCall_alike hquote (World.varying?_brace_new _)
    (World.callsInParens_new _).varying hstandard.hops hstr hread hforms hmarked none none none none
    none none []
  let args : List Token := [[x], list].map Form.quote
  have hcall : ∀ n u, ((stepWithin n).call n World.root (.stable (.function (.primitive .str) 30))
      args).run.run u = (.ok [joined], u) := fun n u ↦ rfl
  refine ⟨⟨2 + 2, ?_⟩, 1 + steps + 1, ?_⟩
  · rw [EvalM.outcome, hbraced 2 (le_refl 2)]
    exact congrArg Prod.fst (Scan.run_resume rfl (hcall 2 w))
  · rw [EvalM.outcome, hplain 1]
    exact congrArg Prod.fst (Scan.run_resume rfl (hcall 1 w))

/-- A buffer that is one value. -/
theorem evaluateWithin_of_value {bound : Nat} {tokens : List Token} {w w' : World} {t : Token}
    (h : (stepWithin (bound + 2) id tokens).run.run w = (.ok (.value t []), w')) :
    (evaluateWithin (bound + 2) id tokens).outcome w = .ok ⟨[t].filterMap Token.value?, none⟩ := by
  rw [evaluateWithin_succ, proceed, EvalM.outcome_bind, EvalM.outcome_bind, EvalM.outcome,
    EvalM.after, h]
  rfl

/-- A host that defines an operator under the name of the quoting marker takes its meaning away. A
call in braces still quotes its arguments, but in parentheses the operator is an argument itself. -/
theorem quotedCall_rebound :
    let w := ((Session.new ⟨"", false, 0, 1⟩).perform World.root
      (.defineOperator ":" (.arith .add) ⟨6, false⟩)).world
    let str : Token := .stable (.function (.primitive .str) 30)
    let one : Token := .done (.int 1) (some ⟨1, 1⟩)
    2 ≤ (w.scope World.root).maxHops ∧ (w.scope World.root).get? "str" = some str ∧
      Reader.Produces [one] ∧ Form.IsForm (w.scope World.root).isMarker [one] ∧
      ∃ bound bound', (evaluateWithin bound World.root [.opening "\x7b" "" none,
          .symbol "str" none, one, .closing "\x7d" none]).outcome w = .ok ⟨[.string "1"], none⟩ ∧
        (evaluateWithin bound' World.root [.opening "(" "" none, .symbol "str" none,
          .symbol ":" none, one, .closing ")" none]).outcome w =
          .ok ⟨[.string "\x7bbuiltin :\x7d1"], none⟩ := by
  intro w str one
  obtain ⟨ref, hscope⟩ := Session.scope_redefined ⟨"", false, 0, 1⟩ ":" (.arith .add) ⟨6, false⟩
  have hhops : 2 ≤ (w.scope World.root).maxHops := by
    rw [hscope, Scope.maxHops_installOperator]
    exact (World.standard_new ⟨"", false, 0, 1⟩ (by decide)).hops
  have hstr : (w.scope World.root).get? "str" = some str := by
    rw [hscope, Scope.get?_installOperator_of_ne _ (by decide), World.get?_new]
    rfl
  have hcolon : (w.scope World.root).get? ":" =
      some (.stable (.function (.renamed ":" (.arith .add)) ref)) := by
    rw [hscope, Scope.get?_installOperator]
  have hbraces : (w.scope World.root).varying? "\x7b" = some .quotedCall := by
    rw [hscope, Scope.varying?_installOperator_of_ne _ (by decide), World.varying?_brace_new]
  have hparens : (w.scope World.root).varying? "(" = some .call := by
    rw [hscope, Scope.varying?_installOperator_of_ne _ (by decide),
      (World.callsInParens_new _).varying]
  have hread : Reader.Produces [one] := ⟨0, "1".toList, [one], rfl, List.infix_refl _⟩
  have hform : Form.IsForm (w.scope World.root).isMarker [one] := .single rfl rfl
  let plus : Token := .stable (.function (.renamed ":" (.arith .add)) ref)
  have hquoted : ∀ n u, ((stepWithin n).call n World.root str [one]).run.run u =
      (.ok [.stable (.string "1")], u) := fun n u ↦ rfl
  have hboth : ∀ n u, ((stepWithin n).call n World.root str [plus, one]).run.run u =
      (.ok [.stable (.string "\x7bbuiltin :\x7d1")], u) := fun n u ↦ rfl
  have hcomplete : ∀ t ∈ [plus, one], t.isComplete = true :=
    List.forall_mem_cons.mpr ⟨rfl, List.forall_mem_singleton.mpr rfl⟩
  have hwritten : (Varying.asWritten World.root str [[one]].flatten).run.run w =
      (.ok [Form.quote [one]], w) :=
    Varying.run_asWritten_function (List.forall_mem_singleton.mpr hform) rfl
  have hnested : Token.nested [] [[one]].flatten = true := rfl
  have hbraced := stepWithin_braces hstr rfl (by omega) hbraces hnested hwritten (le_refl 2)
    (outcome_call_ne_missing (List.forall_mem_singleton.mpr rfl) 2) none none none []
  have hreaches : Scan.Reaches w World.root
      ⟨[.start (.opening "(" "" none)], [.symbol "str" none, .symbol ":" none, one] ++
        [.closing ")" none], 0⟩
      ⟨[⟨.opening "(" "" none, [str, plus, one].reverse, []⟩], [.closing ")" none], 0⟩ := by
    refine .trans (Scan.quiet_resolve hstr (by omega)).reaches.pass ?_
    refine .trans (Scan.quiet_resolve hcolon (by omega)).reaches.pass ?_
    exact (Scan.quiet_pass _ _ _).reaches
  obtain ⟨steps, hplain⟩ := stepWithin_of_reaches hparens hreaches
    (outcome_call_ne_missing hcomplete)
  have hvalue := (hplain 1).trans (Scan.run_resume rfl (hboth 1 w))
  rw [show 1 + steps + 1 = steps + 2 by omega] at hvalue
  refine ⟨hhops, hstr, hread, hform, 2 + 2, steps + 2, ?_, evaluateWithin_of_value hvalue⟩
  exact evaluateWithin_of_value (hbraced.trans (Scan.run_resume rfl (hquoted 2 w)))

end Program

end TokenLang

import TokenLang.Proofs.Eval.Bounds
import TokenLang.Proofs.OperatorTree.Scanning

/-!
The limit on hops. The scan counts how often one place of the buffer is resolved, and the count
starts anew wherever it comes to another token. A step may put tokens where the front was, and it
may take a form from behind the front, but what it keeps of the buffer it keeps as it is
(`Scan.kept`). So the count is at zero when the scan comes to a token that no step has touched
(`Scan.Arrives`), whatever stood before it and however deep in brackets it stands; and the length of
a chain of names that can be followed from there is the limit of the scope, no more and no less.
Main statement: `Scan.hops_exact`.
-/

set_option autoImplicit false
set_option relaxedAutoImplicit false

namespace TokenLang

/-! ### Chains of names -/

/-- Whether a token is looked up by its name when the scan comes to it. -/
def Token.isName (t : Token) : Bool := t.isSymbol && !t.isLiteral

namespace Scope

/-- From a token to another by looking up names, as often as said. -/
inductive Leads (s : Scope) : Nat → Token → Token → Prop
  | here (t : Token) : Leads s 0 t t
  | hop {k : Nat} {t bound last : Token} (hname : t.isName = true)
      (hbound : s.get? t.content = some bound) (hmore : Leads s k bound last) :
      Leads s (k + 1) t last

/-- A chain of names that comes back to one of them. -/
def Circles (s : Scope) (t : Token) : Prop :=
  ∃ k l name, s.Leads k t name ∧ s.Leads (l + 1) name name

variable {s : Scope} {t u v : Token} {k l : Nat}

theorem Leads.trans (h : s.Leads k t u) (h' : s.Leads l u v) : s.Leads (k + l) t v := by
  induction h with
  | here => rwa [Nat.zero_add]
  | hop hname hbound _ ih =>
    rw [Nat.add_right_comm]
    exact .hop hname hbound (ih h')

/-- The first part of a chain. Where it goes on, it has come to a name. -/
theorem Leads.exists_name (h : s.Leads k t v) (hlt : l < k) :
    ∃ u, s.Leads l t u ∧ u.isName = true := by
  induction h generalizing l with
  | here => exact absurd hlt (Nat.not_lt_zero l)
  | hop hname hbound _ ih =>
    cases l with
    | zero => exact ⟨_, .here _, hname⟩
    | succ l =>
      obtain ⟨u, hu, hisName⟩ := ih (Nat.lt_of_succ_lt_succ hlt)
      exact ⟨u, .hop hname hbound hu, hisName⟩

/-- A chain that comes back can be followed as far as one likes. -/
theorem Circles.exists_name (h : s.Circles t) (n : Nat) : ∃ u, s.Leads n t u ∧ u.isName = true := by
  obtain ⟨k, l, name, hname, hround⟩ := h
  have hrounds : ∀ rounds, s.Leads (rounds * (l + 1)) name name := by
    intro rounds
    induction rounds with
    | zero =>
      rw [Nat.zero_mul]
      exact .here name
    | succ rounds ih =>
      rw [Nat.succ_mul]
      exact ih.trans hround
  refine (hname.trans (hrounds (n + 1))).exists_name ?_
  have hle : n + 1 ≤ (n + 1) * (l + 1) := Nat.le_mul_of_pos_right _ (Nat.succ_pos l)
  omega

end Scope

namespace Scan

/-! ### Following a chain -/

section Chains

variable {w : World} {id : ScopeId} {frames : List Frame} {rest : List Token} {hops : Nat}
  {t bound : Token}

theorem isDelimiter_of_isName (h : t.isName = true) : t.isDelimiter = false :=
  Token.isDelimiter_of_isSymbol (Bool.and_eq_true_iff.mp h).1

theorem isComplete_of_isName (h : t.isName = true) : t.isComplete = false := by
  cases t with
  | done v pos => cases v <;> cases h
  | varying v ref => cases h
  | _ => rfl

theorem act_of_isName (h : t.isName = true) (ev : Evaluator) (fuel : Nat) (after : List Token) :
    ev.act fuel id t after = (Evaluator.resolve id t >>= fun u ↦ pure ([u], after)) := by
  cases t with
  | envoy e ref => cases h
  | literal d text mode pos => simp [Token.isName, Token.isLiteral] at h
  | _ => rfl

theorem quiet_lookup (hname : t.isName = true) (hbound : (w.scope id).get? t.content = some bound)
    (hhops : hops + 1 ≤ (w.scope id).maxHops) :
    Quiet w id ⟨frames, t :: rest, hops⟩ ⟨frames, bound :: rest, hops + 1⟩ := by
  refine quiet_act [bound] (isDelimiter_of_isName hname) (isComplete_of_isName hname) hhops
    (List.cons_ne_nil _ _) fun ev fuel ↦ ?_
  simp [act_of_isName hname, Evaluator.resolve, hbound]

/-- A chain is followed as far as the limit allows. -/
theorem reaches_of_leads (frames : List Frame) (rest : List Token) (hops : Nat) {k : Nat}
    {v : Token} (h : (w.scope id).Leads k t v) (hhops : hops + k ≤ (w.scope id).maxHops) :
    Reaches w id ⟨frames, t :: rest, hops⟩ ⟨frames, v :: rest, hops + k⟩ := by
  induction h generalizing hops with
  | here t => exact .refl _
  | @hop k t bound last hname hbound _ ih =>
    have hmore := ih (hops + 1) (by omega)
    rw [show hops + 1 + k = hops + (k + 1) by omega] at hmore
    exact (quiet_lookup hname hbound (by omega)).reaches.trans hmore

/-- A name at the limit is a failure. -/
theorem run_of_isName (hname : t.isName = true) (hhops : (w.scope id).maxHops < hops + 1)
    (fuel : Nat) : (run (fuel + 1) id ⟨frames, t :: rest, hops⟩).run.run w =
      (.ok (.failed (.blaming t (.tooManyHops t.text)) (buffer ⟨frames, t :: rest, hops⟩)), w) := by
  have hadvance : ∀ ev : Evaluator, (⟨frames, t :: rest, hops⟩ : Scan).advance ev fuel id =
      (⟨frames, t :: rest, hops⟩ : Scan).resolveFront ev fuel id t rest := fun ev ↦ by
    simp [advance, isDelimiter_of_isName hname, isComplete_of_isName hname]
  rw [run, hadvance, EvalM.run_bind, resolveFront, EvalM.outcome_bind, EvalM.after_bind,
    EvalM.outcome_scope, EvalM.after_scope]
  dsimp only
  rw [if_pos hhops]
  rfl

end Chains

/-! ### Coming to a token -/

/-- What the next step leaves as it is of the buffer behind the front. -/
def kept (ev : Evaluator) (fuel : Nat) (id : ScopeId) (s : Scan) : EvalM (List Token) :=
  match s.rest with
  | [] => return []
  | t :: rest =>
    if t.isDelimiter then
      if !t.closes && t.quotes then return (Frame.passQuoted t [] [] rest).2 else return rest
    else if t.isComplete then return rest
    else do return (← ev.act fuel id t rest).2

/-- The scan comes to the first of the tokens that its buffer ends with: every step keeps them,
until they are all that is left to be looked at. -/
inductive Arrives (id : ScopeId) (tokens : List Token) : World → Scan → World → Scan → Prop
  | here (w : World) (frames : List Frame) (hops : Nat) :
      Arrives id tokens w ⟨frames, tokens, hops⟩ w ⟨frames, tokens, hops⟩
  | step {w w' w'' : World} {s s' s'' : Scan} {left : List Token} (fuel : Nat)
      (hstep : (s.advance (Program.stepWithin fuel) fuel id).run.run w = (.ok (.more s'), w'))
      (hkept : (s.kept (Program.stepWithin fuel) fuel id).outcome w = .ok left)
      (htokens : tokens <:+ left) (hmore : Arrives id tokens w' s' w'' s'') :
      Arrives id tokens w s w'' s''

section Arrives

variable {id : ScopeId} {w w' : World} {s s' : Scan} {tokens left : List Token}

/-- A step that comes to what it keeps has put nothing in front of it, which would make the buffer
longer, and the count starts anew. -/
theorem hops_of_advance {ev : Evaluator} {fuel : Nat}
    (hstep : (s.advance ev fuel id).outcome w = .ok (.more s'))
    (hkept : (s.kept ev fuel id).outcome w = .ok left) (htokens : tokens <:+ left)
    (hfront : s'.rest = tokens) : s'.hops = 0 := by
  cases advances_of_more hstep with
  | close => rfl
  | @enter frames t rest _ _ _ _ hopen =>
    unfold openFrame at hopen
    split_ifs at hopen <;> cases hopen <;> rfl
  | @pass frames t rest _ _ _ _ hpass =>
    cases frames <;> cases hpass
    rfl
  | @act frames t rest placed after _ hdelimiter hpending hact =>
    simp only [kept, hdelimiter, hpending, Bool.false_eq_true, if_false] at hkept
    obtain ⟨answer, hact', hkept⟩ := EvalM.ok_of_bind hkept
    cases hact.symm.trans hact'
    obtain rfl : after = left := Except.ok.inj hkept
    have hplaced : placed = [] := by
      have hlength := congrArg List.length hfront
      have hle := htokens.length_le
      simp only [List.length_append] at hlength
      exact List.length_eq_zero_iff.mp (by omega)
    simp [hplaced]

theorem Arrives.hops_eq_zero (h : Arrives id tokens w s w' s') (hs : s.rest = tokens → s.hops = 0) :
    s'.rest = tokens ∧ s'.hops = 0 := by
  induction h with
  | here w frames hops => exact ⟨rfl, hs rfl⟩
  | step fuel hstep hkept htokens _ ih =>
    exact ih fun hfront ↦ hops_of_advance (congrArg Prod.fst hstep) hkept htokens hfront

/-- A run comes to the token, too. -/
theorem Arrives.exists_runs (h : Arrives id tokens w s w' s') :
    ∃ regions, Runs id w s regions w' s' := by
  induction h with
  | here w frames hops => exact ⟨[], .refl _ _⟩
  | @step w w' _ s s' _ _ fuel hstep _ _ _ ih =>
    obtain ⟨regions, hruns⟩ := ih
    refine ⟨_, .head fuel (fun more hmore ↦ ?_) hruns⟩
    rcases advance_extends (Program.stepWithin_extends hmore) hmore id s w with hexhausted | hsame
    · cases (congrArg Prod.fst hstep).symm.trans hexhausted
    · exact hsame.trans hstep

/-- A name behind which the token stands is looked up on the way. -/
theorem Arrives.lookup {t bound : Token} {frames : List Frame} {rest : List Token} {hops : Nat}
    (hname : t.isName = true) (hbound : (w.scope id).get? t.content = some bound)
    (hhops : hops + 1 ≤ (w.scope id).maxHops) (htokens : tokens <:+ rest)
    (hmore : Arrives id tokens w ⟨frames, bound :: rest, hops + 1⟩ w' s') :
    Arrives id tokens w ⟨frames, t :: rest, hops⟩ w' s' := by
  obtain ⟨houtcome, hafter⟩ := quiet_lookup hname hbound hhops (Program.stepWithin 0) 0
  refine .step 0 (Prod.ext houtcome hafter) ?_ htokens hmore
  simp [kept, isDelimiter_of_isName hname, isComplete_of_isName hname, act_of_isName hname,
    Evaluator.resolve, hbound]

end Arrives

/-! ### The limit -/

/-- From some bound on, a run fails at the name that is as many hops away from a token as the limit
allows, with that name where the token was. -/
def Overflows (id : ScopeId) (w : World) (s : Scan) (w' : World) (frames : List Frame) (t : Token)
    (rest : List Token) : Prop :=
  ∃ bound name, (w'.scope id).Leads (w'.scope id).maxHops t name ∧ name.isName = true ∧
    ∀ fuel ≥ bound, (run fuel id s).run.run w =
      (.ok (.failed (.blaming name (.tooManyHops name.text))
        (buffer ⟨frames, name :: rest, (w'.scope id).maxHops⟩)), w')

section Limit

variable {id : ScopeId} {w w' : World} {s s' : Scan} {t v : Token} {rest : List Token}
  (harrives : Arrives id (t :: rest) w s w' s') (hfresh : s.rest = t :: rest → s.hops = 0)
include harrives hfresh

/-- A run that comes to a token follows the chain from there. -/
theorem exists_run_of_leads {k : Nat} (h : (w'.scope id).Leads k t v)
    (hk : k ≤ (w'.scope id).maxHops) : ∃ bound steps, ∀ fuel ≥ bound,
      (run (fuel + steps) id s).run.run w =
        (run fuel id ⟨s'.frames, v :: rest, k⟩).run.run w' := by
  obtain ⟨hrest, hhops⟩ := harrives.hops_eq_zero hfresh
  obtain ⟨regions, hruns⟩ := harrives.exists_runs
  obtain ⟨bound, steps, hrun⟩ := hruns.run_eq
  have hreaches : Reaches w' id s' ⟨s'.frames, v :: rest, k⟩ := by
    have hchain := reaches_of_leads s'.frames rest 0 h (by omega)
    rw [Nat.zero_add, ← hhops, ← hrest] at hchain
    exact hchain
  obtain ⟨hopsTaken, hchain⟩ := run_of_reaches hreaches
  refine ⟨bound, hopsTaken + steps, fun fuel hfuel ↦ ?_⟩
  rw [← Nat.add_assoc, hrun _ (by omega), hchain]

theorem overflows_of_leads (h : (w'.scope id).Leads (w'.scope id).maxHops t v)
    (hname : v.isName = true) : Overflows id w s w' s'.frames t rest := by
  obtain ⟨bound, steps, hrun⟩ := exists_run_of_leads harrives hfresh h (le_refl _)
  refine ⟨bound + steps + 1, v, h, hname, fun fuel hfuel ↦ ?_⟩
  obtain ⟨more, rfl⟩ := Nat.exists_eq_add_of_le' (show steps + 1 ≤ fuel by omega)
  rw [show more + (steps + 1) = more + 1 + steps by omega, hrun _ (by omega)]
  exact run_of_isName hname (Nat.lt_succ_self _) more

end Limit

/-- The limit on hops is exact. When a scan comes to a token that no step has touched, its count is
at zero, wherever the token stands and whatever was reduced before it. So a chain of names that
comes to a complete token puts that one in its place if it takes no more lookups than the limit
allows, and the scan goes on from there; outside all brackets it is the result. If the chain takes
more lookups, or goes in a circle, the scan fails with too many hops. The one thing asked of the
start is that the token is not there already as a hop of another: at the beginning of a scan the
count is at zero. -/
theorem hops_exact {id : ScopeId} {w w' : World} {s s' : Scan} {t : Token} {rest : List Token}
    (harrives : Arrives id (t :: rest) w s w' s') (hfresh : s.rest = t :: rest → s.hops = 0) :
    (∀ k v, (w'.scope id).Leads k t v → v.isComplete = true →
      (k ≤ (w'.scope id).maxHops →
        (∃ bound steps, ∀ fuel ≥ bound, (run (fuel + steps) id s).run.run w =
          (run fuel id ⟨s'.frames, v :: rest, k⟩).run.run w') ∧
        (s'.frames = [] → ∃ bound, ∀ fuel ≥ bound,
          (run fuel id s).run.run w = (.ok (.value v rest), w'))) ∧
      ((w'.scope id).maxHops < k → Overflows id w s w' s'.frames t rest)) ∧
    ((w'.scope id).Circles t → Overflows id w s w' s'.frames t rest) := by
  refine ⟨fun k v hleads hv ↦ ⟨fun hk ↦ ?_, fun hk ↦ ?_⟩, fun hcircles ↦ ?_⟩
  · obtain ⟨bound, steps, hrun⟩ := exists_run_of_leads harrives hfresh hleads hk
    refine ⟨⟨bound, steps, hrun⟩, fun hframes ↦ ⟨bound + steps + 1, fun fuel hfuel ↦ ?_⟩⟩
    obtain ⟨more, rfl⟩ := Nat.exists_eq_add_of_le' (show steps + 1 ≤ fuel by omega)
    rw [show more + (steps + 1) = more + 1 + steps by omega, hrun _ (by omega), hframes]
    exact run_value hv rest k more id w'
  · obtain ⟨name, hname, hisName⟩ := hleads.exists_name hk
    exact overflows_of_leads harrives hfresh hname hisName
  · obtain ⟨name, hname, hisName⟩ := hcircles.exists_name (w'.scope id).maxHops
    exact overflows_of_leads harrives hfresh hname hisName

/-- A world with a limit of two hops, in which `a` stands for `b`, `b` for `c` and `c` for four. -/
def aliases : World where
  scopes := #[(((Scope.empty "" false 2).push "a" (.symbol "b" none)).push "b"
    (.symbol "c" none)).push "c" (.stable (.int 4))]
  output := ""
  generator := ⟨0⟩
  nextRef := 0

theorem get?_aliases (name : String) : (aliases.scope 0).get? name = StackMap.Plain.get?
    [("a", .symbol "b" none), ("b", .symbol "c" none), ("c", .stable (.int 4))] name := by
  have hstore : (aliases.scope 0).store =
      (((StackMap.new 256).push "a" (.symbol "b" none)).push "b" (.symbol "c" none)).push "c"
        (.stable (.int 4)) := rfl
  rw [Scope.get?, hstore, StackMap.get?_eq_toList, StackMap.toList_push, StackMap.toList_push,
    StackMap.toList_push]
  rfl

/-- Inside a list and behind another name, `b` is resolved and `a` is one hop too far. -/
theorem hops_exact_aliases :
    (∃ bound steps, ∀ fuel ≥ bound, (run (fuel + steps) 0
        (.start [.opening "[" "" none, .symbol "c" none, .symbol "b" none])).run.run aliases =
      (run fuel 0 ⟨[⟨.opening "[" "" none, [.stable (.int 4)], []⟩],
        [.stable (.int 4)], 2⟩).run.run aliases) ∧
    Overflows 0 aliases (.start [.opening "[" "" none, .symbol "c" none, .symbol "a" none]) aliases
      [⟨.opening "[" "" none, [.stable (.int 4)], []⟩] (.symbol "a" none) [] := by
  have ha : (aliases.scope 0).get? "a" = some (.symbol "b" none) := get?_aliases "a"
  have hb : (aliases.scope 0).get? "b" = some (.symbol "c" none) := get?_aliases "b"
  have hc : (aliases.scope 0).get? "c" = some (.stable (.int 4)) := get?_aliases "c"
  have harrives : ∀ name, Arrives 0 [.symbol name none] aliases
      (.start [.opening "[" "" none, .symbol "c" none, .symbol name none]) aliases
      ⟨[⟨.opening "[" "" none, [.stable (.int 4)], []⟩], [.symbol name none], 0⟩ := by
    intro name
    refine .step 0 rfl rfl ⟨[.symbol "c" none], rfl⟩ ?_
    refine .lookup rfl hc (by decide) ⟨[], rfl⟩ ?_
    refine .step 0 rfl rfl ⟨[], rfl⟩ ?_
    exact .here _ _ _
  have hleads : (aliases.scope 0).Leads 2 (.symbol "b" none) (.stable (.int 4)) :=
    .hop rfl hb (.hop rfl hc (.here _))
  constructor
  · obtain ⟨hchain, -⟩ := hops_exact (harrives "b") fun h ↦ by cases h
    exact ((hchain 2 _ hleads rfl).1 (le_refl 2)).1
  · obtain ⟨hchain, -⟩ := hops_exact (harrives "a") fun h ↦ by cases h
    exact (hchain 3 _ (.hop rfl ha hleads) rfl).2 (by decide)

end Scan

end TokenLang

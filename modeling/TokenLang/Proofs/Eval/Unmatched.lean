import TokenLang.Proofs.Eval.Wary

/-!
Brackets that close each other and are reported all the same. The wary scan (`Scan.runWary`) takes
the steps of the scan, in evaluations within evaluations too, but breaks off with an alarm before a
step that tears brackets apart (`Scan.tears`): one that lets a marker act which has more markers
after it and then a closing bracket, or one that closes a region which hands a bracket to a call as
an argument, or which becomes tokens that are not well nested or hold such tokens. Unless it breaks
off, it ends as the scan does, and does not fail over a bracket (`Scan.runWary_tied`). So the
evaluation of a text whose brackets close each other reports one of them only if it tears brackets
apart (`Program.tears_of_unmatched`). That happens: markers in front of a closing bracket are taken
for a form without an end, and methods hand out single tokens of a quote or a map, of which one may
be a bracket (`Program.misreports_several`).
-/

set_option autoImplicit false
set_option relaxedAutoImplicit false

namespace TokenLang

open Token (Seals Single)

/-! ### The wary scan -/

/-- Whether a marker has more markers after it and then a closing bracket. Right before one it
vanishes. -/
def Envoy.dangles (isMarker : Token → Bool) : Envoy → List Token → Bool
  | .quote, t :: rest => !t.isClosing && Form.runsInto isMarker (t :: rest)
  | .unquote, t :: rest => !t.isClosing && Form.runsInto isMarker (t :: rest)
  | _, _ => false

/-- Whether a region that closes hands a bracket to a call, or becomes tokens that are not well
nested or that hold tokens which are not. -/
def Evaluator.tears (ev : Evaluator) (fuel : Nat) (id : ScopeId) (opening : Token)
    (inside : List Token) (w : World) : Bool :=
  let s := w.scope id
  ((s.varying? opening.mode).or (s.varying? opening.bracket) == some .call &&
      inside.any Token.isDelimiter) ||
    match (ev.close fuel id opening inside).outcome w with
    | .ok placed => !(Token.nested [] placed && placed.all Token.isWhole)
    | .error _ => false

namespace Scan

/-- Whether the next step tears brackets apart. -/
def tears (ev : Evaluator) (fuel : Nat) (id : ScopeId) (s : Scan) (w : World) : Bool :=
  match s.frames, s.rest with
  | _, .envoy e _ :: rest => e.dangles (w.scope id).isMarker rest
  | f :: _, t :: _ => t.isClosing && ev.tears fuel id f.opening f.passed.reverse w
  | _, _ => false

/-- The scan that breaks off with an alarm before a step that tears brackets apart, however deep in
evaluations within evaluations. -/
def runWary (alarm : Stop) : Nat → ScopeId → Scan → EvalM Reduction
  | 0, _, _ => throw .exhausted
  | fuel + 1, id, s => do
    let ev : Evaluator := fun scope tokens ↦ runWary alarm fuel scope (start tokens)
    if s.tears ev fuel id (← get) then throw alarm
    else
      match ← s.advance ev fuel id with
      | .more s => runWary alarm fuel id s
      | .over r => return r

theorem runWary_succ (alarm : Stop) (fuel : Nat) (id : ScopeId) (s : Scan) (w : World) :
    (runWary alarm (fuel + 1) id s).run.run w =
      (if s.tears (fun scope tokens ↦ runWary alarm fuel scope (start tokens)) fuel id w then
          throw alarm
        else do
          match ← s.advance (fun scope tokens ↦ runWary alarm fuel scope (start tokens)) fuel
            id with
          | .more s => runWary alarm fuel id s
          | .over r => return r : EvalM Reduction).run.run w := rfl

end Scan

/-- Reductions to intact tokens, or to a failure that is not over a bracket. -/
def Reduction.Sealed : Reduction → Prop
  | .value t rest => t.Single ∧ Seals [] rest
  | .nothing => True
  | .failed f _ => f.Matched

/-- A wary evaluator and the one it follows. -/
def Evaluator.TiedTo (alarm : Stop) (ev ev' : Evaluator) : Prop :=
  ∀ id tokens, Seals [] tokens → Tied alarm Reduction.Sealed (ev id tokens) (ev' id tokens)

section Parts

variable {alarm : Stop} {ev ev' : Evaluator} (hev : ev.TiedTo alarm ev') (fuel : Nat)
  (id : ScopeId) {w : World}

include hev

/-! ### Forms and rounds of evaluation -/

omit hev in
/-- A token and the arguments after it, which close the brackets of `stack`. -/
def NextAt (stack : List Token) (answer : Option Token × List Token) : Prop :=
  (∀ t, answer.1 = some t → t.Single) ∧ Seals stack answer.2

theorem next_tiedAt (hw : w.Intact) {stack args : List Token} (hargs : Seals stack args)
    (hmarkers : Form.runsInto (w.scope id).isMarker args = false) :
    TiedAt alarm w (NextAt stack) (ev.next id args) (ev'.next id args) := by
  cases args with
  | nil => exact .pure hw ⟨nofun, hargs⟩
  | cons t args =>
    refine (cut_tiedAt id hw hargs hmarkers).bind fun answer hcut ↦ ?_
    obtain ⟨form, rest⟩ := answer
    refine (hev id form hcut.2.1).bind fun r hr ↦ ?_
    cases r with
    | value u _ =>
      refine .pure ⟨fun v hv ↦ ?_, hcut.2.2⟩
      cases hv
      exact hr.1
    | nothing => exact .pure ⟨nofun, hcut.2.2⟩
    | failed f _ => exact .fail hr

theorem next_tied {args : List Token} (hargs : Seals [] args) :
    Tied alarm (NextAt []) (ev.next id args) (ev'.next id args) :=
  fun _ hw ↦ next_tiedAt hev id hw hargs (Form.runsInto_of_nested hargs.nested)

theorem collect_tied (rounds : Nat) {done tokens : List Token} (hdone : ∀ t ∈ done, t.Single)
    (htokens : Seals [] tokens) : Tied alarm
      (fun answer ↦ (∀ t ∈ answer.1, t.Single) ∧ ∀ f, answer.2 = some f → f.Matched)
      (ev.collect id rounds done tokens) (ev'.collect id rounds done tokens) := by
  induction rounds generalizing done tokens with
  | zero => exact .throw trivial
  | succ rounds ih =>
    have hreverse : ∀ t ∈ done.reverse, t.Single := fun t ht ↦ hdone t (List.mem_reverse.mp ht)
    refine (hev id tokens htokens).bind fun r hr ↦ ?_
    cases r with
    | value t rest => exact ih (List.forall_mem_cons.mpr ⟨hr.1, hdone⟩) hr.2
    | nothing => exact .pure ⟨hreverse, nofun⟩
    | failed f _ =>
      refine .pure ⟨hreverse, fun g hg ↦ ?_⟩
      cases hg
      exact hr

theorem reduce_tied {tokens : List Token} (htokens : Seals [] tokens) :
    Tied alarm (fun out ↦ ∀ t ∈ out, t.Single) (ev.reduce fuel id tokens)
      (ev'.reduce fuel id tokens) := by
  refine (collect_tied hev id fuel (List.forall_mem_nil _) htokens).bind
    fun answer hanswer ↦ ?_
  obtain ⟨out, failure⟩ := answer
  cases failure with
  | none => exact .pure hanswer.1
  | some f => exact .fail (hanswer.2 f rfl)

/-! ### Envoys -/

theorem unquoteNext_tiedAt (hw : w.Intact) {t : Token} {stack rest : List Token}
    (hrest : Seals stack (t :: rest))
    (hmarkers : Form.runsInto (w.scope id).isMarker (t :: rest) = false) :
    TiedAt alarm w (PlacedAt stack) (Envoy.unquoteNext ev id t rest)
      (Envoy.unquoteNext ev' id t rest) := by
  refine .scope ?_
  split_ifs with hsymbol
  · split
    · rename_i bound hget
      have ht := Token.isDelimiter_of_isSymbol (Bool.and_eq_true_iff.mp hsymbol).1
      exact .pure hw ⟨(hw.get? hget).unwrapped, hrest.tail ht⟩
    · exact .pure hw ⟨Token.seals_nil, hrest⟩
  · refine (next_tiedAt hev id hw hrest hmarkers).bind fun answer hanswer ↦ ?_
    rcases answer with ⟨_ | v, rest⟩
    · exact .pure ⟨Token.seals_nil, hanswer.2⟩
    · exact .pure ⟨(hanswer.1 v rfl).unwrapped, hanswer.2⟩

theorem envoy_tiedAt (hw : w.Intact) {e : Envoy} {ref : Ref} (he : (Token.envoy e ref).Intact)
    {stack after : List Token} (hafter : Seals stack after)
    (hdangles : e.dangles (w.scope id).isMarker after = false) :
    TiedAt alarm w (PlacedAt stack) (e.apply ev fuel id after) (e.apply ev' fuel id after) := by
  unfold Envoy.apply
  split
  · exact .pure hw ⟨he.envoy rfl, hafter⟩
  · rename_i key held
    have hrun : Tied alarm (Seals []) (Envoy.ofHost ev fuel id key held)
        (Envoy.ofHost ev' fuel id key held) := .host (usual_envoy_tied fuel id key (he.envoy rfl))
    exact (hrun w hw).bind fun placed hplaced ↦ .pure ⟨hplaced, hafter⟩
  · exact (reduce_tied hev fuel _ (he.body rfl) w hw).bind fun out hout ↦
      .pure ⟨seals_splicedLast hout, hafter⟩
  · split_ifs with hclosing
    · exact .pure hw ⟨Token.seals_nil, hafter⟩
    · exact quoteNext_tiedAt id hw hafter (by simpa [Envoy.dangles, hclosing] using hdangles)
  · split_ifs with hclosing
    · exact .pure hw ⟨Token.seals_nil, hafter⟩
    · exact unquoteNext_tiedAt hev id hw hafter
        (by simpa [Envoy.dangles, hclosing] using hdangles)
  · exact .pure hw ⟨Token.seals_nil, hafter⟩
  · exact .pure hw ⟨Token.seals_nil, hafter⟩

/-- Where no bracket is open, no marker runs into a closing one. -/
theorem envoy_tied {e : Envoy} {ref : Ref} (he : (Token.envoy e ref).Intact) {after : List Token}
    (hafter : Seals [] after) :
    Tied alarm (PlacedAt []) (e.apply ev fuel id after) (e.apply ev' fuel id after) := by
  refine fun w hw ↦ envoy_tiedAt hev fuel id hw he hafter ?_
  have hmarkers : Form.runsInto (w.scope id).isMarker after = false :=
    Form.runsInto_of_nested hafter.nested
  unfold Envoy.dangles
  split
  · rw [hmarkers, Bool.and_false]
  · rw [hmarkers, Bool.and_false]
  · rfl

/-! ### Special forms -/

theorem nameFrom_tied (hops : Nat) {args : List Token} (hargs : Seals [] args) :
    Tied alarm (fun answer ↦ Seals [] answer.2) (SpecialForm.nameFrom ev fuel id hops args)
      (SpecialForm.nameFrom ev' fuel id hops args) := by
  induction hops generalizing args with
  | zero => exact .failWith nofun
  | succ hops ih =>
    cases args with
    | nil => exact .failWith nofun
    | cons t rest =>
      refine .scope fun s _ ↦ ?_
      split
      · rename_i e he
        obtain ⟨ht, ref, hintact⟩ := intact_of_pendingEnvoy? he hargs.head
        refine (envoy_tied hev fuel id hintact (hargs.tail ht)).bind fun answer hanswer ↦ ?_
        exact ih (hanswer.1.append hanswer.2)
      · exact (nameOf_tied t).bind fun _ ht ↦ .pure (hargs.tail ht)

theorem takeName_tied {args : List Token} (hargs : Seals [] args) :
    Tied alarm (fun answer ↦ Seals [] answer.2) (SpecialForm.takeName ev fuel id args)
      (SpecialForm.takeName ev' fuel id args) :=
  .scope fun _ _ ↦ nameFrom_tied hev fuel id _ hargs

theorem takeBinding_tied {args : List Token} (hargs : Seals [] args) :
    Tied alarm (fun answer ↦ answer.2.Single) (SpecialForm.takeBinding ev fuel id args)
      (SpecialForm.takeBinding ev' fuel id args) :=
  (takeName_tied hev fuel id hargs).bind fun _ hrest ↦ (next_tied hev id hrest).bind fun _ hv ↦
    .pure (Single.getD hv.1 Token.single_null)

theorem adjust_tied (halarm : alarm.isFinal = true) (op : ArithOp) {args : List Token}
    (hargs : Seals [] args) : Tied alarm (fun placed ↦ ∀ t ∈ placed, t.Single)
      (SpecialForm.adjust ev fuel id op args) (SpecialForm.adjust ev' fuel id op args) := by
  refine (takeName_tied hev fuel id hargs).bind fun answer hrest ↦ ?_
  obtain ⟨name, rest⟩ := answer
  refine .scope fun s _ ↦ ?_
  dsimp only
  split
  · refine (next_tied hev id hrest).bind fun answer _ ↦ .scope fun s _ w hw ↦ ?_
    refine TiedAt.bind (P := fun _ ↦ True) ?_ fun n _ ↦ (Tied.numberToken n).bind fun t ht ↦
      (rebind_tied id name ht).bind fun _ _ ↦ .pure (List.forall_mem_singleton.mpr ht)
    exact .locating halarm _ (Tied.plain (answers_fold _ _ (.inr trivial)) w hw)
  · rename_i cause hpeek
    refine .failWith_bind ?_
    unfold Scope.peek at hpeek
    split at hpeek
    · cases hpeek
    · cases hpeek
      exact nofun

theorem branch_tied {args : List Token} (hargs : Seals [] args) :
    Tied alarm (fun placed ↦ ∀ t ∈ placed, t.Single) (SpecialForm.branch ev id args)
      (SpecialForm.branch ev' id args) := by
  refine (next_tied hev id hargs).bind fun answer hanswer ↦ ?_
  rcases answer with ⟨_ | condition, rest⟩
  · exact .pure (List.forall_mem_singleton.mpr Token.single_null)
  · refine (Tied.payload condition).bind fun v _ ↦ ?_
    have htake : ∀ taken, Seals [] taken → Tied alarm (fun placed ↦ ∀ t ∈ placed, t.Single)
        (do return [(← ev.next id taken).1.getD .null])
        (do return [(← ev'.next id taken).1.getD .null]) := fun taken htaken ↦
      (next_tied hev id htaken).bind fun _ hv ↦
        .pure (List.forall_mem_singleton.mpr (Single.getD hv.1 Token.single_null))
    dsimp only
    split_ifs
    · exact htake rest hanswer.2
    · refine Tied.bind (P := Seals []) ?_ htake
      rw [map_eq_pure_bind]
      exact (cut_tied id hanswer.2).bind fun _ hcut ↦ .pure hcut.2.2

theorem untilTruth_tied (stop : Bool) (forms : Nat) {last : Token} (hlast : last.Single)
    {args : List Token} (hargs : Seals [] args) : Tied alarm (fun placed ↦ ∀ t ∈ placed, t.Single)
      (SpecialForm.untilTruth ev id stop forms last args)
      (SpecialForm.untilTruth ev' id stop forms last args) := by
  induction forms generalizing last args with
  | zero => exact .pure (List.forall_mem_singleton.mpr hlast)
  | succ forms ih =>
    refine (next_tied hev id hargs).bind fun answer hanswer ↦ ?_
    rcases answer with ⟨_ | t, rest⟩
    · exact .pure (List.forall_mem_singleton.mpr hlast)
    · have ht : t.Single := hanswer.1 t rfl
      refine (Tied.payload t).bind fun v _ ↦ ?_
      split_ifs
      · exact .pure (List.forall_mem_singleton.mpr ht)
      · exact ih ht hanswer.2

/-- One more round of a loop, put in front of those before. -/
theorem round_tied {body done : List Token} (hbody : Seals [] body)
    (hdone : ∀ t ∈ done, t.Single) {f g : List Token → EvalM (List Token)}
    (hf : ∀ done, (∀ t ∈ done, t.Single) →
      Tied alarm (fun placed ↦ ∀ t ∈ placed, t.Single) (f done) (g done)) :
    Tied alarm (fun placed ↦ ∀ t ∈ placed, t.Single)
      (do f ((← ev.reduce fuel id body).reverse ++ done))
      (do g ((← ev'.reduce fuel id body).reverse ++ done)) :=
  (reduce_tied hev fuel id hbody).bind fun _ hout ↦ hf _ (List.forall_mem_append.mpr
    ⟨fun t ht ↦ hout t (List.mem_reverse.mp ht), hdone⟩)

theorem whileLoop_tied {condition body : List Token} (hcondition : Seals [] condition)
    (hbody : Seals [] body) (rounds : Nat) {done : List Token} (hdone : ∀ t ∈ done, t.Single) :
    Tied alarm (fun placed ↦ ∀ t ∈ placed, t.Single)
      (SpecialForm.whileLoop ev fuel id condition body rounds done)
      (SpecialForm.whileLoop ev' fuel id condition body rounds done) := by
  induction rounds generalizing done with
  | zero => exact .throw trivial
  | succ rounds ih =>
    have hreverse : ∀ t ∈ done.reverse, t.Single := fun t ht ↦ hdone t (List.mem_reverse.mp ht)
    refine (next_tied hev id hcondition).bind fun answer _ ↦ ?_
    rcases answer with ⟨_ | t, rest⟩
    · exact .pure hreverse
    · refine (Tied.payload t).bind fun v _ ↦ ?_
      split_ifs
      · exact round_tied hev fuel id hbody hdone fun _ h ↦ ih h
      · exact .pure hreverse

theorem repeatLoop_tied {body : List Token} (hbody : Seals [] body) (rounds : Nat)
    {done : List Token} (hdone : ∀ t ∈ done, t.Single) :
    Tied alarm (fun placed ↦ ∀ t ∈ placed, t.Single)
      (SpecialForm.repeatLoop ev fuel id body rounds done)
      (SpecialForm.repeatLoop ev' fuel id body rounds done) := by
  induction rounds generalizing done with
  | zero => exact .pure fun t ht ↦ hdone t (List.mem_reverse.mp ht)
  | succ rounds ih => exact round_tied hev fuel id hbody hdone fun _ h ↦ ih h

theorem bindRecursive_tied {make : String → ScopeId → List String → List Token → Ref → Value}
    (hmake : ∀ name scope params body ref, Seals [] body →
      (Token.stable (make name scope params body ref)).Single)
    {args : List Token} (hargs : Seals [] args) :
    Tied alarm (fun placed ↦ ∀ t ∈ placed, t.Single)
      (SpecialForm.bindRecursive ev fuel id make args)
      (SpecialForm.bindRecursive ev' fuel id make args) := by
  refine (takeName_tied hev fuel id hargs).bind fun answer hrest ↦ ?_
  refine (takeParams_tied id hrest).bind fun answer hbody ↦ ?_
  refine (captured_tied id _ fun scope ref ↦ hmake _ scope _ _ ref hbody).bind fun t ht ↦ ?_
  exact (bind_tied id _ ht).bind fun _ _ ↦ .pure (List.forall_mem_nil _)

theorem makeMutant_tied {args : List Token} (hargs : Seals [] args) :
    Tied alarm (fun placed ↦ ∀ t ∈ placed, t.Single) (SpecialForm.makeMutant ev fuel id args)
      (SpecialForm.makeMutant ev' fuel id args) := by
  refine (takeName_tied hev fuel id hargs).bind fun answer hbody ↦ ?_
  refine (Tied.derive id).bind fun scope _ ↦ Tied.freshRef.bind fun ref _ ↦ ?_
  have ht : (Token.envoy (.mutant answer.1 scope answer.2) ref).Single :=
    ⟨Token.intact_of_seals rfl hbody, rfl⟩
  exact (bind_tied id _ ht).bind fun _ _ ↦ .pure (List.forall_mem_nil _)

/-- One case for each special form; all that they place are single tokens. -/
theorem special_tied (halarm : alarm.isFinal = true) (form : SpecialForm) {args : List Token}
    (hargs : Seals [] args) : Tied alarm (fun placed ↦ ∀ t ∈ placed, t.Single)
      (form.expand ev fuel id args) (form.expand ev' fuel id args) := by
  have hnone : ∀ t ∈ ([] : List Token), t.Single := List.forall_mem_nil _
  have hbool : ∀ b, (Token.stable (.bool b)).Single := fun _ ↦ Token.single_plain rfl rfl _
  cases form with
  | define =>
    exact (takeBinding_tied hev fuel id hargs).bind fun _ ht ↦ (bind_tied id _ ht).bind fun _ _ ↦
      .pure hnone
  | assign =>
    exact (takeBinding_tied hev fuel id hargs).bind fun _ ht ↦
      (rebind_tied id _ ht).bind fun _ _ ↦ .pure (List.forall_mem_singleton.mpr ht)
  | increment => exact adjust_tied hev fuel id halarm .add hargs
  | decrement => exact adjust_tied hev fuel id halarm .sub hargs
  | choose => exact branch_tied hev id hargs
  | and => exact untilTruth_tied hev id false _ (hbool true) hargs
  | or => exact untilTruth_tied hev id true _ (hbool false) hargs
  | loop =>
    unfold SpecialForm.expand
    dsimp only
    split_ifs
    · exact .failWith nofun
    · exact (cut_tied id hargs).bind fun _ hcut ↦
        whileLoop_tied hev fuel id hcut.2.1 hcut.2.2 fuel hnone
  | times =>
    refine (next_tied hev id hargs).bind fun answer hanswer ↦ ?_
    rcases answer with ⟨_ | t, body⟩
    · exact .failWith nofun
    · exact (Tied.payload t).bind fun v _ ↦ repeatLoop_tied hev fuel id hanswer.2 _ hnone
  | lambda => exact makeLambda_tied id hargs
  | defineFunction =>
    unfold SpecialForm.expand
    refine bindRecursive_tied hev fuel id (fun name scope params body ref hbody ↦ ?_) hargs
    exact single_closure hbody name scope params ref
  | defineExpander =>
    unfold SpecialForm.expand
    refine bindRecursive_tied hev fuel id (fun name scope params body ref hbody ↦ ?_) hargs
    exact ⟨Token.intact_of_seals rfl hbody, rfl⟩
  | defineMutant => exact makeMutant_tied hev fuel id hargs

/-! ### Calls -/

/-- The body of a call, with its parameters unbound after it. -/
theorem body_tied (params : List String) {body : List Token} (hbody : Seals [] body) :
    Tied alarm (fun out ↦ ∀ t ∈ out, t.Single)
      (EvalM.ensuring (ev.reduce fuel id body) fun w ↦
        w.modifyScope id fun s ↦ s.unbindParams params)
      (EvalM.ensuring (ev'.reduce fuel id body) fun w ↦
        w.modifyScope id fun s ↦ s.unbindParams params) :=
  (reduce_tied hev fuel id hbody).ensuring id (Scope.rewrites_unbindParams params)

theorem callClosure_tied (f : Callable) (params : List String) {body args : List Token}
    (hbody : Seals [] body) (hargs : ∀ t ∈ args, t.Single) :
    Tied alarm (fun answer ↦ ∀ t ∈ answer, t.Single) (f.callClosure ev fuel id params body args)
      (f.callClosure ev' fuel id params body args) := by
  have hlist : ∀ rest, rest <:+ args → (Token.stable (.list rest)).Single := fun rest h ↦
    Token.single_done (v := .list rest) rfl
      (Token.seals_of_single fun t ht ↦ hargs t (h.subset ht)) _
  have hbind := Scope.rewrites_bindParams params hargs Token.single_null hlist
  refine .scope fun s _ ↦ ?_
  split_ifs
  · refine .failWith_bind ?_
    exact nofun
  · exact (Tied.modifyScope id hbind).bind fun _ _ ↦ (body_tied hev fuel id params hbody).bind
      fun out hout ↦ .pure fun t ht ↦ hout t (List.mem_of_getLast? ht)

theorem function_tied {f : Callable} {ref : Ref} {pos : Option Position}
    (hf : (Token.done (.function f ref) pos).Intact) {args : List Token}
    (hargs : ∀ t ∈ args, t.Single) : Tied alarm (fun answer ↦ ∀ t ∈ answer, t.Single)
      (f.apply ev fuel id args) (f.apply ev' fuel id args) := by
  unfold Callable.apply
  split
  · exact callArith_tied id _ args
  · exact (Tied.plain (answers_test _ (.inr trivial))).bind fun _ _ ↦ bool_tied _
  · exact callPrimitive_tied _ args
  · rename_i hcore
    exact callClosure_tied hev fuel _ _ _ (hf.body (Callable.captor?_of_core hcore)) hargs
  · exact .host (usual_function_tied fuel id _ args)
  · exact .pure forall_mem_none

theorem expandTemplate_tied (m : Expander) (caller : ScopeId) (params : List String)
    {body args : List Token} (hbody : Seals [] body) (hargs : Seals [] args) :
    Tied alarm (Seals []) (m.expandTemplate ev fuel caller id params body args)
      (m.expandTemplate ev' fuel caller id params body args) := by
  refine (cutAll_tied caller hargs).bind fun forms hforms ↦ .scope fun s _ ↦ ?_
  split_ifs
  · refine .failWith_bind ?_
    exact nofun
  · exact (bindAll_tied id caller params fun form hform ↦ (hforms form hform).2).bind fun _ _ ↦
      (body_tied hev fuel id params hbody).bind fun out hout ↦ .pure (seals_splicedLast hout)

theorem expander_tied (halarm : alarm.isFinal = true) {m : Expander} {ref : Ref}
    {pos : Option Position} (hm : (Token.done (.expander m ref) pos).Intact) {args : List Token}
    (hargs : Seals [] args) : Tied alarm (fun placed ↦ ∀ t ∈ placed, t.Intact)
      (m.expand ev fuel id args) (m.expand ev' fuel id args) := by
  unfold Expander.expand
  split
  · exact (special_tied hev fuel id halarm _ hargs).mono fun _ h t ht ↦ (h t ht).intact
  · exact (expandTemplate_tied hev fuel _ _ id _ (hm.body rfl) hargs).mono fun _ h ↦ h.intact
  · exact .host ((usual_expander_tied fuel id _ hargs).mono fun _ h ↦ h.intact)

theorem call_tied (halarm : alarm.isFinal = true) {callee : Token} (hcallee : callee.Intact)
    {args : List Token} (hargs : Handed callee args) :
    Tied alarm AllHold (ev.call fuel id callee args) (ev'.call fuel id callee args) := by
  unfold Evaluator.call
  split
  · exact (function_tied hev fuel id hcallee (hargs.2 nofun)).bind fun answer h ↦
      .pure fun t ht ↦ (h t (Option.mem_toList.mp ht)).intact.parts
  · exact (expander_tied hev fuel id halarm hcallee hargs.1).mono fun _ h t ht ↦ (h t ht).parts
  · exact .pure hcallee.allHold
  · rename_i first rest hnot hnot' 
    have hkind : callee.kind ≠ .expander := by
      intro hkind
      cases callee <;> simp_all [Token.kind]
    exact callMethod_tied fuel id hcallee (List.forall_mem_cons.mp (hargs.2 hkind)).2

/-! ### Regions -/

theorem applyQuotedCall_tied (halarm : alarm.isFinal = true) {form : List Token}
    (hform : Seals [] form) : Tied alarm AllHold (Varying.applyQuotedCall ev fuel id form)
      (Varying.applyQuotedCall ev' fuel id form) := by
  cases form with
  | nil => exact .pure allHold_nil
  | cons t form =>
    refine (next_tied hev id hform).bind fun answer hanswer ↦ ?_
    rcases answer with ⟨_ | callee, args⟩
    · exact .pure allHold_nil
    · exact (asWritten_tied id callee hanswer.2).bind fun args hargs ↦
        call_tied hev fuel id halarm (hanswer.1 callee rfl).intact hargs

/-- One case for each meaning of a bracket; a call in parentheses asks that its region holds no
bracket. -/
theorem varying_tied (halarm : alarm.isFinal = true) (v : Varying) {r : Region}
    (hr : Seals [] r.inside) (hcall : v = .call → ∀ t ∈ r.inside, t.isDelimiter = false) :
    Tied alarm AllHold (v.apply ev fuel id r) (v.apply ev' fuel id r) := by
  cases v with
  | call =>
    unfold Varying.apply Varying.applyCall
    dsimp only
    split
    · exact .pure allHold_nil
    · rename_i callee args hinside
      have hsingle : ∀ t ∈ callee :: args, t.Single :=
        hinside ▸ fun t ht ↦ ⟨hr.intact t ht, hcall rfl t ht⟩
      obtain ⟨hcallee, hargs⟩ := List.forall_mem_cons.mp hsingle
      exact call_tied hev fuel id halarm hcallee.intact
        ⟨Token.seals_of_single hargs, fun _ ↦ hargs⟩
  | quotedCall => exact applyQuotedCall_tied hev fuel id halarm hr
  | list => exact .pure (List.forall_mem_singleton.mpr (holdsIntact_stable rfl hr.intact))
  | map =>
    have hempty : ∀ t ∈ Entry.flatten [], t.Intact := List.forall_mem_nil _
    refine (Tied.ofExcept (answers_putAll [] (.inr trivial)) fun _ h ↦
      Method.forall_mem_putAll h Token.single_null.intact hempty hr.intact).bind fun _ h ↦ ?_
    exact .pure (List.forall_mem_singleton.mpr (holdsIntact_stable rfl h))
  | set =>
    have hempty : ∀ t ∈ ([] : List Token), t.Intact := List.forall_mem_nil _
    refine (Tied.ofExcept (answers_addMembers [] (.inr trivial)) fun _ h ↦
      Token.forall_addMembers hempty hr.intact h).bind fun _ h ↦ ?_
    exact .pure (List.forall_mem_singleton.mpr (holdsIntact_stable rfl h))
  | infixForm => exact applyInfix_tied id hr.intact
  | sym => exact (applySym_tied _).mono fun _ h t ht ↦ (h t ht).intact.parts
  | host key =>
    exact .host ((usual_varying_tied fuel id key hr.intact).mono fun _ h t ht ↦ (h t ht).parts)

/-- What a region becomes, unless it tears brackets apart. -/
theorem close_tiedAt (halarm : alarm.isFinal = true) (hw : w.Intact) (opening : Token)
    {inside : List Token} (hinside : Seals [] inside)
    (htears : ev.tears fuel id opening inside w = false) :
    TiedAt alarm w (Seals []) (ev.close fuel id opening inside)
      (ev'.close fuel id opening inside) := by
  obtain ⟨hargs, hplaced⟩ := Bool.or_eq_false_iff.mp htears
  have hholds : TiedAt alarm w AllHold (ev.close fuel id opening inside)
      (ev'.close fuel id opening inside) := by
    refine .scope ?_
    split
    · rename_i v hv
      refine .blaming halarm opening (.locating halarm _ ?_)
      refine varying_tied hev fuel id halarm v (r := .bracketed opening inside) hinside
        (fun hcall t ht ↦ ?_) w hw
      rw [hv, hcall, beq_self_eq_true, Bool.true_and] at hargs
      exact Bool.eq_false_iff.mpr (List.any_eq_false.mp hargs t ht)
    · exact .pure hw fun t ht ↦ (hinside.intact t ht).parts
  refine hholds.mono' fun placed hout hall ↦ ?_
  rw [hout] at hplaced
  obtain ⟨hnested, hwhole⟩ : Token.nested [] placed = true ∧ ∀ t ∈ placed, t.isWhole = true := by
    simpa using hplaced
  exact ⟨hnested, fun t ht ↦ t.intact_iff.mpr ⟨hwhole t ht, hall t ht⟩⟩

omit hev in
/-- A quoted text holds no brackets. -/
theorem varying_literal_tied (v : Varying) (t : Token) :
    Tied alarm (fun placed ↦ ∀ t ∈ placed, t.Single) (v.apply ev fuel id (.single t))
      (v.apply ev' fuel id (.single t)) := by
  have hnone : ∀ t ∈ ([] : List Token), t.Single := List.forall_mem_nil _
  cases v with
  | call | quotedCall | infixForm => exact .pure hnone
  | list | map | set =>
    exact .pure (List.forall_mem_singleton.mpr ⟨Token.intact_of_parts rfl, rfl⟩)
  | host key =>
    refine .host ?_
    dsimp only [Host.usual]
    split
    · exact .pure (List.forall_mem_singleton.mpr ⟨Token.intact_of_parts rfl, rfl⟩)
    · exact .pure hnone
    · exact .pure hnone
  | sym => exact applySym_tied t

omit hev in
theorem closeLiteral_tied (t : Token) : Tied alarm (Seals []) (ev.closeLiteral fuel id t)
    (ev'.closeLiteral fuel id t) := by
  refine .scope fun s _ ↦ ?_
  split
  · exact (varying_literal_tied fuel id _ t).mono fun _ ↦ Token.seals_of_single
  · exact .pure (Token.single_plain rfl rfl _).seals

theorem act_tiedAt (hw : w.Intact) {t : Token} (ht : t.Intact) {stack rest : List Token}
    (hrest : Seals stack rest)
    (hdangles : ∀ e ref, t = .envoy e ref → e.dangles (w.scope id).isMarker rest = false) :
    TiedAt alarm w (PlacedAt stack) (ev.act fuel id t rest) (ev'.act fuel id t rest) := by
  unfold Evaluator.act
  split
  · exact envoy_tiedAt hev fuel id hw ht hrest (hdangles _ _ rfl)
  · exact (closeLiteral_tied fuel id _ w hw).bind fun _ hplaced ↦ .pure ⟨hplaced, hrest⟩
  · exact (resolve_tied id t w hw).bind fun _ hplaced ↦ .pure ⟨hplaced.seals, hrest⟩

end Parts

/-! ### The scan -/

/-- Open brackets with intact tokens after them, which leave open what is kept as `inner`. -/
structure Frame.Sealed (f : Frame) : Prop where
  intact : ∀ t ∈ f.passed, t.Intact
  inner : ∀ stack rest,
    Token.nested stack (f.passed.reverse ++ rest) = Token.nested (f.inner ++ stack) rest

namespace Frame

theorem sealed_start (opening : Token) : (start opening).Sealed :=
  ⟨List.forall_mem_nil _, fun _ _ ↦ rfl⟩

/-- Passing a token that is no bracket. -/
theorem Sealed.pass {opening t : Token} {passed inner : List Token}
    (h : Sealed ⟨opening, passed, inner⟩) (ht : t.Intact) (hplain : t.isDelimiter = false) :
    Sealed ⟨opening, t :: passed, inner⟩ := by
  refine ⟨List.forall_mem_cons.mpr ⟨ht, h.intact⟩, fun stack rest ↦ ?_⟩
  rw [List.reverse_cons, List.append_assoc, List.singleton_append, h.inner,
    Token.nested_of_not_isDelimiter hplain]

/-- Behind a quoting bracket tokens are passed as they stand, and the frame stays sealed. -/
theorem sealed_passQuoted (opening : Token) {passed inner rest : List Token}
    (h : Sealed ⟨opening, passed, inner⟩) (hrest : ∀ t ∈ rest, t.Intact) :
    (passQuoted opening passed inner rest).1.Sealed ∧
      ∀ t ∈ (passQuoted opening passed inner rest).2, t.Intact := by
  fun_induction passQuoted opening passed inner rest with
  | case1 => exact ⟨h, hrest⟩
  | case2 passed inner t rest hplain ih =>
    obtain ⟨ht, hrest⟩ := List.forall_mem_cons.mp hrest
    exact ih (h.pass ht (by simpa using hplain)) hrest
  | case3 passed inner t rest hplain hopens ih =>
    obtain ⟨ht, hrest⟩ := List.forall_mem_cons.mp hrest
    refine ih ⟨List.forall_mem_cons.mpr ⟨ht, h.intact⟩, fun stack rest ↦ ?_⟩ hrest
    rw [List.reverse_cons, List.append_assoc, List.singleton_append, h.inner, Token.nested_cons,
      if_neg hplain, if_pos hopens]
    rfl
  | case4 passed t rest hplain hopens top others hmatch ih =>
    obtain ⟨ht, hrest⟩ := List.forall_mem_cons.mp hrest
    refine ih ⟨List.forall_mem_cons.mpr ⟨ht, h.intact⟩, fun stack rest ↦ ?_⟩ hrest
    rw [List.reverse_cons, List.append_assoc, List.singleton_append, h.inner, Token.nested_cons,
      if_neg hplain, if_neg hopens]
    simp [hmatch]
  | case5 => exact ⟨h, hrest⟩
  | case6 => exact ⟨h, hrest⟩

/-- What a bracket encloses once no other is open inside it. -/
theorem Sealed.seals {f : Frame} (h : f.Sealed) (hinner : f.inner = []) :
    Seals [] f.passed.reverse := by
  refine ⟨?_, fun t ht ↦ h.intact t (List.mem_reverse.mp ht)⟩
  have hnested := h.inner [] []
  rw [List.append_nil, hinner] at hnested
  exact hnested

end Frame

namespace Scan

/-- Scans of intact tokens that close their brackets and those that are open. -/
structure Sealed (s : Scan) : Prop where
  settled : s.Settled
  nested : s.isNested = true
  frames : ∀ f ∈ s.frames, f.Sealed
  rest : ∀ t ∈ s.rest, t.Intact

theorem sealed_start {tokens : List Token} (h : Seals [] tokens) : (start tokens).Sealed :=
  ⟨settled_start tokens, h.nested, fun _ hf ↦ absurd hf List.not_mem_nil, h.intact⟩

/-- Steps to such a scan, or to its end. -/
def Progress.Sealed : Progress → Prop
  | .more s => s.Sealed
  | .over r => r.Sealed

/-- In a scan whose brackets close each other, a closing bracket closes the innermost one. -/
theorem exists_frame_of_isNested {s : Scan} {t : Token} {rest : List Token}
    (hrest : s.rest = t :: rest) (hdelimiter : t.isDelimiter = true) (hcloses : t.closes = true)
    (h : s.isNested = true) :
    ∃ f frames, s.frames = f :: frames ∧ f.innermost.closesWith t = true := by
  rw [isNested, hrest, Token.nested_cons, hdelimiter, hcloses] at h
  cases hframes : s.frames with
  | nil =>
    rw [hframes] at h
    cases h
  | cons f frames =>
    refine ⟨f, frames, rfl, ?_⟩
    rw [hframes] at h
    obtain ⟨opening, passed, inner⟩ := f
    cases inner <;> exact (Bool.and_eq_true_iff.mp h).1

section Steps

variable {alarm : Stop} (halarm : alarm.isFinal = true) {ev ev' : Evaluator}
  (hev : ev.TiedTo alarm ev') (fuel : Nat) (id : ScopeId) {w : World} (hw : w.Intact)
  {frames : List Frame} {t : Token} {rest : List Token} {hops : Nat}
  (hs : Sealed ⟨frames, t :: rest, hops⟩)

include hs in
/-- Passing an opening bracket keeps a scan sealed. -/
theorem sealed_openFrame (hdelimiter : t.isDelimiter = true) (hopens : t.closes = false) :
    (openFrame t rest frames).Sealed := by
  obtain ⟨ht, hrest⟩ := List.forall_mem_cons.mp hs.rest
  obtain ⟨s', hopen, hframes, hrest'⟩ : ∃ s', openFrame t rest frames = .more s' ∧
      (∀ f ∈ s'.frames, f.Sealed) ∧ ∀ t ∈ s'.rest, t.Intact := by
    unfold openFrame
    split_ifs
    · obtain ⟨hf, hleft⟩ := Frame.sealed_passQuoted t (Frame.sealed_start t) hrest
      exact ⟨_, rfl, List.forall_mem_cons.mpr ⟨hf, hs.frames⟩, hleft⟩
    · exact ⟨_, rfl, List.forall_mem_cons.mpr ⟨Frame.sealed_start t, hs.frames⟩, hrest⟩
  obtain ⟨hnested, hsettled⟩ := isNested_open hs.settled hdelimiter hopens hopen
  rw [hopen]
  exact ⟨hsettled, hnested.trans hs.nested, hframes, hrest'⟩

include hs in
theorem sealed_pass (hcomplete : t.isComplete = true) : (pass t rest frames).Sealed := by
  have hplain := Token.isDelimiter_of_isComplete hcomplete
  obtain ⟨ht, hrest⟩ := List.forall_mem_cons.mp hs.rest
  cases frames with
  | nil =>
    have hnested : Token.nested [] (t :: rest) = true := hs.nested
    exact ⟨⟨ht, hplain⟩, (Seals.mk hnested hs.rest).tail hplain⟩
  | cons f frames =>
    obtain ⟨hf, hothers⟩ := List.forall_mem_cons.mp hs.frames
    obtain ⟨hnested, hsettled⟩ := isNested_pass hs.settled hplain rfl
    exact ⟨hsettled, hnested.trans hs.nested,
      List.forall_mem_cons.mpr ⟨hf.pass ht hplain, hothers⟩, hrest⟩

include halarm

/-- A step that gives up when it fails. -/
theorem attempt_tiedAt {α : Type} {Q : α → Prop} {x y : EvalM α} (s : Scan)
    {k : Except Failure α → EvalM Progress} (hx : TiedAt alarm w Q x y)
    (herror : ∀ f, k (.error f) = s.giveUp f)
    (hok : ∀ a, Q a → Tied alarm Progress.Sealed (k (.ok a)) (k (.ok a))) :
    TiedAt alarm w Progress.Sealed (EvalM.attempt x >>= k) (EvalM.attempt y >>= k) := by
  refine (hx.attempt halarm).bind fun r hr ↦ ?_
  cases r with
  | ok a => exact hok a (hr.1 a rfl)
  | error f =>
    rw [herror]
    exact .pure (hr.2 f rfl)

include hev hw hs

/-- Closing a region that does not tear puts tokens in its place that close their own brackets. -/
theorem closeFrame_tiedAt (hdelimiter : t.isDelimiter = true) (hcloses : t.closes = true)
    (htears : tears ev fuel id ⟨frames, t :: rest, hops⟩ w = false) :
    TiedAt alarm w Progress.Sealed (closeFrame ev fuel id ⟨frames, t :: rest, hops⟩ t rest)
      (closeFrame ev' fuel id ⟨frames, t :: rest, hops⟩ t rest) := by
  obtain ⟨f, others, rfl, hmatch⟩ := exists_frame_of_isNested rfl hdelimiter hcloses hs.nested
  obtain ⟨hf, hothers⟩ := List.forall_mem_cons.mp hs.frames
  have hinner := hs.settled.inner_eq_nil rfl (.inr fun g hg ↦ by cases hg; exact hmatch)
  have hregion : ev.tears fuel id f.opening f.passed.reverse w = false := by
    have hclosing : t.isClosing = true := by simp [Token.isClosing, hdelimiter, hcloses]
    obtain ⟨bracket, pos, rfl⟩ : ∃ bracket pos, t = .closing bracket pos := by
      cases t <;> first | exact ⟨_, _, rfl⟩ | cases hcloses
    simpa [tears, hclosing] using htears
  unfold closeFrame
  dsimp only
  have hpartner : ¬(!f.innermost.closesWith t) = true := by simp [hmatch]
  rw [if_neg hpartner, if_neg hpartner]
  refine attempt_tiedAt halarm ⟨f :: others, t :: rest, hops⟩
    (close_tiedAt hev fuel id halarm hw f.opening
      (hf.seals (List.forall_mem_cons.mp hinner).1) hregion) (fun _ ↦ rfl) fun placed hplaced ↦ ?_
  obtain ⟨hnested, hsettled⟩ : isNested ⟨others, placed ++ rest, 0⟩ = _ ∧
      Settled ⟨others, placed ++ rest, 0⟩ :=
    isNested_close hs.settled hdelimiter hcloses hmatch hplaced.nested
  exact .pure ⟨hsettled, hnested.trans hs.nested, hothers, List.forall_mem_append.mpr
    ⟨hplaced.intact, (List.forall_mem_cons.mp hs.rest).2⟩⟩

/-- A pending token that does not tear takes away and places tokens that close their own
brackets. -/
theorem resolveFront_tiedAt (hplain : t.isDelimiter = false)
    (htears : tears ev fuel id ⟨frames, t :: rest, hops⟩ w = false) :
    TiedAt alarm w Progress.Sealed (resolveFront ev fuel id ⟨frames, t :: rest, hops⟩ t rest)
      (resolveFront ev' fuel id ⟨frames, t :: rest, hops⟩ t rest) := by
  obtain ⟨ht, hrest⟩ := List.forall_mem_cons.mp hs.rest
  have hnested : Token.nested (openings frames) rest = true :=
    (Token.nested_of_not_isDelimiter hplain _ rest).symm.trans hs.nested
  have hdangles : ∀ e ref, t = .envoy e ref → e.dangles (w.scope id).isMarker rest = false := by
    rintro e ref rfl
    cases frames <;> exact htears
  refine .scope ?_
  dsimp only
  split_ifs
  · exact .pure hw (show Cause.family _ ≠ _ from nofun)
  · refine attempt_tiedAt halarm ⟨frames, t :: rest, hops⟩
      (act_tiedAt hev fuel id hw ht ⟨hnested, hrest⟩ hdangles)
      (fun _ ↦ rfl) fun answer hanswer ↦ ?_
    obtain ⟨placed, after⟩ := answer
    have hinner := hs.settled.inner_eq_nil rfl (.inl (by simp [Token.isClosing, hplain]))
    refine .pure ⟨settled_of_inner hinner _ _, ?_, hs.frames,
      List.forall_mem_append.mpr ⟨hanswer.1.intact, hanswer.2.intact⟩⟩
    exact (Token.nested_append_nil hanswer.1.nested).trans hanswer.2.nested

end Steps

/-- A step of a sealed scan that does not tear leaves it sealed. -/
theorem advance_tiedAt {alarm : Stop} (halarm : alarm.isFinal = true) {ev ev' : Evaluator}
    (hev : ev.TiedTo alarm ev') (fuel : Nat) (id : ScopeId) {w : World} (hw : w.Intact) {s : Scan}
    (hs : s.Sealed) (htears : s.tears ev fuel id w = false) :
    TiedAt alarm w Progress.Sealed (s.advance ev fuel id) (s.advance ev' fuel id) := by
  obtain ⟨frames, rest, hops⟩ := s
  cases rest with
  | nil =>
    cases frames with
    | nil => exact .pure hw trivial
    | cons f frames =>
      have hnested := hs.nested
      simp [isNested, openings, Token.nested] at hnested
  | cons t rest =>
    simp only [advance]
    split_ifs with hdelimiter hcloses hcomplete
    · exact closeFrame_tiedAt halarm hev fuel id hw hs hdelimiter hcloses htears
    · exact .pure hw (sealed_openFrame hs hdelimiter (Bool.eq_false_iff.mpr hcloses))
    · exact .pure hw (sealed_pass hs hcomplete)
    · exact resolveFront_tiedAt halarm hev fuel id hw hs (Bool.eq_false_iff.mpr hdelimiter) htears

/-- Unless the wary scan breaks off, it ends as the scan does, and not with a bracket. -/
theorem runWary_tied {alarm : Stop} (halarm : alarm.isFinal = true) (bound : Nat) (id : ScopeId)
    {s : Scan} (hs : s.Sealed) :
    Tied alarm Reduction.Sealed (runWary alarm bound id s) (run bound id s) := by
  induction bound generalizing id s with
  | zero => exact .throw trivial
  | succ bound ih =>
    have hev : Evaluator.TiedTo alarm (fun scope tokens ↦ runWary alarm bound scope (start tokens))
        (fun scope tokens ↦ run bound scope (start tokens)) :=
      fun id tokens htokens ↦ ih id (sealed_start htokens)
    intro w hw
    have hrun := runWary_succ alarm bound id s w
    cases htears : s.tears (fun scope tokens ↦ runWary alarm bound scope (start tokens)) bound id w
      with
    | true =>
      rw [htears, if_pos rfl] at hrun
      exact .inl (congrArg Prod.fst hrun)
    | false =>
      rw [htears, if_neg Bool.false_ne_true] at hrun
      refine .congr hrun ?_
      refine (advance_tiedAt halarm hev bound id hw hs htears).bind fun p hp ↦ ?_
      cases p with
      | more s => exact ih id hp
      | «over» r => exact .pure hp

end Scan

/-! ### Texts -/

/-- A look through the table of the standard library shows tokens with nothing inside. -/
theorem World.intact_new (settings : Settings) : (World.new settings).Intact := by
  have hplain : (Prelude.table.all fun b ↦ b.2.parts.isEmpty && !b.2.isDelimiter) = true := rfl
  refine ⟨fun id b hb ↦ ?_, rfl⟩
  cases id with
  | zero =>
    rw [show (World.new settings).scope 0 = (World.new settings).scope World.root from rfl,
      World.toList_new] at hb
    have hb := Bool.and_eq_true_iff.mp (List.all_eq_true.mp hplain b hb)
    exact ⟨Token.intact_of_parts (List.isEmpty_iff.mp hb.1), by simpa using hb.2⟩
  | succ id =>
    have hempty : ((World.new settings).scope (id + 1)).store.toList = [] :=
      StackMap.toList_withHash _ _
    rw [hempty] at hb
    exact absurd hb List.not_mem_nil

namespace Program

/-- Reduces a buffer up to its first complete token, unless a step tears brackets apart. -/
def stepWary (alarm : Stop) (bound : Nat) : Evaluator :=
  fun id tokens ↦ Scan.runWary alarm bound id (.start tokens)

/-- The evaluation of a text tears brackets apart: with an eye to that it breaks off, whatever the
alarm. -/
def Tears (bound : Nat) (id : ScopeId) (source : List Char) (w : World) : Prop :=
  ∀ alarm : Stop, alarm.isFinal = true →
    (evalBy (stepWary alarm bound) bound id source).outcome w = .error alarm

theorem evaluateBy_tied {alarm : Stop} {ev ev' : Evaluator} (hev : ev.TiedTo alarm ev')
    (rounds : Nat) (id : ScopeId) {tokens : List Token} (htokens : Seals [] tokens) :
    Tied alarm (fun answer ↦ ∀ f, answer.failure = some f → f.Matched)
      (evaluateBy ev rounds id tokens) (evaluateBy ev' rounds id tokens) :=
  (collect_tied hev id rounds (List.forall_mem_nil _) htokens).bind
    fun _ hanswer ↦ .pure hanswer.2

section Reading

variable {alarm : Stop} {source : List Char} {units : List Lexeme}
  (hread : Lexeme.read source = .ok units) (hnested : Reader.isUnnested source = false)
include hread hnested

theorem read_tied : Tied alarm (fun r ↦ ∃ tokens, r = .ok tokens ∧ Seals [] tokens) (read source)
    (read source) := by
  refine .of_scopes fun w ↦ ?_
  have hrun : (read source).run.run w = (.ok (.ok (Reader.ofLexemes w.nextRef units)),
      { w with nextRef := w.nextRef + units.length }) := by
    simp only [read, hread]
    rfl
  rw [EvalM.outcome, EvalM.after, hrun]
  refine ⟨⟨_, rfl, _, rfl, ?_, fun t ht ↦ ?_⟩, rfl, rfl⟩
  · rw [Reader.nested_ofLexemes _ hread, hnested]
    rfl
  · exact Token.intact_of_parts (Reader.plain_ofLexemes ht).2

theorem evalBy_tied {ev ev' : Evaluator} (hev : ev.TiedTo alarm ev') (rounds : Nat)
    (id : ScopeId) : Tied alarm (fun answer ↦ ∀ f, answer.failure = some f → f.Matched)
      (evalBy ev rounds id source) (evalBy ev' rounds id source) := by
  refine (read_tied hread hnested).bind fun r hr ↦ ?_
  obtain ⟨tokens, rfl, htokens⟩ := hr
  exact evaluateBy_tied hev rounds id htokens

end Reading

/-- A text whose brackets close each other is reported for one of them only if its evaluation tears
brackets apart. -/
theorem tears_of_unmatched (settings : Settings) (bound : Nat) {source : List Char}
    {units : List Lexeme} (hread : Lexeme.read source = .ok units)
    (hnested : Reader.isUnnested source = false) {answer : Answer}
    (hanswer : (evalWithin bound World.root source).outcome (World.new settings) = .ok answer)
    {f : Failure} (hf : answer.failure = some f)
    (hunmatched : f.cause.family = .unmatchedBracket) :
    Tears bound World.root source (World.new settings) := by
  intro alarm halarm
  have hev : (stepWary alarm bound).TiedTo alarm (stepWithin bound) :=
    fun id tokens htokens ↦ Scan.runWary_tied halarm bound id (Scan.sealed_start htokens)
  rcases evalBy_tied hread hnested hev bound World.root _ (World.intact_new settings) with
    htears | ⟨hsame, -, -, hmatched⟩
  · exact htears
  · have hwary : (evalBy (stepWary alarm bound) bound World.root source).outcome
        (World.new settings) = .ok answer := hsame.symm.trans hanswer
    rw [hwary] at hmatched
    exact absurd hunmatched (hmatched f hf)

/-- Quoting brackets, unquoting them again and a marker before a closing bracket tear nothing. -/
example : succeeds ((evalBy (stepWary .exhausted 30) 30 World.root
    "\x7bdefn f [x] :[1 [2]]\x7d (f 1) @(f 1) [: ]".toList).outcome
      (World.new ⟨"", false, 0, 1⟩)) = true := by decide +kernel

/-- Whether a text is reported for a bracket in a new world though its brackets close each other. -/
def misreports (text : String) : Bool :=
  !Reader.isUnnested text.toList &&
    match Lexeme.read text.toList,
      (evalWithin 30 World.root text.toList).outcome (World.new ⟨"", false, 0, 1⟩) with
    | .ok _, .ok ⟨_, some f⟩ => f.cause.family == .unmatchedBracket
    | _, _ => false

theorem misreports_markers : misreports "[: :]" = true := by decide +kernel

/-- Two markers before a closing bracket, the last token of a quote, and a bracket that a map holds
as a value. -/
theorem misreports_several : misreports "[: :]" = true ∧ misreports "(:[1] :last)" = true ∧
    misreports "(#map\x7b1 [ 2 ]\x7d :get 1)" = true :=
  ⟨misreports_markers, by decide +kernel⟩

/-- The evaluation of two markers before a closing bracket tears it from its partner. -/
theorem tears_of_unmatched_markers : misreports "[: :]" = true ∧
    Tears 30 World.root "[: :]".toList (World.new ⟨"", false, 0, 1⟩) := by
  refine ⟨misreports_markers, ?_⟩
  obtain ⟨hnested, hreport⟩ := Bool.and_eq_true_iff.mp misreports_markers
  split at hreport
  · rename_i values f hread hanswer
    exact tears_of_unmatched ⟨"", false, 0, 1⟩ 30 hread (by simpa using hnested) hanswer rfl
      (beq_iff_eq.mp hreport)
  · cases hreport

end Program

end TokenLang

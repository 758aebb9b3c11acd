import TokenLang.Proofs.Eval.Captures
import TokenLang.Proofs.RoundTrip.Evaluation

/-!
Brackets that do not close each other. The scan of a buffer keeps whether its brackets, those that
are open already and those still to come, close each other (`Scan.isNested_of_advance`): every step
does, as long as the tokens that it puts in place of others are well nested themselves. So an
evaluation of tokens that are not well nested either does not succeed, or one of its steps placed
tokens that are not well nested (`Program.places_unnested`). The second happens: methods hand out
single tokens of a quote, and one of them may be a bracket (`Program.mends_unclosed`).
-/

set_option autoImplicit false
set_option relaxedAutoImplicit false

namespace TokenLang

/-! ### Well nested tokens -/

namespace Token

/-- Well nested tokens between others make no difference. -/
theorem nested_append (inner : List Token) {stack ts rest : List Token}
    (h : nested inner ts = true) : nested (inner ++ stack) (ts ++ rest) = nested stack rest := by
  induction ts generalizing inner with
  | nil =>
    obtain rfl : inner = [] := by simpa [nested] using h
    rfl
  | cons t ts ih =>
    rw [nested_cons] at h
    rw [List.cons_append, nested_cons]
    split_ifs at h ⊢ with hplain hopens
    · exact ih inner h
    · exact ih (t :: inner) h
    · cases inner with
      | nil => cases h
      | cons top below =>
        obtain ⟨hmatch, h⟩ := Bool.and_eq_true_iff.mp h
        simp only [List.cons_append, hmatch, Bool.true_and]
        exact ih below h

theorem nested_append_nil {stack ts rest : List Token} (h : nested [] ts = true) :
    nested stack (ts ++ rest) = nested stack rest := nested_append [] h

theorem isDelimiter_of_isSymbol {t : Token} (h : t.isSymbol = true) : t.isDelimiter = false := by
  have hbracket : t.bracket = "" := beq_iff_eq.mp (Bool.and_eq_true_iff.mp h).2
  simp [isDelimiter, hbracket]

theorem nested_of_not_isDelimiter {t : Token} (h : t.isDelimiter = false)
    (stack rest : List Token) : nested stack (t :: rest) = nested stack rest := by
  rw [nested_cons, h]
  rfl

end Token

/-! ### Forms -/

namespace Form

/-- A region closes the brackets that were open when it began, and no others. -/
theorem nested_of_region {outer : Token} {stack ts : List Token} (hstack : stack ≠ [])
    {answer : List Token × List Token} (h : region outer stack ts = .ok answer) :
    Token.nested stack answer.1 = true := by
  induction ts generalizing stack answer with
  | nil => cases h
  | cons t ts ih =>
    rw [region_cons] at h
    split_ifs at h with hplain hopens
    · obtain ⟨a, hts, rfl⟩ := exists_of_map_eq_ok h
      rw [Token.nested_cons, if_pos hplain]
      exact ih hstack hts
    · obtain ⟨a, hts, rfl⟩ := exists_of_map_eq_ok h
      rw [Token.nested_cons, if_neg hplain, if_pos hopens]
      exact ih (List.cons_ne_nil t stack) hts
    · cases stack with
      | nil => exact absurd rfl hstack
      | cons top below =>
        dsimp only at h
        split_ifs at h with hmismatch hlast
        · have hmatch : top.closesWith t = true := by simpa using hmismatch
          obtain rfl : below = [] := List.isEmpty_iff.mp hlast
          cases h
          rw [Token.nested_cons, if_neg hplain, if_neg hopens]
          simp [hmatch, Token.nested]
        · have hmatch : top.closesWith t = true := by simpa using hmismatch
          obtain ⟨a, hts, rfl⟩ := exists_of_map_eq_ok h
          rw [Token.nested_cons, if_neg hplain, if_neg hopens]
          simpa [hmatch] using ih (by simpa using hlast) hts

/-- A form is well nested. -/
theorem nested_of_split {isMarker : Token → Bool} {tokens : List Token}
    {answer : List Token × List Token} (h : split isMarker tokens = .ok answer) :
    Token.nested [] answer.1 = true := by
  induction tokens generalizing answer with
  | nil => cases h; rfl
  | cons t rest ih =>
    unfold split at h
    split_ifs at h with hplain hmarker hcloses
    · obtain ⟨a, hrest, rfl⟩ := exists_of_map_eq_ok h
      rw [Token.nested_of_not_isDelimiter (by simpa using hplain)]
      exact ih hrest
    · cases h
      rw [Token.nested_of_not_isDelimiter (by simpa using hplain)]
      rfl
    · obtain ⟨a, hregion, rfl⟩ := exists_of_map_eq_ok h
      rw [Token.nested_cons, if_neg hplain, if_pos (by simpa using hcloses)]
      exact nested_of_region (List.cons_ne_nil t []) hregion

end Form

/-! ### What a step takes away -/

/-- Some tokens without a well nested piece at their front. -/
def Strips (tokens after : List Token) : Prop :=
  ∃ form, tokens = form ++ after ∧ Token.nested [] form = true

theorem Strips.nested_eq {tokens after : List Token} (h : Strips tokens after)
    (stack : List Token) : Token.nested stack tokens = Token.nested stack after := by
  obtain ⟨form, rfl, hform⟩ := h
  exact Token.nested_append_nil hform

theorem Strips.refl (tokens : List Token) : Strips tokens tokens := ⟨[], rfl, rfl⟩

section Steps

variable {ev : Evaluator} {fuel : Nat} {id : ScopeId} {w : World}

theorem strips_of_cut {args : List Token} {answer : List Token × List Token}
    (h : (Evaluator.cut id args).outcome w = .ok answer) : Strips args answer.2 := by
  obtain ⟨s, -, h⟩ := EvalM.ok_of_bind h
  cases hsplit : Form.split s.isMarker args with
  | error f => rw [hsplit] at h; cases h
  | ok a =>
    rw [hsplit] at h
    cases h
    exact ⟨answer.1, (Form.append_of_split hsplit).symm, Form.nested_of_split hsplit⟩

/-- Evaluating the next form takes that form away. -/
theorem strips_of_next {args : List Token} {answer : Option Token × List Token}
    (h : (ev.next id args).outcome w = .ok answer) : Strips args answer.2 := by
  cases args with
  | nil =>
    cases h
    exact .refl []
  | cons t args =>
    obtain ⟨⟨form, rest⟩, hcut, h⟩ := EvalM.ok_of_bind h
    obtain ⟨r, -, h⟩ := EvalM.ok_of_bind h
    have hrest := strips_of_cut hcut
    cases r with
    | value u _ => cases h; exact hrest
    | nothing => cases h; exact hrest
    | failed f _ => cases h

/-- An envoy takes at most one form from the buffer after it. -/
theorem strips_of_envoy {e : Envoy} {after : List Token} {answer : List Token × List Token}
    (h : (e.apply ev fuel id after).outcome w = .ok answer) : Strips after answer.2 := by
  unfold Envoy.apply at h
  split at h
  · cases h; exact .refl after
  · obtain ⟨out, -, h⟩ := EvalM.ok_of_bind h
    cases h
    exact .refl after
  · obtain ⟨out, -, h⟩ := EvalM.ok_of_bind h
    cases h
    exact .refl after
  · split_ifs at h
    · cases h; exact .refl _
    · obtain ⟨⟨form, rest⟩, hcut, h⟩ := EvalM.ok_of_bind h
      have hrest := strips_of_cut hcut
      cases h
      exact hrest
  · rename_i t rest
    split_ifs at h
    · cases h; exact .refl _
    · obtain ⟨s, -, h⟩ := EvalM.ok_of_bind h
      split_ifs at h with hsymbol
      · split at h
        · cases h
          have hplain := Token.isDelimiter_of_isSymbol (Bool.and_eq_true_iff.mp hsymbol).1
          exact ⟨[t], rfl, Token.nested_of_not_isDelimiter hplain [] []⟩
        · cases h; exact .refl _
      · obtain ⟨⟨v, rest⟩, hnext, h⟩ := EvalM.ok_of_bind h
        have hrest := strips_of_next hnext
        cases v <;> cases h <;> exact hrest
  · cases h; exact .refl _
  · cases h; exact .refl _

theorem strips_of_act {t : Token} {rest : List Token} {answer : List Token × List Token}
    (h : (ev.act fuel id t rest).outcome w = .ok answer) : Strips rest answer.2 := by
  unfold Evaluator.act at h
  split at h
  · exact strips_of_envoy h
  · obtain ⟨placed, -, h⟩ := EvalM.ok_of_bind h
    cases h
    exact .refl rest
  · obtain ⟨placed, -, h⟩ := EvalM.ok_of_bind h
    cases h
    exact .refl rest

end Steps

/-! ### Scans -/

namespace Frame

variable (opening : Token) (passed inner rest : List Token)

/-- What a quoting bracket leaves as written closes what it opens, as far as it goes. -/
theorem nested_passQuoted (stack : List Token) :
    Token.nested ((passQuoted opening passed inner rest).1.inner ++ opening :: stack)
        (passQuoted opening passed inner rest).2 =
      Token.nested (inner ++ opening :: stack) rest := by
  fun_induction passQuoted opening passed inner rest with
  | case1 => rfl
  | case2 _ _ t rest hplain ih =>
    rw [ih, Token.nested_of_not_isDelimiter (by simpa using hplain)]
  | case3 _ _ t rest hplain hopens ih =>
    rw [ih, Token.nested_cons, if_neg hplain, if_pos hopens]
    rfl
  | case4 _ t rest hplain hopens top others hmatch ih =>
    rw [ih, Token.nested_cons, if_neg hplain, if_neg hopens]
    simp [hmatch]
  | case5 => rfl
  | case6 => rfl

/-- Where it stops, no other bracket is open inside it, unless the buffer ends or goes on with a
bracket that does not close the innermost one. -/
theorem innermost_passQuoted : (passQuoted opening passed inner rest).1.inner = [] ∨
    ∀ t after, (passQuoted opening passed inner rest).2 = t :: after →
      t.isClosing = true ∧
        (passQuoted opening passed inner rest).1.innermost.closesWith t = false := by
  fun_induction passQuoted opening passed inner rest with
  | case1 => exact .inr fun t after h ↦ by cases h
  | case2 _ _ _ _ _ ih => exact ih
  | case3 _ _ _ _ _ _ ih => exact ih
  | case4 _ _ _ _ _ _ _ _ ih => exact ih
  | case5 _ t rest hplain hopens top others hmismatch =>
    refine .inr fun u after h ↦ ?_
    cases h
    refine ⟨?_, Bool.eq_false_iff.mpr hmismatch⟩
    simpa [Token.isClosing] using And.intro hplain hopens
  | case6 => exact .inl rfl

end Frame

namespace Scan

/-- The brackets that are open, innermost first. -/
def openings (frames : List Frame) : List Token := frames.flatMap fun f ↦ f.inner ++ [f.opening]

/-- Whether the brackets that are open and those still to come close each other. -/
def isNested (s : Scan) : Bool := Token.nested (openings s.frames) s.rest

/-- Only the innermost bracket may have others open inside it that it left as written, and then the
scan cannot go on. -/
structure Settled (s : Scan) : Prop where
  outer : ∀ f ∈ s.frames.tail, f.inner = []
  front : ∀ f, s.frames.head? = some f → f.inner = [] ∨ ∀ t after, s.rest = t :: after →
    t.isClosing = true ∧ f.innermost.closesWith t = false

theorem settled_start (tokens : List Token) : (start tokens).Settled :=
  ⟨fun _ hf ↦ absurd hf List.not_mem_nil, fun _ hf ↦ by cases hf⟩

/-- A settled scan has nothing open in a region left as written, if its next token is no closing
bracket or closes the innermost one. -/
theorem Settled.inner_eq_nil {s : Scan} (h : s.Settled) {t : Token} {after : List Token}
    (hrest : s.rest = t :: after)
    (ht : t.isClosing = false ∨ ∀ f, s.frames.head? = some f → f.innermost.closesWith t = true) :
    ∀ f ∈ s.frames, f.inner = [] := by
  intro f hf
  cases hframes : s.frames with
  | nil =>
    rw [hframes] at hf
    exact absurd hf List.not_mem_nil
  | cons g frames =>
    have hhead : s.frames.head? = some g := by rw [hframes]; rfl
    rw [hframes] at hf
    rcases List.mem_cons.mp hf with rfl | hf
    · rcases h.front f hhead with hinner | hstuck
      · exact hinner
      · obtain ⟨hcloses, hmismatch⟩ := hstuck t after hrest
        rcases ht with ht | ht
        · exact Bool.noConfusion (hcloses.symm.trans ht)
        · exact Bool.noConfusion ((ht f hhead).symm.trans hmismatch)
    · exact h.outer f (by rw [hframes]; exact hf)

theorem settled_of_inner {frames : List Frame} (h : ∀ f ∈ frames, f.inner = [])
    (rest : List Token) (hops : Nat) : Settled ⟨frames, rest, hops⟩ :=
  ⟨fun f hf ↦ h f (List.mem_of_mem_tail hf), fun f hf ↦ .inl (h f (List.mem_of_head? hf))⟩

section Shapes

variable {t : Token} {rest : List Token} {hops hops' : Nat}

/-- Closing the innermost bracket. The region that ends there left none open. -/
theorem isNested_close {f : Frame} {frames : List Frame}
    (hs : Settled ⟨f :: frames, t :: rest, hops⟩) (ht : t.isDelimiter = true)
    (hcloses : t.closes = true) (hmatch : f.innermost.closesWith t = true) {placed : List Token}
    (hplaced : Token.nested [] placed = true) :
    isNested ⟨frames, placed ++ rest, hops'⟩ = isNested ⟨f :: frames, t :: rest, hops⟩ ∧
      Settled ⟨frames, placed ++ rest, hops'⟩ := by
  have hinner := hs.inner_eq_nil rfl (.inr fun g hg ↦ by cases hg; exact hmatch)
  obtain ⟨hf, hothers⟩ := List.forall_mem_cons.mp hinner
  refine ⟨?_, settled_of_inner hothers _ _⟩
  have hopening : f.opening.closesWith t = true := by
    rw [Frame.innermost, hf] at hmatch
    exact hmatch
  have hopenings : openings (f :: frames) = f.opening :: openings frames := by
    simp [openings, hf]
  unfold isNested
  rw [Token.nested_append_nil hplaced, hopenings, Token.nested_cons]
  simp [ht, hcloses, hopening]

/-- Passing an opening bracket. -/
theorem isNested_open {frames : List Frame} (hs : Settled ⟨frames, t :: rest, hops⟩)
    (ht : t.isDelimiter = true) (hopens : t.closes = false) {s' : Scan}
    (h : openFrame t rest frames = .more s') :
    s'.isNested = isNested ⟨frames, t :: rest, hops⟩ ∧ s'.Settled := by
  have hinner := hs.inner_eq_nil rfl (.inl (by simp [Token.isClosing, hopens]))
  have hbefore : isNested ⟨frames, t :: rest, hops⟩ = Token.nested (t :: openings frames) rest := by
    rw [isNested, Token.nested_cons]
    simp [ht, hopens]
  unfold openFrame at h
  split_ifs at h
  · cases h
    refine ⟨?_, hinner, fun f hf ↦ ?_⟩
    · rw [hbefore, isNested]
      have hopening := Frame.opening_passQuoted t [] [] rest
      simp only [openings, List.flatMap_cons, List.append_assoc, hopening]
      exact Frame.nested_passQuoted t [] [] rest (openings frames)
    · cases hf
      exact Frame.innermost_passQuoted t [] [] rest
  · cases h
    refine ⟨hbefore.symm, settled_of_inner (List.forall_mem_cons.mpr ⟨rfl, hinner⟩) _ _⟩

/-- Passing a complete token inside a bracket. -/
theorem isNested_pass {frames : List Frame} (hs : Settled ⟨frames, t :: rest, hops⟩)
    (ht : t.isDelimiter = false) {s' : Scan} (h : pass t rest frames = .more s') :
    s'.isNested = isNested ⟨frames, t :: rest, hops⟩ ∧ s'.Settled := by
  have hinner := hs.inner_eq_nil rfl (.inl (by simp [Token.isClosing, ht]))
  unfold pass at h
  split at h
  · cases h
    refine ⟨(Token.nested_of_not_isDelimiter ht _ _).symm, settled_of_inner ?_ _ _⟩
    obtain ⟨hf, hothers⟩ := List.forall_mem_cons.mp hinner
    exact List.forall_mem_cons.mpr ⟨hf, hothers⟩
  · cases h

/-- Letting what is pending act. -/
theorem isNested_act {frames : List Frame} (hs : Settled ⟨frames, t :: rest, hops⟩)
    (ht : t.isDelimiter = false) {placed after : List Token} (hafter : Strips rest after)
    (hplaced : Token.nested [] placed = true) :
    isNested ⟨frames, placed ++ after, hops'⟩ = isNested ⟨frames, t :: rest, hops⟩ ∧
      Settled ⟨frames, placed ++ after, hops'⟩ := by
  have hinner := hs.inner_eq_nil rfl (.inl (by simp [Token.isClosing, ht]))
  refine ⟨?_, settled_of_inner hinner _ _⟩
  unfold isNested
  rw [Token.nested_append_nil hplaced, Token.nested_of_not_isDelimiter ht, hafter.nested_eq]

end Shapes

variable (ev : Evaluator) (fuel : Nat) (id : ScopeId)

/-- The tokens that a step puts in place of a closed region or of a pending token, if it does. -/
def placement (s : Scan) : EvalM (List Token) :=
  match s.frames, s.rest with
  | _, [] => return []
  | frames, t :: rest =>
    if t.isDelimiter then
      match t.closes, frames with
      | true, f :: _ => ev.close fuel id f.opening f.passed.reverse
      | _, _ => return []
    else if t.isComplete then return []
    else do return (← ev.act fuel id t rest).1

/-- Whether the brackets of a buffer close each other stays the same, unless the step places tokens
that are not well nested. -/
theorem isNested_of_advance {ev : Evaluator} {fuel : Nat} {id : ScopeId} {w : World} {s s' : Scan}
    (hs : s.Settled) (h : (s.advance ev fuel id).outcome w = .ok (.more s'))
    (hplaced : ∀ placed, (s.placement ev fuel id).outcome w = .ok placed →
      Token.nested [] placed = true) : s'.isNested = s.isNested ∧ s'.Settled := by
  cases advances_of_more h with
  | close hdelimiter hcloses hmatch hclose =>
    refine isNested_close hs hdelimiter hcloses hmatch (hplaced _ ?_)
    simpa [placement, hdelimiter, hcloses] using hclose
  | enter hdelimiter hopens hopen => exact isNested_open hs hdelimiter hopens hopen
  | pass hdelimiter _ hpass => exact isNested_pass hs hdelimiter hpass
  | act hdelimiter hpending hact =>
    refine isNested_act hs hdelimiter (strips_of_act hact) (hplaced _ ?_)
    simp only [placement, hdelimiter, hpending, Bool.false_eq_true, if_false]
    rw [EvalM.outcome_bind, hact]
    rfl

/-- Some step of a run places tokens with a property. -/
def Places (P : List Token → Prop) : Nat → ScopeId → Scan → World → Prop
  | 0, _, _, _ => False
  | fuel + 1, id, s, w =>
    let ev : Evaluator := fun scope tokens ↦ run fuel scope (start tokens)
    (∃ placed, (s.placement ev fuel id).outcome w = .ok placed ∧ P placed) ∨
      ∃ s', (s.advance ev fuel id).outcome w = .ok (.more s') ∧
        Places P fuel id s' ((s.advance ev fuel id).after w)

end Scan

/-- Results that leave brackets which do not close each other. -/
def Reduction.IsUnnested : Reduction → Prop
  | .value _ rest => Token.nested [] rest = false
  | .nothing => False
  | .failed _ _ => True

namespace Scan

/-- The end of a scan whose brackets do not close each other. -/
theorem isUnnested_of_over {ev : Evaluator} {fuel : Nat} {id : ScopeId} {w : World} {s : Scan}
    {r : Reduction} (hs : s.isNested = false)
    (h : (s.advance ev fuel id).outcome w = .ok (.over r)) : r.IsUnnested := by
  cases endsAs_of_over h with
  | value hdelimiter _ => exact (Token.nested_of_not_isDelimiter hdelimiter [] _).symm.trans hs
  | nothing => cases hs
  | failed => trivial

/-- A run over a buffer that is not well nested places tokens that are not well nested, or ends in a
way that shows the brackets which do not close each other. A step that places well nested tokens
only leaves the scan as badly nested as it was. -/
theorem run_unnested (bound : Nat) {id : ScopeId} {w : World} {s : Scan} (hs : s.Settled)
    (hunnested : s.isNested = false) {r : Reduction} (h : (run bound id s).outcome w = .ok r) :
    s.Places (fun placed ↦ Token.nested [] placed = false) bound id w ∨ r.IsUnnested := by
  induction bound generalizing s w with
  | zero => cases h
  | succ bound ih =>
    obtain ⟨p, hp, h⟩ := EvalM.ok_of_bind h
    by_cases hplaced : ∀ placed, (s.placement (fun scope tokens ↦ run bound scope (start tokens))
        bound id).outcome w = .ok placed → Token.nested [] placed = true
    · cases p with
      | more s' =>
        obtain ⟨hsame, hs'⟩ := isNested_of_advance hs hp hplaced
        rcases ih hs' (hsame.trans hunnested) h with hplaces | hr
        · exact .inl (.inr ⟨s', hp, hplaces⟩)
        · exact .inr hr
      | «over» r' =>
        cases h
        exact .inr (isUnnested_of_over hunnested hp)
    · push Not at hplaced
      obtain ⟨placed, hplaced, hbad⟩ := hplaced
      exact .inl (.inl ⟨placed, hplaced, Bool.eq_false_iff.mpr hbad⟩)

end Scan

namespace Program

/-- Some step of the evaluation of a buffer places tokens with a property. -/
def Places (P : List Token → Prop) (bound : Nat) (id : ScopeId) :
    Nat → List Token → World → Prop
  | 0, _, _ => False
  | rounds + 1, tokens, w => (Scan.start tokens).Places P bound id w ∨
    ∃ t rest, (stepWithin bound id tokens).outcome w = .ok (.value t rest) ∧
      Places P bound id rounds rest ((stepWithin bound id tokens).after w)

/-- Whether an evaluation ended without failure. -/
def succeeds : Except Stop Answer → Bool
  | .ok answer => answer.failure.isNone
  | .error _ => false

/-- The same for a whole buffer, evaluated form by form without a failure. -/
theorem collect_unnested (bound rounds : Nat) {id : ScopeId} {w : World}
    {done tokens out : List Token} (htokens : Token.nested [] tokens = false)
    (h : ((stepWithin bound).collect id rounds done tokens).outcome w = .ok (out, none)) :
    Places (fun placed ↦ Token.nested [] placed = false) bound id rounds tokens w := by
  induction rounds generalizing w done tokens with
  | zero => cases h
  | succ rounds ih =>
    obtain ⟨r, hr, h⟩ := EvalM.ok_of_bind h
    rcases Scan.run_unnested bound (Scan.settled_start tokens) htokens hr with hplaces | hunnested
    · exact .inl hplaces
    · cases r with
      | value t rest => exact .inr ⟨t, rest, hr, ih hunnested h⟩
      | nothing => exact hunnested.elim
      | failed f left => cases h

end Program

/-! ### Texts -/

namespace Lexeme

/-- A unit that is a bracket says which. -/
def IsProper (x : Lexeme) : Prop := x.kind = .opening ∨ x.kind = .closing → x.delimiter ≠ ""

namespace Scan

theorem isProper_leave (p : Position) (c : Char) : ∀ x ∈ (leave p c).2, x.IsProper := by
  fun_cases leave p c <;> simp [IsProper]

/-- Every bracket that a step emits says which one it is. -/
theorem isProper_next (p : Position) (c : Char) (state : State) :
    ∀ x ∈ (next p c state).2, x.IsProper := by
  have hleave := isProper_leave p c
  have hmode : ∀ start seen, ∀ x ∈ (extendMode start seen c).2, x.IsProper := by
    intro start seen
    fun_cases extendMode start seen c <;> simp [IsProper]
  unfold next
  split
  · exact hleave
  · split_ifs
    · refine List.forall_mem_cons.mpr ⟨?_, hleave⟩
      simp [IsProper]
    · simp
  · split_ifs
    · exact hleave
    · simp
  · split_ifs <;> simp
  · simp
  · split_ifs
    · simp
    · simp
    · exact hmode _ _
  · exact hmode _ _
  · split_ifs <;> simp [IsProper]
  · split <;> simp
  · split_ifs <;> simp
  · simp
  · split_ifs <;> simp [IsProper]
  · simp

theorem isProper_finish {p : Position} {state : State} {ends : List Lexeme}
    (h : finish p state = .ok ends) : ∀ x ∈ ends, x.IsProper := by
  unfold finish at h
  split at h <;> cases h <;> simp [IsProper]

theorem isProper_foldl (source : List Char) (s : Progress) (hs : ∀ x ∈ s.emitted, x.IsProper) :
    ∀ x ∈ (source.foldl Progress.feed s).emitted, x.IsProper := by
  induction source generalizing s with
  | nil => exact hs
  | cons c source ih =>
    refine ih _ fun x hx ↦ ?_
    rcases List.mem_append.mp hx with hx | hx
    · exact isProper_next _ _ _ x (List.mem_reverse.mp hx)
    · exact hs x hx

end Scan

theorem isProper_of_read {source : List Char} {units : List Lexeme}
    (h : Lexeme.read source = .ok units) : ∀ x ∈ units, x.IsProper := by
  have hemitted := Scan.isProper_foldl source .start fun _ hx ↦ absurd hx List.not_mem_nil
  obtain ⟨ends, hfinish, rfl⟩ := Scan.exists_finish_of_read h
  intro x hx
  rcases List.mem_append.mp hx with hx | hx
  · exact hemitted x (List.mem_reverse.mp hx)
  · exact Scan.isProper_finish hfinish x hx

end Lexeme

namespace Token

/-- Well nested tokens open as many brackets as they close. -/
theorem countP_of_nested {stack ts : List Token} (h : nested stack ts = true) :
    stack.length + ts.countP isOpening = ts.countP isClosing := by
  induction ts generalizing stack with
  | nil =>
    obtain rfl : stack = [] := by simpa [nested] using h
    rfl
  | cons t ts ih =>
    rw [nested_cons] at h
    rw [List.countP_cons, List.countP_cons]
    split_ifs at h with hplain hopens
    · have hcount := ih h
      have ht : t.isDelimiter = false := by simpa using hplain
      simpa [isOpening, isClosing, ht] using hcount
    · have hcount := ih h
      have ht : t.isDelimiter = true := by simpa using hplain
      have hopen : t.closes = false := by simpa using hopens
      simp only [isOpening, isClosing, ht, hopen, List.length_cons] at hcount ⊢
      simp
      omega
    · cases stack with
      | nil => cases h
      | cons top below =>
        have hcount := ih (Bool.and_eq_true_iff.mp h).2
        have ht : t.isDelimiter = true := by simpa using hplain
        have hclose : t.closes = true := by simpa using hopens
        simp only [isOpening, isClosing, ht, hclose, List.length_cons] at hcount ⊢
        simp
        omega

end Token

namespace Reader

/-- Opening and closing brackets come from units of these kinds and from no others. -/
theorem countP_ofLexeme {x : Lexeme} (hx : x.IsProper) (ref : Ref) :
    (ofLexeme ref x).toList.countP Token.isOpening = (if x.kind == .opening then 1 else 0) ∧
      (ofLexeme ref x).toList.countP Token.isClosing =
        (if x.kind == .closing then 1 else 0) := by
  obtain ⟨kind, text, mode, delimiter, position⟩ := x
  have hplain : ∀ t : Token, t.isDelimiter = false →
      [t].countP Token.isOpening = 0 ∧ [t].countP Token.isClosing = 0 := by
    intro t ht
    simp [Token.isOpening, Token.isClosing, ht]
  cases kind with
  | opening =>
    have hdelimiter : delimiter ≠ "" := hx (.inl rfl)
    simp [ofLexeme, Token.isOpening, Token.isClosing, Token.isDelimiter, Token.bracket,
      Token.isLiteral, Token.closes, hdelimiter]
  | closing =>
    have hdelimiter : delimiter ≠ "" := hx (.inr rfl)
    simp [ofLexeme, Token.isOpening, Token.isClosing, Token.isDelimiter, Token.bracket,
      Token.isLiteral, Token.closes, hdelimiter]
  | string =>
    obtain ⟨t, ht, hdelimiter⟩ : ∃ t, ofLexeme ref ⟨.string, text, mode, delimiter, position⟩ =
        some t ∧ t.isDelimiter = false := by
      unfold ofLexeme
      dsimp only
      split_ifs
      · exact ⟨_, rfl, rfl⟩
      · exact ⟨_, rfl, by simp [Token.isDelimiter, Token.isLiteral]⟩
    rw [ht]
    exact hplain t hdelimiter
  | word =>
    refine hplain _ ?_
    unfold ofWord
    split <;> rfl
  | char => exact hplain _ rfl
  | quote => exact hplain _ rfl
  | unquote => exact hplain _ rfl
  | finish => exact ⟨rfl, rfl⟩

/-- The brackets of a buffer are as many as those of the units it is read from. -/
theorem countP_ofLexemes {units : List Lexeme} (hunits : ∀ x ∈ units, x.IsProper) (base : Ref) :
    (ofLexemes base units).countP Token.isOpening = units.countP (·.kind == .opening) ∧
      (ofLexemes base units).countP Token.isClosing = units.countP (·.kind == .closing) := by
  induction units generalizing base with
  | nil => exact ⟨rfl, rfl⟩
  | cons x units ih =>
    obtain ⟨hx, hrest⟩ := List.forall_mem_cons.mp hunits
    obtain ⟨hopening, hclosing⟩ := ih hrest (base + 1)
    have hcons : ofLexemes base (x :: units) =
        (ofLexeme base x).toList ++ ofLexemes (base + 1) units := by
      unfold ofLexemes
      rw [List.zipIdx_cons, List.filterMap_cons]
      dsimp only
      cases ofLexeme base x <;> rfl
    have hone := countP_ofLexeme hx base
    rw [hcons, List.countP_append, List.countP_append, List.countP_cons, List.countP_cons,
      hopening, hclosing, hone.1, hone.2]
    exact ⟨Nat.add_comm _ _, Nat.add_comm _ _⟩

/-- Whether a text can be read, and its brackets do not close each other. -/
def isUnnested (source : List Char) : Bool :=
  match Lexeme.read source with
  | .ok units => !Token.nested [] (ofLexemes 0 units)
  | .error _ => false

/-- A text that waits for a bracket. -/
theorem isUnnested_of_not_isComplete {source : List Char} {units : List Lexeme}
    (hread : Lexeme.read source = .ok units) (h : isComplete source = false) :
    isUnnested source = true := by
  unfold isComplete at h
  rw [hread] at h
  obtain ⟨hopening, hclosing⟩ := countP_ofLexemes (Lexeme.isProper_of_read hread) 0
  unfold isUnnested
  rw [hread]
  by_contra hnested
  have hcount := Token.countP_of_nested (by simpa using hnested)
  rw [hopening, hclosing, List.length_nil, Nat.zero_add] at hcount
  exact absurd hcount.le (of_decide_eq_false h)

theorem nested_ofLexemes (base : Ref) {source : List Char} {units : List Lexeme}
    (hread : Lexeme.read source = .ok units) :
    Token.nested [] (ofLexemes base units) = !isUnnested source := by
  unfold isUnnested
  rw [hread, Bool.not_not, ← Token.nested_bare, ← Token.nested_bare [] (ofLexemes 0 units),
    Lexeme.Scan.map_bare_ofLexemes, Lexeme.Scan.map_bare_ofLexemes]

end Reader

namespace Program

/-- A text whose brackets do not close each other, such as one that waits for a bracket, is
evaluated without failure only if a step places tokens that are not well nested. -/
theorem places_unnested (w : World) (id : ScopeId) (bound : Nat) {source : List Char}
    {units : List Lexeme} (hread : Lexeme.read source = .ok units)
    (hunnested : Reader.isUnnested source = true ∨ Reader.isComplete source = false)
    (hok : succeeds ((evalWithin bound id source).outcome w) = true) :
    Places (fun placed ↦ Token.nested [] placed = false) bound id bound
      (Reader.ofLexemes w.nextRef units) { w with nextRef := w.nextRef + units.length } := by
  have htokens : Token.nested [] (Reader.ofLexemes w.nextRef units) = false := by
    rw [Reader.nested_ofLexemes w.nextRef hread]
    rcases hunnested with h | h
    · rw [h]
      rfl
    · rw [Reader.isUnnested_of_not_isComplete hread h]
      rfl
  have hrun : (evalWithin bound id source).outcome w =
      (evaluateWithin bound id (Reader.ofLexemes w.nextRef units)).outcome
        { w with nextRef := w.nextRef + units.length } := by
    have hrun : (read source).run.run w = (.ok (.ok (Reader.ofLexemes w.nextRef units)),
        { w with nextRef := w.nextRef + units.length }) := by
      simp only [read, hread]
      rfl
    rw [evalWithin, EvalM.outcome_bind, EvalM.outcome, EvalM.after, hrun]
  rw [hrun] at hok
  unfold succeeds at hok
  split at hok
  · rename_i answer hanswer
    obtain ⟨⟨out, failure⟩, hcollect, h⟩ := EvalM.ok_of_bind hanswer
    cases h
    obtain rfl : failure = none := Option.isNone_iff_eq_none.mp hok
    exact collect_unnested bound bound htokens hcollect
  · cases hok

/-- Whether a text is evaluated without failure in a new world though its brackets do not close
each other. -/
def mends (text : String) : Bool :=
  Reader.isUnnested text.toList &&
    succeeds ((evalWithin 30 World.root text.toList).outcome (World.new ⟨"", false, 0, 1⟩))

theorem mends_last : mends "[ 2 (:[1] :last)" = true := by decide +kernel

/-- The last token of a quote takes the place of a closing bracket, which the text waits for, and
the first one that of an opening bracket. -/
theorem mends_unclosed : mends "[ 2 (:[1] :last)" = true ∧
    Reader.isComplete "[ 2 (:[1] :last)".toList = false ∧ mends "(:[1] :first) 2 ]" = true :=
  ⟨mends_last, by decide +kernel, by decide +kernel⟩

/-- The text that waits for a bracket has a step that places one. -/
theorem places_unnested_last : ∃ units,
    Lexeme.read "[ 2 (:[1] :last)".toList = .ok units ∧
      Places (fun placed ↦ Token.nested [] placed = false) 30 World.root 30
        (Reader.ofLexemes (World.new ⟨"", false, 0, 1⟩).nextRef units)
        { World.new ⟨"", false, 0, 1⟩ with
          nextRef := (World.new ⟨"", false, 0, 1⟩).nextRef + units.length } := by
  obtain ⟨hunnested, hok⟩ := Bool.and_eq_true_iff.mp mends_last
  cases hread : Lexeme.read "[ 2 (:[1] :last)".toList with
  | error e =>
    rw [Reader.isUnnested, hread] at hunnested
    cases hunnested
  | ok units => exact ⟨units, rfl, places_unnested _ _ 30 hread (.inl hunnested) hok⟩

end Program

end TokenLang

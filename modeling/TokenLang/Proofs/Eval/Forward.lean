import TokenLang.Proofs.Eval.Captures
import TokenLang.Proofs.Eval.Cursor
import TokenLang.Proofs.Eval.Nesting

/-!
The scan looks only forward. The running scan keeps what it passed apart from what is still to come,
and never sees what stands before its start; a cursor has it all in one buffer. What acts on a place
of a shared buffer does what it does on the tokens after that place, behind those before
(`placing`). So the cursor of a scan (`Cursor.Tracks`) comes to what the scan comes to
(`Cursor.run_start`), and a cursor that starts behind other tokens does what one does that has its
buffer to itself, and leaves them as they are. Main statement: `Cursor.forward_only`.
-/

set_option autoImplicit false
set_option relaxedAutoImplicit false

namespace TokenLang

open Program (StepAnswer put replace)

/-! ### Acting by place -/

namespace EvalM

variable {α β : Type}

theorem ofFailure_ok (a : α) : ofFailure (.ok a) = pure a := rfl

/-- Computations that end alike in every world. -/
theorem ext_of_run {x y : EvalM α}
    (h : ∀ w, x.outcome w = y.outcome w ∧ x.after w = y.after w) : x = y :=
  funext fun w ↦ Prod.ext (h w).1 (h w).2

theorem attempt_map (f : α → β) (x : EvalM α) :
    attempt (f <$> x) = Except.map f <$> attempt x := by
  refine ext_of_run fun w ↦ ?_
  rw [map_eq_pure_bind, map_eq_pure_bind]
  simp only [outcome_attempt, after_attempt, outcome_bind, after_bind]
  rcases x.outcome w with (f | _ | _) | a <;> exact ⟨rfl, rfl⟩

end EvalM

section Places

variable (ev : Evaluator) (fuel : Nat) (id : ScopeId) (front : List Token) (t : Token)

/-- What acts on a place of a buffer gives the number of its tokens and the buffer that they are
in. -/
def placing (answer : List Token × List Token) : Nat × List Token :=
  (answer.1.length, front ++ (answer.1 ++ answer.2))

/-- Tokens in place of one behind others, and of the form after it. -/
theorem put_eq_placing (tokens form after : List Token) :
    put (front ++ t :: (form ++ after)) front.length (front.length + 1 + form.length) tokens =
      placing front (tokens, after) := by
  have hdrop : (front ++ t :: (form ++ after)).drop (front.length + 1 + form.length) = after := by
    rw [show front.length + 1 + form.length = front.length + (1 + form.length) by omega,
      List.drop_append, List.drop_of_length_le (by omega)]
    simp [Nat.add_comm 1]
  simp [put, placing, replace, hdrop]

theorem put_one_eq_placing (tokens after : List Token) :
    put (front ++ t :: after) front.length (front.length + 1) tokens =
      placing front (tokens, after) :=
  put_eq_placing front t tokens [] after

/-- Quoting in the middle of a buffer is quoting at the front of what stands there, with the tokens
before it put back. -/
theorem Envoy.quoteAt_eq (after : List Token) :
    quoteAt id (front ++ t :: after) front.length = placing front <$> quoteNext id after := by
  unfold quoteAt quoteNext Evaluator.cut
  simp only [bind_assoc, map_bind, map_pure]
  refine bind_congr fun s ↦ ?_
  have hstop : Form.stop s.isMarker (front ++ t :: after) (front.length + 1) =
      (Form.split s.isMarker after).map fun answer ↦ front.length + 1 + answer.1.length := by
    simp [Form.stop]
  rw [hstop]
  cases hsplit : Form.split s.isMarker after with
  | error f => rfl
  | ok answer =>
    obtain ⟨form, rest⟩ := answer
    obtain rfl : form ++ rest = after := Form.append_of_split hsplit
    have hextract : (front ++ t :: (form ++ rest)).extract (front.length + 1)
        (front.length + 1 + form.length) = form := by
      simp [List.extract_eq_take_drop]
    rw [Except.map, EvalM.ofFailure_ok, EvalM.ofFailure_ok, pure_bind, pure_bind, hextract,
      put_eq_placing]

/-- Unquoting in the middle of a buffer is unquoting at the front of what stands there, with the
tokens before it put back. -/
theorem Envoy.unquoteAt_eq (u : Token) (rest : List Token) :
    unquoteAt ev id u (front ++ t :: u :: rest) front.length =
      placing front <$> unquoteNext ev id u rest := by
  unfold unquoteAt unquoteNext
  rw [map_bind]
  refine bind_congr fun s ↦ ?_
  split_ifs
  · cases s.get? u.content with
    | none => exact congrArg pure (put_one_eq_placing front t [] (u :: rest))
    | some bound => exact congrArg pure (put_eq_placing front t bound.unwrapped [u] rest)
  · have hdrop : (front ++ t :: u :: rest).drop (front.length + 1) = u :: rest := by simp
    rw [hdrop]
    unfold Evaluator.next Evaluator.cut
    simp only [bind_assoc, map_bind]
    refine bind_congr fun s ↦ ?_
    cases hsplit : Form.split s.isMarker (u :: rest) with
    | error f => rfl
    | ok answer =>
      obtain ⟨form, left⟩ := answer
      have happend : form ++ left = u :: rest := Form.append_of_split hsplit
      have hstop : (front ++ t :: u :: rest).length - left.length =
          front.length + 1 + form.length := by
        have hlength := congrArg List.length happend
        simp only [List.length_append, List.length_cons] at hlength ⊢
        omega
      rw [EvalM.ofFailure_ok, pure_bind, pure_bind]
      refine bind_congr fun r ↦ ?_
      cases r with
      | value v after =>
        simp only [pure_bind]
        rw [hstop, ← happend, put_eq_placing]
        rfl
      | nothing =>
        simp only [pure_bind]
        rw [hstop, ← happend, put_eq_placing]
        rfl
      | failed f after => rfl

/-- What any envoy does in the middle of a buffer is what it does at the front, with the tokens
before it put back. -/
theorem Envoy.applyAt_eq (e : Envoy) (after : List Token) :
    e.applyAt ev fuel id (front ++ t :: after) front.length =
      placing front <$> e.apply ev fuel id after := by
  have hnext : (front ++ t :: after)[front.length + 1]? = after.head? := by
    rw [List.getElem?_append_right (by omega), List.head?_eq_getElem?]
    simp
  unfold applyAt apply
  rw [hnext]
  cases e with
  | splice tokens => exact congrArg pure (put_one_eq_placing front _ tokens _)
  | host key held =>
    simp only [map_bind, map_pure]
    exact bind_congr fun tokens ↦ congrArg pure (put_one_eq_placing front _ tokens _)
  | mutant name scope body =>
    simp only [map_bind, map_pure]
    exact bind_congr fun tokens ↦ congrArg pure (put_one_eq_placing front _ _ _)
  | quote =>
    cases after with
    | nil => exact congrArg pure (put_one_eq_placing front _ [] _)
    | cons u rest =>
      dsimp only [List.head?_cons]
      split_ifs
      · exact congrArg pure (put_one_eq_placing front _ [] _)
      · exact quoteAt_eq id front t (u :: rest)
  | unquote =>
    cases after with
    | nil => exact congrArg pure (put_one_eq_placing front _ [] _)
    | cons u rest =>
      dsimp only [List.head?_cons]
      split_ifs
      · exact congrArg pure (put_one_eq_placing front _ [] _)
      · exact unquoteAt_eq ev id front t u rest

theorem Evaluator.actAt_eq (after : List Token) :
    ev.actAt fuel id t (front ++ t :: after) front.length =
      placing front <$> ev.act fuel id t after := by
  unfold actAt act
  split
  · exact Envoy.applyAt_eq ev fuel id front _ _ after
  · simp only [map_bind, map_pure]
    exact bind_congr fun tokens ↦ congrArg pure (put_one_eq_placing front _ tokens _)
  · simp only [map_bind, map_pure]
    exact bind_congr fun bound ↦ congrArg pure (put_one_eq_placing front _ [bound] _)

/-- Closing a region in the middle of a buffer puts what takes its place between what stood before
it and after it. -/
theorem Evaluator.closeAt_eq (opening : Token) (inside after : List Token) :
    ev.closeAt fuel id (front ++ opening :: (inside ++ t :: after)) front.length
        (front.length + 1 + inside.length + 1) =
      (fun placed ↦ front ++ (placed ++ after)) <$> ev.close fuel id opening inside := by
  have hopening : (front ++ opening :: (inside ++ t :: after))[front.length]?.getD .null =
      opening := by
    simp
  have hinside : (front ++ opening :: (inside ++ t :: after)).extract (front.length + 1)
      (front.length + 1 + inside.length + 1 - 1) = inside := by
    simp [List.extract_eq_take_drop]
  unfold closeAt
  rw [hopening, hinside, map_eq_pure_bind]
  refine bind_congr fun placed ↦ congrArg pure ?_
  have hput := congrArg Prod.snd (put_eq_placing front opening placed (inside ++ [t]) after)
  simpa [put, placing, Nat.add_assoc] using hput

end Places

/-! ### The cursor of a scan -/

namespace Cursor

/-- What the brackets of a scan and the tokens passed in them take up of a buffer, behind others. -/
def passed (before : List Token) (frames : List Frame) : List Token :=
  before ++ frames.reverse.flatMap Frame.tokens

theorem passed_cons (before : List Token) (f : Frame) (frames : List Frame) :
    passed before (f :: frames) = passed before frames ++ f.opening :: f.passed.reverse := by
  simp [passed, Frame.tokens]

/-- The bracket of the innermost frame stands behind all that the others take up. -/
theorem opening_passed (before : List Token) (f : Frame) (frames : List Frame)
    (rest : List Token) :
    (passed before (f :: frames) ++ rest)[(passed before frames).length]?.getD .null =
      f.opening := by
  simp [passed_cons]

/-- The places of the brackets of a scan. -/
def places (before : List Token) : List Frame → List Nat
  | [] => []
  | _ :: frames => (passed before frames).length :: places before frames

/-- Brackets in which everything has been looked at. -/
def Plain (frames : List Frame) : Prop :=
  ∀ f ∈ frames, f.opening.quotes = false ∧ f.inner = []

/-- Places that hold given tokens. -/
def Holds (buffer : List Token) : List Nat → List Token → Prop :=
  List.Forall₂ fun i t ↦ buffer[i]? = some t

/-- The cursor of a scan that started behind other tokens. Where the innermost bracket quotes, those
inside it that are still open come first, and the cursor has come to a token that it cannot leave as
written. -/
inductive Tracks (before : List Token) : Scan → Cursor → Prop
  | plain {frames : List Frame} (hframes : Plain frames) (rest : List Token) (hops : Nat) :
      Tracks before ⟨frames, rest, hops⟩
        ⟨passed before frames ++ rest, places before frames, 0, (passed before frames).length, hops⟩
  | quoted {f : Frame} {frames : List Frame} {rest : List Token} {inner : List Nat}
      (hquotes : f.opening.quotes = true) (hframes : Plain frames)
      (hinner : Holds (passed before (f :: frames) ++ rest) inner f.inner)
      (hclosing : ∀ t ∈ rest.head?, t.isClosing = true)
      (hstuck : f.inner = [] ∨ ∀ t ∈ rest.head?, f.innermost.closesWith t = false) :
      Tracks before ⟨f :: frames, rest, 0⟩
        ⟨passed before (f :: frames) ++ rest, inner ++ places before (f :: frames),
          f.inner.countP Token.quotes + 1, (passed before (f :: frames)).length, 0⟩

variable {before : List Token} {s : Scan} {c : Cursor}

theorem tracks_start (before tokens : List Token) :
    Tracks before (.start tokens) (start (before ++ tokens) before.length) := by
  have hpassed : passed before [] = before := List.append_nil before
  have htracks : Tracks before ⟨[], tokens, 0⟩
      ⟨passed before [] ++ tokens, [], 0, (passed before []).length, 0⟩ :=
    .plain (fun f hf ↦ absurd hf List.not_mem_nil) tokens 0
  rwa [hpassed] at htracks

theorem Tracks.position (h : Tracks before s c) :
    c.buffer = passed before s.frames ++ s.rest ∧ c.place = (passed before s.frames).length := by
  cases h <;> exact ⟨rfl, rfl⟩

theorem Tracks.buffer_eq (h : Tracks before s c) : c.buffer = before ++ s.buffer := by
  rw [h.position.1, passed, Scan.buffer, List.append_assoc]

theorem Tracks.token (h : Tracks before s c) : c.buffer[c.place]? = s.rest.head? := by
  obtain ⟨hbuffer, hplace⟩ := h.position
  rw [hbuffer, hplace, List.getElem?_append_right (le_refl _), Nat.sub_self,
    List.head?_eq_getElem?]

theorem Tracks.nil {rest : List Token} {hops : Nat} (h : Tracks before ⟨[], rest, hops⟩ c) :
    c = ⟨before ++ rest, [], 0, before.length, hops⟩ := by
  cases h
  simp [passed, places]

/-- The innermost open place is that of the bracket that is to be closed next. -/
theorem Tracks.innermost {f : Frame} {frames : List Frame} {rest : List Token} {hops : Nat}
    (h : Tracks before ⟨f :: frames, rest, hops⟩ c) :
    ∃ o opens, c.opens = o :: opens ∧ c.openingAt o = f.innermost := by
  cases h with
  | plain hframes =>
    refine ⟨_, _, rfl, (opening_passed before f frames rest).trans ?_⟩
    rw [Frame.innermost, (hframes f (List.mem_cons_self ..)).2]
    rfl
  | @quoted _ _ _ inner _ _ hinner =>
    unfold Frame.innermost
    cases hf : f.inner with
    | nil =>
      rw [hf] at hinner
      cases hinner
      exact ⟨_, _, rfl, opening_passed before f frames rest⟩
    | cons top others =>
      rw [hf] at hinner
      cases hinner with
      | cons htop _ => exact ⟨_, _, rfl, by simp [openingAt, htop]⟩

/-- A bracket can be closed only when no other is open inside it, and then no quoting bracket is
open any more. -/
theorem Tracks.closing {f : Frame} {frames : List Frame} {t : Token} {rest : List Token}
    {hops : Nat} (h : Tracks before ⟨f :: frames, t :: rest, hops⟩ c)
    (hmatch : f.innermost.closesWith t = true) :
    Plain frames ∧ c.opens = places before (f :: frames) ∧
      c.quotingWithout (passed before frames).length = 0 := by
  cases h with
  | plain hframes =>
    refine ⟨fun g hg ↦ hframes g (List.mem_cons_of_mem f hg), rfl, ?_⟩
    unfold quotingWithout
    split_ifs <;> rfl
  | quoted hquotes hframes hinner _ hstuck =>
    have hf : f.inner = [] := hstuck.resolve_right fun hstuck ↦
      Bool.noConfusion ((hstuck t rfl).symm.trans hmatch)
    rw [hf] at hinner
    cases hinner
    refine ⟨hframes, rfl, ?_⟩
    rw [quotingWithout, openingAt, opening_passed, if_pos hquotes, hf]
    rfl

/-- What is no closing bracket comes up outside quoting brackets only. -/
theorem Tracks.plain_of_not_closing {frames : List Frame} {t : Token} {rest : List Token}
    {hops : Nat} (h : Tracks before ⟨frames, t :: rest, hops⟩ c) (ht : t.isClosing = false) :
    Plain frames ∧ c = ⟨passed before frames ++ t :: rest, places before frames, 0,
      (passed before frames).length, hops⟩ := by
  cases h with
  | plain hframes => exact ⟨hframes, rfl⟩
  | quoted _ _ _ hclosing => exact Bool.noConfusion ((hclosing t rfl).symm.trans ht)

/-! ### What a quoting bracket leaves as written -/

/-- A region left as written ends before a closing bracket or with the buffer. -/
theorem isClosing_passQuoted (opening : Token) (passed inner rest : List Token) :
    ∀ t ∈ (Frame.passQuoted opening passed inner rest).2.head?, t.isClosing = true := by
  fun_induction Frame.passQuoted opening passed inner rest with
  | case1 => exact fun t ht ↦ by cases ht
  | case2 _ _ _ _ _ ih => exact ih
  | case3 _ _ _ _ _ _ ih => exact ih
  | case4 _ _ _ _ _ _ _ _ ih => exact ih
  | case5 _ t _ hplain hopens =>
    rintro u ⟨⟩
    simpa [Token.isClosing] using And.intro hplain hopens
  | case6 _ t _ hplain hopens =>
    rintro u ⟨⟩
    simpa [Token.isClosing] using And.intro hplain hopens

section Rounds

variable {buffer : List Token} {opens : List Nat} {quoting i hops : Nat} {t : Token}
  (ht : buffer[i]? = some t)
include ht

theorem asWritten?_skip (hplain : t.isDelimiter = false) :
    asWritten? ⟨buffer, opens, quoting + 1, i, hops⟩ =
      some ⟨buffer, opens, quoting + 1, i + 1, hops⟩ := by
  simp [asWritten?, ht, hplain, skip]

theorem asWritten?_enter (hdelimiter : t.isDelimiter = true) (hopening : t.closes = false) :
    asWritten? ⟨buffer, opens, quoting + 1, i, hops⟩ =
      some ⟨buffer, i :: opens, if t.quotes then quoting + 1 + 1 else quoting + 1, i + 1, 0⟩ := by
  simp [asWritten?, ht, hdelimiter, hopening, enter]

variable {o : Nat} {opening : Token} (hopening : buffer[o]?.getD .null = opening)
  (hdelimiter : t.isDelimiter = true) (hcloses : t.closes = true)
include hopening hdelimiter hcloses

theorem asWritten?_leave {left : Nat} (hmatch : opening.closesWith t = true)
    (hleft : (if opening.quotes then quoting else quoting + 1) = left + 1) :
    asWritten? ⟨buffer, o :: opens, quoting + 1, i, hops⟩ =
      some ⟨buffer, opens, left + 1, i + 1, hops⟩ := by
  simp [asWritten?, ht, hdelimiter, hcloses, openingAt, quotingWithout, hopening, hmatch, hleft]

theorem asWritten?_stuck (h : opening.closesWith t = false ∨
      (if opening.quotes then quoting else quoting + 1) = 0) :
    asWritten? ⟨buffer, o :: opens, quoting + 1, i, hops⟩ = none := by
  rcases h with h | h <;>
    simp [asWritten?, ht, hdelimiter, hcloses, openingAt, quotingWithout, hopening, h]

end Rounds

/-- Behind a quoting bracket the cursor goes as far as the scan does in one step. -/
theorem glide_passQuoted {buffer front : List Token} {opening : Token}
    (hquotes : opening.quotes = true) (outer : List Nat) (passed inner rest : List Token)
    {innerPlaces : List Nat} (hbuffer : buffer = front ++ opening :: (passed.reverse ++ rest))
    (hinner : Holds buffer innerPlaces inner) :
    ∃ innerPlaces', Holds buffer innerPlaces' (Frame.passQuoted opening passed inner rest).1.inner ∧
      buffer = front ++ opening :: ((Frame.passQuoted opening passed inner rest).1.passed.reverse ++
        (Frame.passQuoted opening passed inner rest).2) ∧
      glide ⟨buffer, innerPlaces ++ front.length :: outer, inner.countP Token.quotes + 1,
          front.length + 1 + passed.length, 0⟩ =
        ⟨buffer, innerPlaces' ++ front.length :: outer,
          (Frame.passQuoted opening passed inner rest).1.inner.countP Token.quotes + 1,
          front.length + 1 + (Frame.passQuoted opening passed inner rest).1.passed.length, 0⟩ := by
  have htoken : ∀ {passed rest : List Token},
      buffer = front ++ opening :: (passed.reverse ++ rest) →
        buffer[front.length + 1 + passed.length]? = rest.head? := by
    rintro passed rest rfl
    rw [Nat.add_assoc, List.getElem?_append_right (by omega)]
    simp [Nat.add_comm 1, List.getElem?_append_right, List.head?_eq_getElem?]
  have hopening : buffer[front.length]?.getD .null = opening := by
    simp [hbuffer]
  fun_induction Frame.passQuoted opening passed inner rest generalizing innerPlaces with
  | case1 passed inner =>
    refine ⟨innerPlaces, hinner, hbuffer, glide_of_none ?_⟩
    simp [asWritten?, htoken hbuffer]
  | case2 passed inner t rest hplain ih =>
    rw [glide_of_some (asWritten?_skip (htoken hbuffer) (by simpa using hplain))]
    exact ih (by simpa using hbuffer) hinner
  | case3 passed inner t rest hplain hopens ih =>
    have hcount : (if t.quotes then inner.countP Token.quotes + 1 + 1
        else inner.countP Token.quotes + 1) = (t :: inner).countP Token.quotes + 1 := by
      rw [List.countP_cons]
      split_ifs <;> rfl
    rw [glide_of_some (asWritten?_enter (htoken hbuffer) (by simpa using hplain)
      (by simpa using hopens)), hcount]
    exact ih (by simpa using hbuffer) (.cons (htoken hbuffer) hinner)
  | case4 passed t rest hplain hopens top others hmatch ih =>
    cases hinner with
    | @cons o _ opens _ htop hothers =>
      have hleft : (if top.quotes then (top :: others).countP Token.quotes
          else (top :: others).countP Token.quotes + 1) = others.countP Token.quotes + 1 := by
        rw [List.countP_cons]
        split_ifs <;> rfl
      rw [List.cons_append, glide_of_some (asWritten?_leave (htoken hbuffer) (by simp [htop])
        (by simpa using hplain) (by simpa using hopens) hmatch hleft)]
      exact ih (by simpa using hbuffer) hothers
  | case5 passed t rest hplain hopens top others hmismatch =>
    refine ⟨innerPlaces, hinner, hbuffer, glide_of_none ?_⟩
    cases hinner with
    | cons htop _ =>
      exact asWritten?_stuck (htoken hbuffer) (by simp [htop]) (by simpa using hplain)
        (by simpa using hopens) (.inl (Bool.eq_false_iff.mpr hmismatch))
  | case6 passed t rest hplain hopens =>
    cases hinner
    refine ⟨[], .nil, hbuffer, glide_of_none ?_⟩
    exact asWritten?_stuck (htoken hbuffer) hopening (by simpa using hplain)
      (by simpa using hopens) (.inr (if_pos hquotes))

/-! ### The cursor does what the scan does -/

theorem glide_eq_self {c : Cursor} (h : c.quoting = 0) : c.glide = c :=
  glide_of_none (asWritten?_eq_none h)

/-- Passing an opening bracket. -/
theorem tracks_enter {frames : List Frame} (hframes : Plain frames) (t : Token) (rest : List Token)
    (hops : Nat) : ∃ s, Scan.openFrame t rest frames = .more s ∧
      Tracks before s (enter ⟨passed before frames ++ t :: rest, places before frames, 0,
        (passed before frames).length, hops⟩ t).glide := by
  unfold Scan.openFrame enter
  cases hquotes : t.quotes with
  | false =>
    have htracks : Tracks before ⟨.start t :: frames, rest, 0⟩
        ⟨passed before (.start t :: frames) ++ rest, places before (.start t :: frames), 0,
          (passed before (.start t :: frames)).length, 0⟩ :=
      .plain (List.forall_mem_cons.mpr ⟨⟨hquotes, rfl⟩, hframes⟩) rest 0
    refine ⟨_, rfl, ?_⟩
    rw [glide_eq_self rfl]
    simpa [passed_cons, Frame.start, places] using htracks
  | true =>
    have hwhole : passed before frames ++ t :: rest =
        passed before frames ++ t :: (([] : List Token).reverse ++ rest) := rfl
    obtain ⟨inner, hinner, hbuffer, hglide⟩ :=
      glide_passQuoted hquotes (places before frames) [] [] rest hwhole .nil
    have hopening := Frame.opening_passQuoted t [] [] rest
    have hclosing := isClosing_passQuoted t [] [] rest
    have hstuck := Frame.innermost_passQuoted t [] [] rest
    refine ⟨_, rfl, ?_⟩
    generalize Frame.passQuoted t [] [] rest = r at *
    obtain ⟨f, left⟩ := r
    dsimp only at *
    have hpassed : passed before frames ++ t :: rest = passed before (f :: frames) ++ left := by
      rw [passed_cons, hopening]
      simpa using hbuffer
    have hplace : (passed before frames).length + 1 + f.passed.length =
        (passed before (f :: frames)).length := by
      simp [passed_cons, Nat.add_assoc, Nat.add_comm 1]
    rw [hpassed] at hinner
    rw [hplace, hpassed] at hglide
    rw [hpassed]
    refine hglide.symm ▸ .quoted (hopening.symm ▸ hquotes) hframes hinner hclosing ?_
    exact hstuck.imp_right fun h u hu ↦ (h u left.tail (List.eq_cons_of_mem_head? hu)).2

/-- Passing a complete token. -/
theorem tracks_pass {frames : List Frame} (hframes : Plain frames) (t : Token) (rest : List Token)
    (hops : Nat) :
    let c : Cursor := ⟨passed before frames ++ t :: rest, places before frames, 0,
      (passed before frames).length, hops⟩
    (∃ s c', Scan.pass t rest frames = .more s ∧ c.pass = .more c' ∧ Tracks before s c'.glide) ∨
      Scan.pass t rest frames = .over (.value t rest) ∧
        c.pass = .over (.behind before (.value t rest)) := by
  intro c
  cases frames with
  | nil =>
    refine .inr ⟨rfl, ?_⟩
    simp [c, pass, places, passed, StepAnswer.behind]
  | cons f frames =>
    refine .inl ⟨_, _, rfl, rfl, ?_⟩
    obtain ⟨hf, hframes⟩ := List.forall_mem_cons.mp hframes
    have hplain : Plain (⟨f.opening, t :: f.passed, f.inner⟩ :: frames) :=
      List.forall_mem_cons.mpr ⟨hf, hframes⟩
    rw [glide_eq_self rfl]
    simpa [c, passed_cons, places, Nat.add_assoc] using Tracks.plain hplain rest 0

/-- What follows a round of a cursor and what follows a step of its scan. -/
structure Matches {β : Type} (before : List Token) (k : Progress → EvalM β)
    (k' : Scan.Progress → EvalM β) : Prop where
  goesOn : ∀ s c, Tracks before s c.glide → k (.more c) = k' (.more s)
  ends : ∀ r, k (.over (.behind before r)) = k' (.over r)

section Simulation

variable {β : Type} {k : Progress → EvalM β} {k' : Scan.Progress → EvalM β}
  (hk : Matches before k k') (ev : Evaluator) (fuel : Nat) (id : ScopeId)
include hk

theorem giveUp_tracks (h : Tracks before s c) (f : Failure) :
    c.giveUp f >>= k = s.giveUp f >>= k' := by
  unfold giveUp Scan.giveUp
  rw [pure_bind, pure_bind, h.buffer_eq]
  exact hk.ends (.failed f s.buffer)

/-- At the end of the buffer both are over, with nothing or with the innermost bracket that was
never closed. -/
theorem finish_tracks (h : Tracks before s c) (hrest : s.rest = []) :
    c.finish >>= k = s.finish >>= k' := by
  obtain ⟨frames, rest, hops⟩ := s
  cases hrest
  cases frames with
  | nil =>
    obtain rfl := h.nil
    unfold finish Scan.finish
    rw [pure_bind, pure_bind, List.append_nil]
    exact hk.ends .nothing
  | cons f frames =>
    obtain ⟨o, opens, hopens, hopening⟩ := h.innermost
    unfold finish Scan.finish
    rw [hopens]
    dsimp only
    rw [hopening]
    exact giveUp_tracks hk h _

/-- At a closing bracket the cursor and the scan go on alike: both stop over a mismatch, both close
the same region, and what takes its place stands where the region began. -/
theorem leave_tracks {frames : List Frame} {t : Token} {rest : List Token} {hops : Nat}
    (h : Tracks before ⟨frames, t :: rest, hops⟩ c) : c.leave ev fuel id t >>= k =
      Scan.closeFrame ev fuel id ⟨frames, t :: rest, hops⟩ t rest >>= k' := by
  unfold leave Scan.closeFrame
  cases frames with
  | nil =>
    obtain rfl := h.nil
    exact giveUp_tracks hk h _
  | cons f frames =>
    obtain ⟨o, opens, hopens, hopening⟩ := h.innermost
    rw [hopens]
    dsimp only
    rw [hopening]
    split_ifs with hmismatch hwritten
    · exact giveUp_tracks hk h _
    · have hmatch : f.innermost.closesWith t = true := by simpa using hmismatch
      obtain ⟨-, hplaces, hquoting⟩ := h.closing hmatch
      obtain ⟨rfl, rfl⟩ := List.cons.inj (hopens.symm.trans hplaces)
      omega
    · have hmatch : f.innermost.closesWith t = true := by simpa using hmismatch
      obtain ⟨hframes, hplaces, hquoting⟩ := h.closing hmatch
      obtain ⟨rfl, rfl⟩ := List.cons.inj (hopens.symm.trans hplaces)
      have hclose : ev.closeAt fuel id c.buffer (passed before frames).length (c.place + 1) =
          (fun placed ↦ passed before frames ++ (placed ++ rest)) <$>
            ev.close fuel id f.opening f.passed.reverse := by
        obtain ⟨hbuffer, hplace⟩ := h.position
        rw [← Evaluator.closeAt_eq ev fuel id (passed before frames) t, hbuffer, hplace]
        simp [passed_cons, Nat.add_assoc, Nat.add_comm 1]
      rw [close, hclose, hquoting, EvalM.attempt_map]
      simp only [bind_map_left, bind_assoc]
      refine bind_congr fun answer ↦ ?_
      cases answer with
      | error failure => exact giveUp_tracks hk h failure
      | ok placed =>
        refine hk.goesOn ⟨frames, placed ++ rest, 0⟩ _ ?_
        rw [glide_eq_self rfl]
        exact .plain hframes _ 0

/-- At a pending token both count the same hop and both let it act on the same tokens. -/
theorem resolve_tracks {frames : List Frame} (hframes : Plain frames) (t : Token)
    (rest : List Token) (hops : Nat) :
    resolve ev fuel id ⟨passed before frames ++ t :: rest, places before frames, 0,
        (passed before frames).length, hops⟩ t >>= k =
      Scan.resolveFront ev fuel id ⟨frames, t :: rest, hops⟩ t rest >>= k' := by
  have htracks : Tracks before ⟨frames, t :: rest, hops⟩ _ := .plain hframes (t :: rest) hops
  unfold resolve Scan.resolveFront
  simp only [bind_assoc]
  refine bind_congr fun scope ↦ ?_
  split_ifs
  · exact giveUp_tracks hk htracks _
  rw [Evaluator.actAt_eq, EvalM.attempt_map]
  simp only [bind_map_left, bind_assoc]
  refine bind_congr fun answer ↦ ?_
  cases answer with
  | error failure => exact giveUp_tracks hk htracks failure
  | ok answer =>
    obtain ⟨placed, after⟩ := answer
    have hhops : (if placed.isEmpty then 0 else hops + 1) =
        if placed.length = 0 then 0 else hops + 1 := by
      cases placed <;> rfl
    refine hk.goesOn _ _ ?_
    rw [glide_eq_self rfl, hhops]
    exact .plain hframes (placed ++ after) _

/-- A round of a cursor does what a step of its scan does. -/
theorem advance_tracks (h : Tracks before s c) :
    c.advance ev fuel id >>= k = s.advance ev fuel id >>= k' := by
  have htoken := h.token
  obtain ⟨frames, rest, hops⟩ := s
  unfold advance Scan.advance
  rw [htoken]
  cases rest with
  | nil => exact finish_tracks hk h rfl
  | cons t rest =>
    dsimp only [List.head?_cons]
    by_cases hclosing : t.isClosing = true
    · obtain ⟨hdelimiter, hcloses⟩ := Bool.and_eq_true_iff.mp hclosing
      rw [if_pos hdelimiter, if_pos hdelimiter, if_pos hcloses, if_pos hcloses]
      exact leave_tracks hk ev fuel id h
    · obtain ⟨hframes, rfl⟩ := h.plain_of_not_closing (Bool.eq_false_iff.mpr hclosing)
      split_ifs with hdelimiter hcloses hquoting hcomplete
      · exact absurd (Bool.and_eq_true_iff.mpr ⟨hdelimiter, hcloses⟩) hclosing
      · obtain ⟨s, hopen, htracks⟩ := tracks_enter hframes t rest hops
        rw [hopen, pure_bind, pure_bind]
        exact hk.goesOn _ _ htracks
      · exact absurd hquoting (Nat.lt_irrefl 0)
      · exact absurd hquoting (Nat.lt_irrefl 0)
      · rw [pure_bind, pure_bind]
        rcases tracks_pass hframes t rest hops with ⟨s, c, hs, hc, htracks⟩ | ⟨hs, hc⟩
        · rw [hs, hc]
          exact hk.goesOn _ _ htracks
        · rw [hs, hc]
          exact hk.ends _
      · exact resolve_tracks hk ev fuel id hframes t rest hops

end Simulation

/-- The cursor of a scan comes to what the scan comes to, behind the tokens that it started after.
Nested evaluations start cursors of their own, at the front of their buffers. -/
theorem run_eq_of_tracks (bound : Nat) (id : ScopeId) (h : Tracks before s c.glide) :
    run bound id c = StepAnswer.behind before <$> Scan.run bound id s := by
  induction bound generalizing before s c id with
  | zero => rfl
  | succ bound ih =>
    have hev : (fun scope tokens ↦ StepAnswer.reduction <$> run bound scope (start tokens 0)) =
        fun scope tokens ↦ Scan.run bound scope (.start tokens) := by
      funext scope tokens
      have htracks : Tracks [] (.start tokens) (start tokens 0).glide := by
        rw [glide_eq_self rfl]
        exact tracks_start [] tokens
      rw [ih scope htracks, StepAnswer.reduction_map_behind]
    rw [run, Scan.run, hev, map_bind]
    refine advance_tracks ⟨fun s c htracks ↦ ih id htracks, fun r ↦ ?_⟩ _ bound id h
    rw [map_pure]

/-- A cursor that starts at a place of a buffer comes to what the scan of the tokens from there on
comes to, behind those before. -/
theorem run_start (bound : Nat) (id : ScopeId) (buffer : List Token) (place : Nat) :
    run bound id (start buffer place) = StepAnswer.behind (buffer.take place) <$>
      Program.stepWithin bound id (buffer.drop place) := by
  rcases Nat.lt_or_ge buffer.length place with hplace | hplace
  · rw [List.take_of_length_le (Nat.le_of_lt hplace), List.drop_of_length_le (Nat.le_of_lt hplace)]
    cases bound with
    | zero => rfl
    | succ bound =>
      have hadvance : ∀ ev, (start buffer place).glide.advance ev bound id =
          pure (.over ⟨none, buffer, none⟩) := fun ev ↦ by
        rw [glide_eq_self rfl]
        simp [advance, start, List.getElem?_eq_none (Nat.le_of_lt hplace), finish]
      rw [run, hadvance]
      rfl
  · refine run_eq_of_tracks bound id ?_
    have htracks := tracks_start (buffer.take place) (buffer.drop place)
    rw [List.take_append_drop, List.length_take_of_le hplace] at htracks
    rwa [glide_eq_self rfl]

/-- A cursor on a buffer of its own comes to what the scan comes to. -/
theorem reduction_run (bound : Nat) (id : ScopeId) (tokens : List Token) :
    StepAnswer.reduction <$> run bound id (start tokens 0) =
      Program.stepWithin bound id tokens := by
  rw [run_start, List.drop_zero]
  exact StepAnswer.reduction_map_behind _

/-- Steps at a place of a buffer are runs of a cursor. -/
theorem stepAt_eq (id : ScopeId) (buffer : List Token) (place : Nat) :
    Program.stepAt id buffer place = run Program.stepBound id (start buffer place) := by
  rw [run_start, map_eq_pure_bind]
  rcases Nat.lt_or_ge buffer.length place with hplace | hplace
  · have hempty : Program.stepWithin Program.stepBound id (buffer.drop place) = pure .nothing := by
      rw [List.drop_of_length_le (Nat.le_of_lt hplace)]
      obtain ⟨bound, hbound⟩ : ∃ bound, Program.stepBound = bound + 1 := ⟨999999999999999, rfl⟩
      rw [hbound]
      rfl
    unfold Program.stepAt Program.step
    rw [hempty]
    rfl
  · refine bind_congr fun r ↦ ?_
    cases r with
    | value t rest => rw [StepAnswer.behind, List.length_take_of_le hplace]
    | nothing => rfl
    | failed f left => rfl

/-! ### Looking forward only -/

/-- Other tokens in front of a buffer are left as they are, and do not matter. -/
theorem run_shift (bound : Nat) (id : ScopeId) (before tokens : List Token) :
    run bound id (start (before ++ tokens) before.length) =
      StepAnswer.shift before <$> run bound id (start tokens 0) := by
  have hshift : StepAnswer.behind before = StepAnswer.shift before ∘ StepAnswer.behind [] :=
    funext fun r ↦ StepAnswer.behind_eq_shift before r
  rw [run_start, run_start, List.take_left, List.drop_left, hshift]
  exact comp_map _ _ _

/-- Reduces a whole buffer, each step on what the steps before left of it, at the place after the
token they gave. -/
def collect (bound : Nat) (id : ScopeId) :
    Nat → List Token → List Token → Nat → EvalM (List Token × Option Failure)
  | 0, _, _, _ => throw .exhausted
  | rounds + 1, done, buffer, place => do
    let a ← run bound id (start buffer place)
    match a.failure, a.place with
    | some f, _ => return (done.reverse, some f)
    | none, none => return (done.reverse, none)
    | none, some i => collect bound id rounds (a.buffer[i]?.getD .null :: done) a.buffer (i + 1)

/-- Reducing a shared buffer is reducing what is left of it, over and over, as a buffer of its
own. -/
theorem collect_eq (bound : Nat) (id : ScopeId) (rounds : Nat) (done buffer : List Token)
    (place : Nat) : collect bound id rounds done buffer place =
      (Program.stepWithin bound).collect id rounds done (buffer.drop place) := by
  induction rounds generalizing done buffer place with
  | zero => rfl
  | succ rounds ih =>
    rw [collect, Evaluator.collect, run_start, bind_map_left]
    refine bind_congr fun r ↦ ?_
    cases r with
    | value t rest =>
      refine (ih _ _ _).trans ?_
      generalize buffer.take place = before
      simp [StepAnswer.behind]
    | nothing => rfl
    | failed f left => rfl

end Cursor

/-- Tokens given before stand in front of those that a buffer reduces to. -/
theorem Evaluator.collect_done (ev : Evaluator) (id : ScopeId) (rounds : Nat)
    (done tokens : List Token) : ev.collect id rounds done tokens =
      (fun answer ↦ (done.reverse ++ answer.1, answer.2)) <$> ev.collect id rounds [] tokens := by
  induction rounds generalizing done tokens with
  | zero => rfl
  | succ rounds ih =>
    rw [collect, collect, map_bind]
    refine bind_congr fun r ↦ ?_
    cases r with
    | value t rest =>
      dsimp only
      rw [ih (t :: done), ih [t], ← comp_map]
      simp [Function.comp_def]
    | nothing => simp
    | failed f left => simp

/-- A scan looks only forward. From a place of a buffer on it does what it does on the tokens from
there on as a buffer of their own: the same failure or the same result, at a place that is further
on by what stands before, with the same effects, and what stands before is left as it is. So
reducing a buffer is taking the first complete token and reducing what follows it on its own. -/
theorem Cursor.forward_only (bound rounds : Nat) (id : ScopeId) (before tokens : List Token) :
    run bound id (start (before ++ tokens) before.length) =
        StepAnswer.shift before <$> run bound id (start tokens 0) ∧
      (∀ place, Program.stepAt id tokens place = run Program.stepBound id (start tokens place)) ∧
      Program.stepAt id (before ++ tokens) before.length =
        StepAnswer.shift before <$> Program.stepAt id tokens 0 ∧
      collect bound id rounds [] tokens 0 =
        (Program.stepWithin bound).collect id rounds [] tokens ∧
      collect bound id (rounds + 1) [] tokens 0 = do
        match ← StepAnswer.reduction <$> run bound id (start tokens 0) with
        | .value t rest =>
          (fun answer ↦ (t :: answer.1, answer.2)) <$> collect bound id rounds [] rest 0
        | .nothing => return ([], none)
        | .failed f _ => return ([], some f) := by
  refine ⟨run_shift bound id before tokens, stepAt_eq id tokens, ?_, ?_, ?_⟩
  · rw [stepAt_eq, stepAt_eq, run_shift]
  · rw [collect_eq, List.drop_zero]
  · rw [collect_eq, List.drop_zero, reduction_run, Evaluator.collect]
    refine bind_congr fun r ↦ ?_
    cases r with
    | value t rest =>
      dsimp only
      rw [Evaluator.collect_done, collect_eq, List.drop_zero]
      simp
    | nothing => rfl
    | failed f left => rfl

end TokenLang

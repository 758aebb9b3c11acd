import TokenLang.Proofs.Eval.Forward
import TokenLang.Proofs.Eval.Intact
import TokenLang.Proofs.Eval.Parts

/-!
What a scan has passed is complete. The buffer changes under a cursor at every round, and the places
that it has kept stay good: they are those of opening brackets, each before the next, none before
the start (`Cursor.Sound`). Everything it has passed is complete, but for open brackets and what
stands inside one that quotes. So a region that is closed has complete tokens between its brackets
unless it was left as written, a step that ends with a result ends at a complete token, and no value
is missing from an answer. Main statement: `Cursor.complete_throughout`.
-/

set_option autoImplicit false
set_option relaxedAutoImplicit false

namespace TokenLang

open Program (StepAnswer replace)

/-- A token that can be handed out: it is no bracket, there is nothing to be resolved about it, and
it has a value. -/
structure Token.Complete (t : Token) : Prop where
  isComplete : t.isComplete = true
  plain : t.isDelimiter = false
  kind : t.kind ∈ [.resolved, .function, .expander, .varying]
  value : t.value?.isSome = true

theorem Token.complete_of_isComplete {t : Token} (h : t.isComplete = true) : t.Complete := by
  refine ⟨h, isDelimiter_of_isComplete h, ?_, value?_of_isComplete h⟩
  cases t with
  | done v pos => cases v <;> simp [Token.kind]
  | varying v ref => simp [Token.kind]
  | _ => cases h

namespace Cursor

/-! ### What a round does -/

/-- The next round closes the region from an open bracket on. -/
def Closes (c : Cursor) (o : Nat) : Prop :=
  ∃ t opens, c.buffer[c.place]? = some t ∧ t.isClosing = true ∧ c.opens = o :: opens ∧
    (c.openingAt o).closesWith t = true ∧ c.quotingWithout o = 0

/-- What a round can come to. -/
inductive Round (c : Cursor) : Progress → Prop
  | enter {t : Token} (ht : c.buffer[c.place]? = some t) (hopening : t.isOpening = true) :
      Round c (.more (c.enter t))
  | skip {t : Token} (ht : c.buffer[c.place]? = some t) (hplain : t.isDelimiter = false)
      (hquoting : 0 < c.quoting) : Round c (.more c.skip)
  | pass {t : Token} (ht : c.buffer[c.place]? = some t) (hcomplete : t.isComplete = true)
      (hquoting : c.quoting = 0) : Round c (.more { c with place := c.place + 1, hops := 0 })
  | leave {o : Nat} {opens : List Nat} (hopens : c.opens = o :: opens)
      (hquoting : 0 < c.quotingWithout o) :
      Round c (.more ⟨c.buffer, opens, c.quotingWithout o, c.place + 1, c.hops⟩)
  | close {o : Nat} {opens : List Nat} (hcloses : c.Closes o) (hopens : c.opens = o :: opens)
      (placed : List Token) : Round c (.more ⟨c.buffer.take o ++ placed, opens, 0, o, 0⟩)
  | resolve {t : Token} (ht : c.buffer[c.place]? = some t) (hquoting : c.quoting = 0)
      (placed : List Token) (hops : Nat) :
      Round c (.more ⟨c.buffer.take c.place ++ placed, c.opens, 0, c.place, hops⟩)
  | found {t : Token} (ht : c.buffer[c.place]? = some t) (hcomplete : t.isComplete = true) :
      Round c (.over ⟨some c.place, c.buffer, none⟩)
  | without {a : StepAnswer} (ha : a.place = none) : Round c (.over a)

section Rounds

variable {ev : Evaluator} {fuel : Nat} {id : ScopeId} {w : World} {c : Cursor} {p : Progress}

theorem round_of_giveUp {f : Failure} (h : (c.giveUp f).outcome w = .ok p) : Round c p := by
  cases h
  exact .without rfl

/-- Closing a region changes nothing before it. -/
theorem round_of_close {o : Nat} {opens : List Nat} (hcloses : c.Closes o)
    (hopens : c.opens = o :: opens) (h : (c.close ev fuel id o opens).outcome w = .ok p) :
    Round c p := by
  have hquoting : c.quotingWithout o = 0 := by
    obtain ⟨-, -, -, -, -, -, hquoting⟩ := hcloses
    exact hquoting
  obtain ⟨answer, hanswer, h⟩ := EvalM.ok_of_bind h
  cases answer with
  | error failure => exact round_of_giveUp h
  | ok buffer =>
    cases h
    obtain ⟨placed, -, hplaced⟩ := EvalM.ok_of_bind (EvalM.ok_of_attempt hanswer)
    cases hplaced
    rw [hquoting, replace, List.append_assoc]
    exact .close hcloses hopens _

theorem round_of_leave {t : Token} (ht : c.buffer[c.place]? = some t)
    (hclosing : t.isClosing = true) (h : (c.leave ev fuel id t).outcome w = .ok p) : Round c p := by
  unfold leave at h
  cases hopens : c.opens with
  | nil =>
    rw [hopens] at h
    exact round_of_giveUp h
  | cons o opens =>
    rw [hopens] at h
    dsimp only at h
    split_ifs at h with hmismatch hwritten
    · exact round_of_giveUp h
    · cases h
      exact .leave hopens hwritten
    · have hmatch : (c.openingAt o).closesWith t = true := by simpa using hmismatch
      exact round_of_close ⟨t, opens, ht, hclosing, hopens, hmatch, by omega⟩ hopens h

/-- What acts at a place of a buffer changes nothing before it. -/
theorem exists_of_actAt {t : Token} {buffer buffer' : List Token} {i n : Nat}
    (ht : buffer[i]? = some t)
    (h : (ev.actAt fuel id t buffer i).outcome w = .ok (n, buffer')) :
    ∃ placed, buffer' = buffer.take i ++ placed := by
  obtain ⟨hi, rfl⟩ := List.getElem?_eq_some_iff.mp ht
  have hact := Evaluator.actAt_eq ev fuel id (buffer.take i) buffer[i] (buffer.drop (i + 1))
  rw [← List.drop_eq_getElem_cons hi, List.take_append_drop,
    List.length_take_of_le (Nat.le_of_lt hi)] at hact
  rw [hact, map_eq_pure_bind] at h
  obtain ⟨answer, -, hanswer⟩ := EvalM.ok_of_bind h
  cases hanswer
  exact ⟨_, rfl⟩

theorem round_of_resolve {t : Token} (ht : c.buffer[c.place]? = some t)
    (hquoting : c.quoting = 0) (h : (c.resolve ev fuel id t).outcome w = .ok p) : Round c p := by
  obtain ⟨scope, -, h⟩ := EvalM.ok_of_bind h
  split_ifs at h
  · exact round_of_giveUp h
  obtain ⟨answer, hanswer, h⟩ := EvalM.ok_of_bind h
  cases answer with
  | error failure => exact round_of_giveUp h
  | ok answer =>
    obtain ⟨n, buffer⟩ := answer
    obtain ⟨placed, rfl⟩ := exists_of_actAt ht (EvalM.ok_of_attempt hanswer)
    cases h
    rw [hquoting]
    exact .resolve ht hquoting placed _

theorem round_of_finish (h : c.finish.outcome w = .ok p) : Round c p := by
  unfold finish at h
  split at h
  · cases h
    exact .without rfl
  · exact round_of_giveUp h

theorem round_pass {t : Token} (ht : c.buffer[c.place]? = some t) (hcomplete : t.isComplete = true)
    (hquoting : c.quoting = 0) : Round c c.pass := by
  unfold pass
  split
  · exact .found ht hcomplete
  · exact .pass ht hcomplete hquoting

/-- A round comes to nothing else, whatever the evaluations inside it do. -/
theorem round_of_advance (h : (c.advance ev fuel id).outcome w = .ok p) : Round c p := by
  unfold advance at h
  cases ht : c.buffer[c.place]? with
  | none =>
    rw [ht] at h
    exact round_of_finish h
  | some t =>
    rw [ht] at h
    dsimp only at h
    split_ifs at h with hdelimiter hcloses hquoting hcomplete
    · exact round_of_leave ht (by simp [Token.isClosing, hdelimiter, hcloses]) h
    · cases h
      exact .enter ht (by simp [Token.isOpening, hdelimiter, hcloses])
    · cases h
      exact .skip ht (Bool.eq_false_iff.mpr hdelimiter) hquoting
    · cases h
      exact round_pass ht hcomplete (by omega)
    · exact round_of_resolve ht (by omega) h

/-- Where a region is closed, that is all that the round does. -/
theorem advance_of_closes {o : Nat} (h : c.Closes o) :
    c.advance ev fuel id = c.close ev fuel id o c.opens.tail := by
  obtain ⟨t, opens, ht, hclosing, hopens, hmatch, hquoting⟩ := h
  obtain ⟨hdelimiter, hcloses⟩ := Bool.and_eq_true_iff.mp hclosing
  simp [advance, ht, hdelimiter, hcloses, leave, hopens, hmatch, hquoting]

end Rounds

/-! ### Places that stay good -/

/-- The places that a cursor keeps are good ones, and what it has passed is complete, but for open
brackets and what stands inside one that quotes. -/
structure Sound (first : Nat) (c : Cursor) : Prop where
  reached : first ≤ c.place
  increasing : c.opens.Pairwise (· > ·)
  within : ∀ o ∈ c.opens, first ≤ o ∧ o < c.place
  opening : ∀ o ∈ c.opens, ∃ t, c.buffer[o]? = some t ∧ t.isOpening = true
  quoting : c.quoting = c.opens.countP fun o ↦ (c.openingAt o).quotes
  complete : ∀ j, first ≤ j → j < c.place → j ∈ c.opens ∨
    (∃ o ∈ c.opens, o < j ∧ (c.openingAt o).quotes = true) ∨
    ∃ t, c.buffer[j]? = some t ∧ t.isComplete = true

theorem sound_start (buffer : List Token) (first : Nat) : Sound first (start buffer first) :=
  ⟨le_refl first, .nil, fun _ ho ↦ absurd ho List.not_mem_nil,
    fun _ ho ↦ absurd ho List.not_mem_nil, rfl, fun _ hj hlt ↦ absurd hj (Nat.not_le.mpr hlt)⟩

section Sound

variable {first : Nat} {c : Cursor}

/-- Closing a bracket leaves as many quoting ones as there are among the others. -/
theorem Sound.quotingWithout_eq (h : Sound first c) {o : Nat} {opens : List Nat}
    (hopens : c.opens = o :: opens) :
    c.quotingWithout o = opens.countP fun o ↦ (c.openingAt o).quotes := by
  rw [quotingWithout, h.quoting, hopens, List.countP_cons]
  split_ifs <;> omega

/-- The place of a bracket that is entered joins the open regions. -/
theorem Sound.enter (h : Sound first c) {t : Token} (ht : c.buffer[c.place]? = some t)
    (hopening : t.isOpening = true) : Sound first (c.enter t) where
  reached := Nat.le_succ_of_le h.reached
  increasing := List.pairwise_cons.mpr ⟨fun o ho ↦ (h.within o ho).2, h.increasing⟩
  within := by
    refine List.forall_mem_cons.mpr ⟨⟨h.reached, Nat.lt_succ_self _⟩, fun o ho ↦ ?_⟩
    exact ⟨(h.within o ho).1, Nat.lt_succ_of_lt (h.within o ho).2⟩
  opening := List.forall_mem_cons.mpr ⟨⟨t, ht, hopening⟩, h.opening⟩
  quoting := by
    have hplace : (c.enter t).openingAt c.place = t := by
      simp [openingAt, Cursor.enter, ht]
    have hquoting := h.quoting
    show (if t.quotes then c.quoting + 1 else c.quoting) = List.countP _ (c.place :: c.opens)
    rw [List.countP_cons, hplace, hquoting]
    split_ifs <;> rfl
  complete := by
    intro j hj hlt
    rcases Nat.lt_succ_iff_lt_or_eq.mp hlt with hlt | rfl
    · rcases h.complete j hj hlt with hmem | ⟨o, ho, hquotes⟩ | hcomplete
      · exact .inl (List.mem_cons_of_mem _ hmem)
      · exact .inr (.inl ⟨o, List.mem_cons_of_mem _ ho, hquotes⟩)
      · exact .inr (.inr hcomplete)
    · exact .inl (List.mem_cons_self ..)

/-- Some open bracket quotes while the count says so. -/
theorem exists_quotes {opens : List Nat}
    (h : 0 < opens.countP fun o ↦ (c.openingAt o).quotes) :
    ∃ o ∈ opens, (c.openingAt o).quotes = true :=
  List.countP_pos_iff.mp h

theorem Sound.skip (h : Sound first c) (hquoting : 0 < c.quoting) : Sound first c.skip where
  reached := Nat.le_succ_of_le h.reached
  increasing := h.increasing
  within o ho := ⟨(h.within o ho).1, Nat.lt_succ_of_lt (h.within o ho).2⟩
  opening := h.opening
  quoting := h.quoting
  complete := by
    intro j hj hlt
    rcases Nat.lt_succ_iff_lt_or_eq.mp hlt with hlt | rfl
    · exact h.complete j hj hlt
    · obtain ⟨o, ho, hquotes⟩ := exists_quotes (h.quoting ▸ hquoting)
      exact .inr (.inl ⟨o, ho, (h.within o ho).2, hquotes⟩)

theorem Sound.pass (h : Sound first c) {t : Token} (ht : c.buffer[c.place]? = some t)
    (hcomplete : t.isComplete = true) :
    Sound first { c with place := c.place + 1, hops := 0 } where
  reached := Nat.le_succ_of_le h.reached
  increasing := h.increasing
  within o ho := ⟨(h.within o ho).1, Nat.lt_succ_of_lt (h.within o ho).2⟩
  opening := h.opening
  quoting := h.quoting
  complete := by
    intro j hj hlt
    rcases Nat.lt_succ_iff_lt_or_eq.mp hlt with hlt | rfl
    · exact h.complete j hj hlt
    · exact .inr (.inr ⟨t, ht, hcomplete⟩)

section Innermost

variable {o : Nat} {opens : List Nat} (hopens : c.opens = o :: opens)
include hopens

/-- The other open brackets stand before the innermost one. -/
theorem Sound.outer (h : Sound first c) : (∀ q ∈ opens, q < o) ∧ opens.Pairwise (· > ·) := by
  have hincreasing := h.increasing
  rw [hopens] at hincreasing
  exact List.pairwise_cons.mp hincreasing

/-- What stands before the innermost bracket has nothing to do with it. -/
theorem Sound.complete_outer (h : Sound first c) {j : Nat} (hj : first ≤ j) (hlt : j < o) :
    j ∈ opens ∨ (∃ q ∈ opens, q < j ∧ (c.openingAt q).quotes = true) ∨
      ∃ t, c.buffer[j]? = some t ∧ t.isComplete = true := by
  have hplace := (h.within o (by simp [hopens])).2
  rcases h.complete j hj (Nat.lt_trans hlt hplace) with hmem | ⟨q, hq, hqj, hquotes⟩ | hcomplete
  · rw [hopens] at hmem
    exact .inl (List.mem_of_ne_of_mem (Nat.ne_of_lt hlt) hmem)
  · rw [hopens] at hq
    exact .inr (.inl ⟨q, List.mem_of_ne_of_mem (by omega) hq, hqj, hquotes⟩)
  · exact .inr (.inr hcomplete)

theorem Sound.leave (h : Sound first c) (hquoting : 0 < c.quotingWithout o) :
    Sound first ⟨c.buffer, opens, c.quotingWithout o, c.place + 1, c.hops⟩ where
  reached := Nat.le_succ_of_le h.reached
  increasing := (h.outer hopens).2
  within q hq := by
    obtain ⟨hfirst, hlt⟩ := h.within q (by simp [hopens, hq])
    exact ⟨hfirst, Nat.lt_succ_of_lt hlt⟩
  opening q hq := h.opening q (by simp [hopens, hq])
  quoting := h.quotingWithout_eq hopens
  complete := by
    intro j hj _
    rcases Nat.lt_or_ge j o with hjo | hjo
    · exact h.complete_outer hopens hj hjo
    · obtain ⟨q, hq, hquotes⟩ := exists_quotes (h.quotingWithout_eq hopens ▸ hquoting)
      have hqo := (h.outer hopens).1 q hq
      exact .inr (.inl ⟨q, hq, Nat.lt_of_lt_of_le hqo hjo, hquotes⟩)

/-- Going back to where a region was. -/
theorem Sound.back (h : Sound first c) (hquoting : c.quotingWithout o = 0) :
    Sound first ⟨c.buffer, opens, 0, o, 0⟩ where
  reached := (h.within o (by simp [hopens])).1
  increasing := (h.outer hopens).2
  within q hq := ⟨(h.within q (by simp [hopens, hq])).1, (h.outer hopens).1 q hq⟩
  opening q hq := h.opening q (by simp [hopens, hq])
  quoting := hquoting.symm.trans (h.quotingWithout_eq hopens)
  complete _ hj hlt := h.complete_outer hopens hj hlt

end Innermost

/-- Changes from the place on leave what is before it. -/
theorem Sound.rewrite (h : Sound first c) (hplace : c.place ≤ c.buffer.length)
    (placed : List Token) (hops : Nat) :
    Sound first ⟨c.buffer.take c.place ++ placed, c.opens, c.quoting, c.place, hops⟩ := by
  have hsame : ∀ {j}, j < c.place → (c.buffer.take c.place ++ placed)[j]? = c.buffer[j]? := by
    intro j hj
    rw [List.getElem?_append_left (by rwa [List.length_take_of_le hplace]),
      List.getElem?_take_of_lt hj]
  have hopening : ∀ o ∈ c.opens, (c.buffer.take c.place ++ placed)[o]?.getD .null =
      c.openingAt o := fun o ho ↦ by
    rw [hsame (h.within o ho).2, openingAt]
  refine ⟨h.reached, h.increasing, h.within, fun o ho ↦ ?_, ?_, fun j hj hlt ↦ ?_⟩
  · obtain ⟨t, ht, hopen⟩ := h.opening o ho
    exact ⟨t, (hsame (h.within o ho).2).trans ht, hopen⟩
  · rw [h.quoting]
    refine List.countP_congr fun o ho ↦ ?_
    simp only [openingAt, hsame (h.within o ho).2]
  · rcases h.complete j hj hlt with hmem | ⟨o, ho, hoj, hquotes⟩ | ⟨t, ht, hcomplete⟩
    · exact .inl hmem
    · refine .inr (.inl ⟨o, ho, hoj, ?_⟩)
      rwa [openingAt, hopening o ho]
    · exact .inr (.inr ⟨t, (hsame hlt).trans ht, hcomplete⟩)

theorem Sound.round (h : Sound first c) {c' : Cursor} (hround : Round c (.more c')) :
    Sound first c' := by
  cases hround with
  | enter ht hopening => exact h.enter ht hopening
  | skip _ _ hquoting => exact h.skip hquoting
  | pass ht hcomplete _ => exact h.pass ht hcomplete
  | leave hopens hquoting => exact h.leave hopens hquoting
  | @close o opens hcloses hopens placed =>
    obtain ⟨-, -, -, -, -, -, hquoting⟩ := hcloses
    obtain ⟨t, ht, -⟩ := h.opening o (by simp [hopens])
    exact (h.back hopens hquoting).rewrite
      (Nat.le_of_lt (List.getElem?_eq_some_iff.mp ht).1) placed 0
  | resolve ht hquoting placed hops =>
    have hsound := h.rewrite (Nat.le_of_lt (List.getElem?_eq_some_iff.mp ht).1) placed hops
    rwa [hquoting] at hsound

/-- Between the brackets of a region that is closed, unless it was left as written, all tokens are
complete. -/
theorem Sound.complete_of_closes (h : Sound first c) {o : Nat} (hcloses : c.Closes o)
    (hplain : (c.openingAt o).quotes = false) :
    ∀ t ∈ c.buffer.extract (o + 1) c.place, t.Complete := by
  obtain ⟨_, opens, -, -, hopens, -, hwithout⟩ := hcloses
  have hquoting : c.quoting = 0 := by
    rwa [quotingWithout, hplain, if_neg (by simp)] at hwithout
  intro t ht
  rw [List.extract_eq_take_drop] at ht
  obtain ⟨k, hk⟩ := List.mem_iff_getElem?.mp ht
  rw [List.getElem?_take, List.getElem?_drop] at hk
  split_ifs at hk with hlt
  have hfirst := (h.within o (by simp [hopens])).1
  rcases h.complete (o + 1 + k) (by omega) (by omega) with hmem | ⟨q, hq, -, hquotes⟩ | hcomplete
  · rw [hopens] at hmem
    rcases List.mem_cons.mp hmem with heq | hmem
    · omega
    · have := (h.outer hopens).1 _ hmem
      omega
  · have hpos : 0 < c.quoting := h.quoting ▸ List.countP_pos_iff.mpr ⟨q, hq, hquotes⟩
    omega
  · obtain ⟨u, hu, hcomplete⟩ := hcomplete
    obtain rfl : u = t := Option.some.inj (hu.symm.trans hk)
    exact Token.complete_of_isComplete hcomplete

end Sound

/-! ### Runs -/

/-- Cursors that a run comes by, and the worlds then: those after any number of rounds, with any
bound on the evaluations inside each of them. -/
inductive Visits (id : ScopeId) : World → Cursor → World → Cursor → Prop
  | refl (w : World) (c : Cursor) : Visits id w c w c
  | head {w w' w'' : World} {c c' c'' : Cursor} (fuel : Nat)
      (hround : (c.advance (Program.stepWithin fuel) fuel id).run.run w = (.ok (.more c'), w'))
      (hmore : Visits id w' c' w'' c'') : Visits id w c w'' c''

section Runs

variable {id : ScopeId} {w w' : World} {c c' : Cursor} {first : Nat}

theorem Sound.visits (h : Visits id w c w' c') (hc : Sound first c) : Sound first c' := by
  induction h with
  | refl => exact hc
  | head fuel hround _ ih => exact ih (hc.round (round_of_advance (congrArg Prod.fst hround)))

/-- Rounds that leave a token as written are on the way. -/
theorem visits_of_glide (h : Visits id w c.glide w' c') : Visits id w c w' c' := by
  induction c using glide.induct with
  | case1 c next hnext ih =>
    rw [glide_of_some hnext] at h
    refine .head 0 ?_ (ih h)
    rw [advance_of_asWritten? _ _ _ hnext]
    rfl
  | case2 c hnone => rwa [glide_of_none hnone] at h

/-- A run that comes to an answer does so in a round of a cursor that it comes by. -/
theorem exists_visits {bound : Nat} {a : StepAnswer}
    (h : (run bound id c).run.run w = (.ok a, w')) : ∃ fuel w₁ c₁, Visits id w c w₁ c₁ ∧
      (c₁.advance (Program.stepWithin fuel) fuel id).run.run w₁ = (.ok (.over a), w') := by
  induction bound generalizing w c with
  | zero => cases h
  | succ bound ih =>
    have hev : (fun scope tokens ↦ StepAnswer.reduction <$> run bound scope (start tokens 0)) =
        Program.stepWithin bound := by
      funext scope tokens
      exact reduction_run bound scope tokens
    rw [run, hev, EvalM.run_bind] at h
    cases hround : (c.glide.advance (Program.stepWithin bound) bound id).outcome w with
    | error stop =>
      rw [hround] at h
      cases h
    | ok p =>
      rw [hround] at h
      have hrun : (c.glide.advance (Program.stepWithin bound) bound id).run.run w =
          (.ok p, (c.glide.advance (Program.stepWithin bound) bound id).after w) :=
        Prod.ext hround rfl
      cases p with
      | more next =>
        obtain ⟨fuel, w₁, c₁, hvisits, hover⟩ := ih h
        exact ⟨fuel, w₁, c₁, visits_of_glide (.head bound hrun hvisits), hover⟩
      | «over» answer =>
        cases h
        exact ⟨bound, w, c.glide, visits_of_glide (.refl w c.glide), hrun⟩

/-- A step that ends with a result ends at a complete token, not before its start. -/
theorem complete_of_run {bound : Nat} {buffer : List Token} {a : StepAnswer} {i : Nat}
    (h : (run bound id (start buffer first)).outcome w = .ok a) (ha : a.place = some i) :
    first ≤ i ∧ ∃ t, a.buffer[i]? = some t ∧ t.Complete := by
  obtain ⟨fuel, w₁, c₁, hvisits, hover⟩ := exists_visits
    (show (run bound id (start buffer first)).run.run w = (.ok a, _) from Prod.ext h rfl)
  have hround := round_of_advance (congrArg Prod.fst hover)
  cases hround with
  | found ht hcomplete =>
    cases ha
    exact ⟨((sound_start buffer first).visits hvisits).reached, _, ht,
      Token.complete_of_isComplete hcomplete⟩
  | without hnone => exact absurd (hnone.symm.trans ha) (by simp)

end Runs

end Cursor

/-! ### Answers -/

section Answers

variable {bound : Nat} {id : ScopeId} {w : World}

/-- What a buffer reduces to first is complete. -/
theorem Program.complete_of_stepWithin {tokens rest : List Token} {t : Token}
    (h : (stepWithin bound id tokens).outcome w = .ok (.value t rest)) : t.Complete := by
  rw [← Cursor.reduction_run, map_eq_pure_bind] at h
  obtain ⟨a, ha, h⟩ := EvalM.ok_of_bind h
  have hreduction : a.reduction = .value t rest := Except.ok.inj h
  obtain ⟨place, buffer, failure⟩ := a
  unfold StepAnswer.reduction at hreduction
  split at hreduction
  · cases hreduction
  · rename_i i hfailure hplace
    obtain ⟨-, u, hu, hcomplete⟩ := Cursor.complete_of_run ha hplace
    dsimp only at hu hreduction
    rw [hu] at hreduction
    cases hreduction
    exact hcomplete
  · cases hreduction

/-- So is all that it reduces to. -/
theorem Evaluator.complete_of_collect {rounds : Nat} {done tokens out : List Token}
    {failure : Option Failure} (hdone : ∀ t ∈ done, t.Complete)
    (h : ((Program.stepWithin bound).collect id rounds done tokens).outcome w =
      .ok (out, failure)) : ∀ t ∈ out, t.Complete := by
  induction rounds generalizing done tokens w with
  | zero => cases h
  | succ rounds ih =>
    obtain ⟨r, hr, h⟩ := EvalM.ok_of_bind h
    cases r with
    | value t rest =>
      exact ih (List.forall_mem_cons.mpr ⟨Program.complete_of_stepWithin hr, hdone⟩) h
    | nothing =>
      cases h
      exact fun t ht ↦ hdone t (List.mem_reverse.mp ht)
    | failed f left =>
      cases h
      exact fun t ht ↦ hdone t (List.mem_reverse.mp ht)

/-- So is the value of a form on its own. -/
theorem Evaluator.complete_of_next {args rest : List Token} {t : Token}
    (h : ((Program.stepWithin bound).next id args).outcome w = .ok (some t, rest)) :
    t.Complete := by
  cases args with
  | nil => cases h
  | cons u args =>
    obtain ⟨⟨form, left⟩, -, h⟩ := EvalM.ok_of_bind h
    obtain ⟨r, hr, h⟩ := EvalM.ok_of_bind h
    cases r with
    | value v after =>
      cases h
      exact Program.complete_of_stepWithin hr
    | nothing => cases h
    | failed f after => cases h

end Answers

theorem Token.map_value?_of_complete {tokens : List Token} (h : ∀ t ∈ tokens, t.Complete) :
    (tokens.filterMap Token.value?).map some = tokens.map Token.value? := by
  induction tokens with
  | nil => rfl
  | cons t tokens ih =>
    obtain ⟨ht, htokens⟩ := List.forall_mem_cons.mp h
    obtain ⟨v, hv⟩ := Option.isSome_iff_exists.mp ht.value
    simp [hv, ih htokens]

/-- Throughout a step on a buffer, from any start, the places of open brackets are each before the
next, none is before the start, and all are those of opening brackets; the tokens between the
brackets of a region that is closed are complete, unless the region was left as written; and the
result, if there is one, is a complete token not before the start. So all that a buffer reduces to
is complete, and no value is missing from an answer. -/
theorem Cursor.complete_throughout (id : ScopeId) (buffer : List Token) (first : Nat) :
    Program.stepAt id buffer first = run Program.stepBound id (start buffer first) ∧
    (∀ w w' c, Visits id w (start buffer first) w' c →
      c.opens.Pairwise (· > ·) ∧
      (∀ o ∈ c.opens, first ≤ o ∧ ∃ t, c.buffer[o]? = some t ∧ t.isOpening = true) ∧
      ∀ o, c.Closes o →
        (∀ ev fuel, c.advance ev fuel id = c.close ev fuel id o c.opens.tail) ∧
        ((c.openingAt o).quotes = false →
          ∀ t ∈ c.buffer.extract (o + 1) c.place, t.Complete)) ∧
    (∀ bound w a i, (run bound id (start buffer first)).outcome w = .ok a → a.place = some i →
      first ≤ i ∧ ∃ t, a.buffer[i]? = some t ∧ t.Complete) ∧
    (∀ bound rounds w out failure,
      ((Program.stepWithin bound).collect id rounds [] buffer).outcome w = .ok (out, failure) →
        ∀ t ∈ out, t.Complete) ∧
    (∀ bound w t rest, ((Program.stepWithin bound).next id buffer).outcome w =
      .ok (some t, rest) → t.Complete) ∧
    ∀ bound w answer, (Program.evaluateWithin bound id buffer).outcome w = .ok answer →
      ∃ out, ((Program.stepWithin bound).collect id bound [] buffer).outcome w =
          .ok (out, answer.failure) ∧
        answer.values.map some = out.map Token.value? := by
  refine ⟨stepAt_eq id buffer first, fun w w' c hvisits ↦ ?_, fun bound w a i ↦ complete_of_run,
    fun bound rounds w out failure h ↦ ?_, fun bound w t rest ↦ Evaluator.complete_of_next,
    fun bound w answer h ↦ ?_⟩
  · have hsound := (sound_start buffer first).visits hvisits
    refine ⟨hsound.increasing, fun o ho ↦ ⟨(hsound.within o ho).1, hsound.opening o ho⟩,
      fun o hcloses ↦ ⟨fun ev fuel ↦ advance_of_closes hcloses, hsound.complete_of_closes hcloses⟩⟩
  · exact Evaluator.complete_of_collect (fun t ht ↦ absurd ht List.not_mem_nil) h
  · obtain ⟨⟨out, failure⟩, hcollect, h⟩ := EvalM.ok_of_bind h
    cases h
    have hcomplete := Evaluator.complete_of_collect (fun t ht ↦ absurd ht List.not_mem_nil) hcollect
    exact ⟨out, hcollect, Token.map_value?_of_complete hcomplete⟩

end TokenLang

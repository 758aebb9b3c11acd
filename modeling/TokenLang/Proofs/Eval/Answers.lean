import TokenLang.Proofs.Eval.Contract

/-!
The parts of an evaluation that have no effect on the world. Each gives an answer or fails when the
tokens it is handed have values; which of them may lack one is left open by `Valued`. None of them
fails over a bracket. Quoting makes a token with a value of every form that a buffer is split into
(`Form.value?_quote_of_mem_splitAll`).
-/

set_option autoImplicit false
set_option relaxedAutoImplicit false

namespace TokenLang

/-- Failures other than over a bracket without its partner. -/
def Failure.Matched (f : Failure) : Prop := f.cause.family ≠ .unmatchedBracket

/-- Stops other than by a failure over a bracket without its partner. -/
def Stop.Matched : Stop → Prop
  | .failed f => f.Matched
  | _ => True

section Pure

variable {α β : Type} {gaps : Prop}

/-- An answer, a failure that is not over a bracket, or a gap if gaps are left open. -/
def Answers (gaps : Prop) (x : Except Stop α) : Prop :=
  ∀ stop, x = .error stop → stop.Allowed True gaps ∧ stop.Matched

theorem Answers.ok (a : α) : Answers gaps (.ok a) := fun _ h ↦ by cases h

theorem Answers.failure {f : Failure} (hf : f.Matched) :
    Answers gaps (.error (.failed f) : Except Stop α) :=
  fun _ h ↦ by cases h; exact ⟨trivial, hf⟩

theorem Answers.bind {x : Except Stop α} {f : α → Except Stop β} (hx : Answers gaps x)
    (hf : ∀ a, Answers gaps (f a)) : Answers gaps (x >>= f) := by
  cases x with
  | ok a => exact hf a
  | error stop => exact fun _ h ↦ by cases h; exact hx stop rfl

theorem answers_payload {t : Token} (ht : t.value?.isSome ∨ gaps) : Answers gaps t.payload := by
  intro stop h
  unfold Token.payload at h
  split at h
  · cases h
  · rename_i hnone
    cases h
    rcases ht with ht | hgaps
    · rw [hnone] at ht
      exact absurd ht (by simp)
    · exact ⟨hgaps, trivial⟩

/-- Tokens that all have values, unless gaps are left open. -/
def Valued (gaps : Prop) (args : List Token) : Prop := (∀ t ∈ args, t.value?.isSome) ∨ gaps

theorem Valued.head {t : Token} {args : List Token} (h : Valued gaps (t :: args)) :
    t.value?.isSome ∨ gaps :=
  h.imp_left fun hall ↦ hall t (List.mem_cons_self ..)

theorem Valued.tail {t : Token} {args : List Token} (h : Valued gaps (t :: args)) :
    Valued gaps args :=
  h.imp_left fun hall u hu ↦ hall u (List.mem_cons_of_mem t hu)

theorem Valued.of_subset {args args' : List Token} (h : Valued gaps args) (hsub : args' ⊆ args) :
    Valued gaps args' :=
  h.imp_left fun hall t ht ↦ hall t (hsub ht)

theorem answers_displays {args : List Token} (h : Valued gaps args) :
    Answers gaps (Callable.displays args) := by
  induction args with
  | nil => exact Answers.ok []
  | cons t args ih =>
    exact (answers_payload h.head).bind fun v ↦ (ih h.tail).bind fun texts ↦ Answers.ok _

theorem answers_operandOf (strict : Bool) (op : ArithOp) {t : Token}
    (ht : t.value?.isSome ∨ gaps) : Answers gaps (op.operandOf strict t) := by
  refine (answers_payload ht).bind fun v ↦ ?_
  split
  · exact Answers.ok _
  · split_ifs
    · exact Answers.failure nofun
    · exact Answers.ok _

theorem answers_onInts (op : ArithOp) (x y : Int64) : Answers gaps (op.onInts x y) := by
  unfold ArithOp.onInts
  cases op <;> dsimp only
  case div => split_ifs <;> [exact Answers.failure nofun; exact Answers.ok _]
  case rem => split_ifs <;> [exact Answers.failure nofun; exact Answers.ok _]
  all_goals exact Answers.ok _

theorem Answers.map {x : Except Stop α} (hx : Answers gaps x) (f : α → β) :
    Answers gaps (x.map f) := by
  cases x with
  | ok a => exact Answers.ok (f a)
  | error stop => exact fun _ h ↦ by cases h; exact hx stop rfl

theorem answers_apply (op : ArithOp) (a b : Number) : Answers gaps (op.apply a b) := by
  unfold ArithOp.apply
  split
  · split_ifs
    · exact Answers.ok _
    · exact (answers_onInts op _ _).map _
  · exact (answers_onInts op _ _).map _

theorem answers_foldFrom (strict : Bool) (op : ArithOp) (acc : Number) {args : List Token}
    (h : Valued gaps args) : Answers gaps (op.foldFrom strict acc args) := by
  induction args generalizing acc with
  | nil => exact Answers.ok acc
  | cons t args ih =>
    exact (answers_operandOf strict op h.head).bind fun n ↦
      (answers_apply op acc n).bind fun acc ↦ ih acc h.tail

/-- A fold lacks a value only where one of its arguments does. -/
theorem answers_fold (strict : Bool) (op : ArithOp) {args : List Token}
    (h : Valued gaps args) : Answers gaps (op.fold strict args) := by
  match args with
  | [] => exact Answers.ok _
  | [t] =>
    refine (answers_operandOf strict op h.head).bind fun n ↦ ?_
    unfold ArithOp.single
    split
    · exact answers_apply _ _ _
    · exact answers_apply _ _ _
    · exact Answers.ok n
  | t :: u :: rest =>
    exact (answers_operandOf strict op h.head).bind fun n ↦ answers_foldFrom strict op n h.tail

theorem answers_holdsAlong (op : Comparison) {args : List Token}
    (h : Valued gaps args) : Answers gaps (op.holdsAlong args) := by
  induction args with
  | nil => exact Answers.ok true
  | cons a args ih =>
    cases args with
    | nil => exact Answers.ok true
    | cons b rest =>
      refine (answers_payload h.head).bind fun x ↦ (answers_payload h.tail.head).bind fun y ↦ ?_
      split_ifs
      · exact ih h.tail
      · exact Answers.ok false

theorem answers_test (op : Comparison) {args : List Token}
    (h : Valued gaps args) : Answers gaps (op.test args) := by
  unfold Comparison.test
  split
  · exact Answers.ok _
  · exact Answers.ok _
  · exact answers_holdsAlong op h

theorem answers_best (op : Comparison) {champion : Token} {args : List Token}
    (h : Valued gaps (champion :: args)) :
    Answers gaps (op.best champion args) := by
  induction args generalizing champion with
  | nil => exact Answers.ok champion
  | cons t args ih =>
    refine (answers_payload h.tail.head).bind fun x ↦ (answers_payload h.head).bind fun y ↦ ?_
    split_ifs
    · exact ih h.tail
    · exact ih (h.of_subset (List.cons_subset_cons _ (List.subset_cons_self t args)))

/-- Keys with values can be put into a map. -/
theorem answers_putFrom {args : List Token}
    (h : Valued gaps (Token.keysIn args)) (k : Keyed Entry) :
    Answers gaps (Entry.putFrom k args) := by
  induction args using Token.keysIn.induct generalizing k with
  | case1 => exact Answers.ok k
  | case2 key =>
    exact (answers_payload h.head).bind fun _ ↦ Answers.ok _
  | case3 key value rest ih =>
    rw [Token.keysIn] at h
    exact (answers_payload h.head).bind fun _ ↦ ih h.tail _

theorem mem_of_mem_keysIn {args : List Token} {t : Token} (h : t ∈ Token.keysIn args) :
    t ∈ args := by
  induction args using Token.keysIn.induct with
  | case1 => exact h
  | case2 key => exact h
  | case3 key value rest ih =>
    rcases List.mem_cons.mp h with rfl | h
    · exact List.mem_cons_self ..
    · exact List.mem_cons_of_mem _ (List.mem_cons_of_mem _ (ih h))

theorem answers_putAll (entries : List Entry) {args : List Token}
    (h : Valued gaps (Token.keysIn args)) :
    Answers gaps (Entry.putAll entries args) :=
  (answers_putFrom h _).bind fun _ ↦ Answers.ok _

theorem answers_addFrom {args : List Token} (h : Valued gaps args)
    (k : Keyed Token) : Answers gaps (Token.addFrom k args) := by
  induction args generalizing k with
  | nil => exact Answers.ok k
  | cons t args ih =>
    exact (answers_payload h.head).bind fun _ ↦ ih h.tail _

theorem answers_addMembers (members : List Token) {args : List Token}
    (h : Valued gaps args) : Answers gaps (Token.addMembers members args) :=
  (answers_addFrom h _).bind fun _ ↦ Answers.ok _

/-! ### Forms -/

/-- A token that is no bracket has a value once it is quoted. -/
theorem Form.value?_quote_singleton {t : Token} (ht : t.isDelimiter = false) :
    (Form.quote [t]).value?.isSome = true := by
  unfold Form.quote
  dsimp only
  split_ifs with hsymbol hliteral
  · rfl
  · rfl
  · cases t <;> simp_all [Token.isDelimiter, Token.isSymbol, Token.isLiteral, Token.kind,
      Token.bracket, Token.value?]

theorem Form.value?_quote_of_two (t u : Token) (rest : List Token) :
    (Form.quote (t :: u :: rest)).value?.isSome = true := by
  unfold Form.quote
  dsimp only
  split <;> rfl

/-- The rest of a region holds at least its closing bracket. -/
theorem Form.region_ne_nil {outer : Token} {stack tokens : List Token}
    {answer : List Token × List Token} (h : Form.region outer stack tokens = .ok answer) :
    answer.1 ≠ [] := by
  have hmap : ∀ {t : Token} {x : Except Failure (List Token × List Token)},
      x.map (fun parts ↦ (t :: parts.1, parts.2)) = .ok answer → answer.1 ≠ [] := by
    intro t x hx
    cases x with
    | ok a => cases hx; exact List.cons_ne_nil _ _
    | error f => cases hx
  cases tokens with
  | nil => cases h
  | cons t rest =>
    unfold Form.region at h
    split at h
    · exact hmap h
    · split at h
      · exact hmap h
      · split at h
        · cases h
          exact List.cons_ne_nil _ _
        · split at h
          · cases h
          · split at h
            · cases h
              exact List.cons_ne_nil _ _
            · exact hmap h

/-- What is cut off the front of a buffer is a value when it is quoted. -/
theorem Form.value?_quote_of_split {isMarker : Token → Bool} {tokens : List Token}
    {answer : List Token × List Token} (h : Form.split isMarker tokens = .ok answer) :
    (Form.quote answer.1).value?.isSome = true := by
  cases tokens with
  | nil => cases h; rfl
  | cons t rest =>
    unfold Form.split at h
    split at h
    · rename_i ht
      have hplain : t.isDelimiter = false := by simpa using ht
      split at h
      · cases hrest : Form.split isMarker rest with
        | error f => rw [hrest] at h; cases h
        | ok a =>
          rw [hrest] at h
          cases h
          rcases hform : a.1 with _ | ⟨u, more⟩
          · simpa [hform] using Form.value?_quote_singleton hplain
          · simpa [hform] using Form.value?_quote_of_two t u more
      · cases h
        exact Form.value?_quote_singleton hplain
    · split at h
      · cases h
      · cases hregion : Form.region t [t] rest with
        | error f => rw [hregion] at h; cases h
        | ok a =>
          have hne := Form.region_ne_nil hregion
          rw [hregion] at h
          cases h
          rcases hform : a.1 with _ | ⟨u, more⟩
          · exact absurd hform hne
          · simpa [hform] using Form.value?_quote_of_two t u more

theorem Form.value?_quote_of_mem_splitAll {isMarker : Token → Bool} {tokens : List Token}
    {forms : List (List Token)} (h : Form.splitAll isMarker tokens = .ok forms)
    {form : List Token} (hform : form ∈ forms) : (Form.quote form).value?.isSome = true := by
  have hall : ∀ form ∈ forms, (Form.quote form).value?.isSome = true :=
    Form.splitAll_induction
      (motive := fun _ forms ↦ ∀ form ∈ forms, (Form.quote form).value?.isSome = true)
      (fun _ ↦ List.forall_mem_nil _)
      (fun hsplit hforms ↦ List.forall_mem_cons.mpr ⟨Form.value?_quote_of_split hsplit, hforms⟩) h
  exact hall form hform

/-! ### Methods without effects -/

theorem answers_ofItems (wrap : List Token → Value) (items : List Token) (name : String)
    (args : List Token) : Answers gaps (Method.ofItems wrap items name args) := by
  unfold Method.ofItems
  split
  case h_6 => split <;> exact Answers.ok _
  case h_8 => exact Answers.failure nofun
  all_goals exact Answers.ok _

theorem answers_ofEntries (entries : List Entry) (name : String) {args : List Token}
    (h : Valued gaps args) : Answers gaps (Method.ofEntries entries name args) := by
  unfold Method.ofEntries
  split
  case h_4 =>
    exact (answers_putAll entries (h.of_subset fun _ ↦ mem_of_mem_keysIn)).bind fun _ ↦
      Answers.ok _
  case h_7 => exact Answers.failure nofun
  all_goals exact Answers.ok _

theorem answers_ofMembers (members : List Token) (name : String) {args : List Token}
    (h : Valued gaps args) : Answers gaps (Method.ofMembers members name args) := by
  unfold Method.ofMembers
  split
  case h_3 => exact (answers_addMembers members h).bind fun _ ↦ Answers.ok _
  case h_5 => exact Answers.failure nofun
  all_goals exact Answers.ok _

theorem answers_ofText (text name : String) (args : List Token) :
    Answers gaps (Method.ofText text name args) := by
  unfold Method.ofText
  split
  case h_2 => split <;> exact Answers.ok _
  case h_6 => exact Answers.failure nofun
  all_goals exact Answers.ok _

end Pure

end TokenLang

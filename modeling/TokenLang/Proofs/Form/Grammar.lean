import TokenLang.Proofs.Eval.Intact

/-!
The grammar of forms. A form is any number of markers and then a token that is neither a bracket nor
a marker, or a region whose brackets close each other (`Form.IsForm`). The cut at the front of a
buffer takes exactly one form, whatever comes after it; only markers that reach the end of the
buffer are taken without one (`Form.split_eq_ok_iff`). Where there is no form the cut fails over a
bracket (`Form.unmatched_of_split`). So the place just past a form is the end of the one form that
starts there, and a whole buffer falls into forms or fails (`Form.stop_spans_form`).
-/

set_option autoImplicit false
set_option relaxedAutoImplicit false

namespace TokenLang

namespace Token

/-! ### Well nested tokens -/

/-- Tokens whose brackets close each other: regions, each between two brackets that belong together,
and tokens that are no brackets, in any order. -/
inductive WellNested : List Token → Prop
  | nil : WellNested []
  | plain {t : Token} {rest : List Token} (ht : t.isDelimiter = false) (hrest : WellNested rest) :
      WellNested (t :: rest)
  | region {opening closing : Token} {inside rest : List Token}
      (hopening : opening.isOpening = true) (hmatch : opening.closesWith closing = true)
      (hinside : WellNested inside) (hrest : WellNested rest) :
      WellNested (opening :: (inside ++ closing :: rest))

/-- What closes an opening bracket is a closing one. -/
theorem closes_of_closesWith {opening closing : Token} (hopening : opening.isOpening = true)
    (hmatch : opening.closesWith closing = true) :
    closing.isDelimiter = true ∧ closing.closes = true := by
  have hopens : opening.closes = false := by simpa using (Bool.and_eq_true_iff.mp hopening).2
  simp only [closesWith, hopens, Bool.and_eq_true, bne_iff_ne, ne_eq, Bool.false_eq,
    Bool.not_eq_false] at hmatch
  exact ⟨hmatch.1.1.2, hmatch.1.2⟩

/-- A region in front of other tokens. -/
theorem nested_region {opening closing : Token} {inside : List Token}
    (hopening : opening.isOpening = true) (hmatch : opening.closesWith closing = true)
    (hinside : nested [] inside = true) (stack rest : List Token) :
    nested stack (opening :: (inside ++ closing :: rest)) = nested stack rest := by
  obtain ⟨hdelimiter, hopens⟩ := Bool.and_eq_true_iff.mp hopening
  obtain ⟨hdelimiter', hcloses⟩ := closes_of_closesWith hopening hmatch
  rw [nested_cons, if_neg (by simp [hdelimiter]), if_pos hopens, nested_append_nil hinside,
    nested_cons, if_neg (by simp [hdelimiter']), if_neg (by simp [hcloses])]
  simp [hmatch]

/-- The grammar of well nested tokens says the same as the stack of open brackets. The induction is
on the length: a region and what follows it are both shorter than the buffer, but no tails of it. -/
theorem wellNested_iff {tokens : List Token} : WellNested tokens ↔ nested [] tokens = true := by
  constructor
  · intro h
    induction h with
    | nil => rfl
    | plain ht _ ih => rwa [nested_of_not_isDelimiter ht]
    | region hopening hmatch _ _ ihinside ihrest => rwa [nested_region hopening hmatch ihinside]
  · intro h
    induction hlength : tokens.length using Nat.strong_induction_on generalizing tokens with
    | _ n ih =>
      cases tokens with
      | nil => exact .nil
      | cons t rest =>
        subst hlength
        cases hdelimiter : t.isDelimiter with
        | false =>
          rw [nested_of_not_isDelimiter hdelimiter] at h
          exact .plain hdelimiter (ih _ (Nat.lt_succ_self _) h rfl)
        | true =>
          have hopens : t.closes = false := by
            simpa [isClosing, hdelimiter] using isClosing_of_nested h
          have hopening : t.isOpening = true := by simp [isOpening, hdelimiter, hopens]
          have hrest : nested ([] ++ t :: []) rest = true := by
            simpa [nested_cons, hdelimiter, hopens] using h
          obtain ⟨inside, closing, after, rfl, hinside, -, -, hmatch⟩ :=
            Form.exists_close_of_nested [] hrest
          rw [nested_region hopening hmatch hinside] at h
          have hlength : (t :: (inside ++ closing :: after)).length =
              inside.length + after.length + 2 := by
            simp only [List.length_cons, List.length_append]
            omega
          exact .region hopening hmatch (ih _ (by omega) hinside rfl) (ih _ (by omega) h rfl)

end Token

theorem Scope.isMarker_of_quote {s : Scope} {name : String} {ref : Ref}
    (h : s.get? name = some (.envoy .quote ref)) (pos : Option Position) :
    s.isMarker (.symbol name pos) = true := by
  have hsymbol : (Token.symbol name pos).isSymbol = true := rfl
  have hmeant : s.get? (Token.symbol name pos).content = some (.envoy .quote ref) := h
  unfold Scope.isMarker Scope.marker?
  rw [hsymbol, if_pos rfl, hmeant]
  rfl

open Token (WellNested)

namespace Form

variable {isMarker : Token → Bool}

/-! ### One form -/

/-- The forms of a buffer in which some tokens are markers. -/
inductive IsForm (isMarker : Token → Bool) : List Token → Prop
  | single {t : Token} (ht : t.isDelimiter = false) (hmarker : isMarker t = false) :
      IsForm isMarker [t]
  | region {opening closing : Token} {inside : List Token} (hopening : opening.isOpening = true)
      (hmatch : opening.closesWith closing = true) (hinside : WellNested inside) :
      IsForm isMarker (opening :: (inside ++ [closing]))
  | marked {t : Token} {form : List Token} (ht : t.isDelimiter = false)
      (hmarker : isMarker t = true) (hform : IsForm isMarker form) : IsForm isMarker (t :: form)

/-- Tokens that are all markers, and no brackets. -/
def OnlyMarkers (isMarker : Token → Bool) (tokens : List Token) : Prop :=
  ∀ t ∈ tokens, t.isDelimiter = false ∧ isMarker t = true

theorem IsForm.ne_nil {form : List Token} (h : IsForm isMarker form) : form ≠ [] := by
  cases h <;> exact List.cons_ne_nil _ _

/-! ### The first form of a buffer -/

/-- A form is cut whatever comes after it. -/
theorem split_of_isForm {form : List Token} (h : IsForm isMarker form) (rest : List Token) :
    split isMarker (form ++ rest) = .ok (form, rest) := by
  induction h with
  | single ht hmarker => simp [split, ht, hmarker]
  | @region opening closing inside hopening hmatch hinside =>
    obtain ⟨hdelimiter, hopens⟩ := Bool.and_eq_true_iff.mp hopening
    obtain ⟨hdelimiter', hcloses⟩ := Token.closes_of_closesWith hopening hmatch
    have hregion := region_of_nested opening opening closing rest hdelimiter' hcloses hmatch []
      inside (Token.wellNested_iff.mp hinside)
    rw [List.nil_append] at hregion
    rw [List.cons_append, List.append_assoc, List.singleton_append, split, hregion]
    simp only [Bool.not_eq_true'] at hopens
    simp [hdelimiter, hopens, Except.map]
  | marked ht hmarker _ ih =>
    rw [List.cons_append, split, ih]
    simp [ht, hmarker, Except.map]

/-- Markers with nothing after them are cut as they are. -/
theorem split_of_onlyMarkers {tokens : List Token} (h : OnlyMarkers isMarker tokens) :
    split isMarker tokens = .ok (tokens, []) := by
  induction tokens with
  | nil => rfl
  | cons t rest ih =>
    obtain ⟨⟨ht, hmarker⟩, hrest⟩ := List.forall_mem_cons.mp h
    rw [split, ih hrest]
    simp [ht, hmarker, Except.map]

/-- What closes a region that is open is the end of well nested tokens. -/
theorem exists_inside_of_region {outer opening : Token} {tokens : List Token}
    {answer : List Token × List Token} (h : region outer [opening] tokens = .ok answer) :
    ∃ inside closing, answer.1 = inside ++ [closing] ∧ opening.closesWith closing = true ∧
      WellNested inside := by
  have hnested : Token.nested ([] ++ opening :: []) answer.1 = true :=
    nested_of_region (List.cons_ne_nil _ _) h
  obtain ⟨inside, closing, after, hanswer, hinside, hdelimiter, hcloses, hmatch⟩ :=
    exists_close_of_nested [] hnested
  have hregion := region_of_nested outer opening closing (after ++ answer.2) hdelimiter hcloses
    hmatch [] inside hinside
  have htokens : inside ++ closing :: (after ++ answer.2) = tokens := by
    rw [← append_of_region h, hanswer, List.append_assoc, List.cons_append]
  rw [htokens, List.nil_append, h] at hregion
  exact ⟨inside, closing, congrArg Prod.fst (Except.ok.inj hregion), hmatch,
    Token.wellNested_iff.mpr hinside⟩

/-- What is cut at the front of a buffer is a form, or markers that reach its end. -/
theorem isForm_or_onlyMarkers_of_split {tokens : List Token} {answer : List Token × List Token}
    (h : split isMarker tokens = .ok answer) :
    IsForm isMarker answer.1 ∨ OnlyMarkers isMarker answer.1 ∧ answer.2 = [] := by
  induction tokens generalizing answer with
  | nil =>
    cases h
    exact .inr ⟨List.forall_mem_nil _, rfl⟩
  | cons t rest ih =>
    unfold split at h
    split_ifs at h with hplain hmarker hcloses
    · have ht : t.isDelimiter = false := by simpa using hplain
      obtain ⟨a, hrest, rfl⟩ := exists_of_map_eq_ok h
      rcases ih hrest with hform | ⟨hmarkers, hend⟩
      · exact .inl (.marked ht hmarker hform)
      · exact .inr ⟨List.forall_mem_cons.mpr ⟨⟨ht, hmarker⟩, hmarkers⟩, hend⟩
    · cases h
      exact .inl (.single (by simpa using hplain) (Bool.eq_false_iff.mpr hmarker))
    · obtain ⟨a, hregion, rfl⟩ := exists_of_map_eq_ok h
      have hopening : t.isOpening = true := by
        simpa [Token.isOpening] using And.intro hplain hcloses
      obtain ⟨inside, closing, hinside, hmatch, hnested⟩ := exists_inside_of_region hregion
      dsimp only
      rw [hinside]
      exact .inl (.region hopening hmatch hnested)

/-- The cut at the front of a buffer takes one form, or the markers that the buffer is made of. -/
theorem split_eq_ok_iff {tokens form rest : List Token} :
    split isMarker tokens = .ok (form, rest) ↔
      tokens = form ++ rest ∧ (IsForm isMarker form ∨ OnlyMarkers isMarker form ∧ rest = []) := by
  constructor
  · intro h
    exact ⟨(append_of_split h).symm, isForm_or_onlyMarkers_of_split h⟩
  · rintro ⟨rfl, hform | ⟨hmarkers, rfl⟩⟩
    · exact split_of_isForm hform rest
    · rw [List.append_nil]
      exact split_of_onlyMarkers hmarkers

/-! ### Failures -/

theorem error_of_map_eq_error {ε α β : Type} {f : α → β} {x : Except ε α} {e : ε}
    (h : x.map f = .error e) : x = .error e := by
  cases x with
  | error e' => exact congrArg Except.error (Except.error.inj h)
  | ok a => cases h

theorem unmatched_of_region {outer : Token} {stack tokens : List Token} {f : Failure}
    (h : region outer stack tokens = .error f) : f.cause.family = .unmatchedBracket := by
  induction tokens generalizing stack with
  | nil =>
    cases h
    rfl
  | cons t rest ih =>
    rw [region_cons] at h
    split_ifs at h
    · exact ih (error_of_map_eq_error h)
    · exact ih (error_of_map_eq_error h)
    · split at h
      · cases h
      · split_ifs at h
        · cases h
          rfl
        · exact ih (error_of_map_eq_error h)

/-- A cut fails only over a bracket. -/
theorem unmatched_of_split {tokens : List Token} {f : Failure}
    (h : split isMarker tokens = .error f) : f.cause.family = .unmatchedBracket := by
  induction tokens with
  | nil => cases h
  | cons t rest ih =>
    unfold split at h
    split_ifs at h
    · exact ih (error_of_map_eq_error h)
    · cases h
      rfl
    · exact unmatched_of_region (error_of_map_eq_error h)

/-! ### All forms of a buffer -/

/-- A buffer in pieces: forms, after which there may be markers without one. -/
structure FallsInto (isMarker : Token → Bool) (tokens : List Token) (forms : List (List Token)) :
    Prop where
  flatten : forms.flatten = tokens
  ne_nil : ∀ form ∈ forms, form ≠ []
  isForm : ∀ form ∈ forms.dropLast, IsForm isMarker form
  last : ∀ form, forms.getLast? = some form → IsForm isMarker form ∨ OnlyMarkers isMarker form

theorem fallsInto_nil : FallsInto isMarker [] [] :=
  ⟨rfl, List.forall_mem_nil _, List.forall_mem_nil _, fun _ h ↦ by cases h⟩

/-- One more form in front. -/
theorem FallsInto.cons {form rest : List Token} {forms : List (List Token)}
    (hform : IsForm isMarker form) (h : FallsInto isMarker rest forms) :
    FallsInto isMarker (form ++ rest) (form :: forms) := by
  refine ⟨by rw [List.flatten_cons, h.flatten],
    List.forall_mem_cons.mpr ⟨hform.ne_nil, h.ne_nil⟩, ?_, ?_⟩
  · cases forms with
    | nil => exact List.forall_mem_nil _
    | cons next forms => exact List.forall_mem_cons.mpr ⟨hform, h.isForm⟩
  · intro last hlast
    cases forms with
    | nil =>
      cases hlast
      exact .inl hform
    | cons next forms => exact h.last last (by rwa [List.getLast?_cons_cons] at hlast)

/-- Cutting a buffer of at most `fuel` tokens comes to its end or fails over a bracket. A form takes
at least one token, so there is fuel left for what follows it. -/
theorem splitUpTo_cases (isMarker : Token → Bool) {fuel : Nat} {tokens : List Token}
    (hfuel : tokens.length ≤ fuel) :
    (∃ forms, splitUpTo isMarker fuel tokens = .ok forms ∧ FallsInto isMarker tokens forms) ∨
      ∃ f, splitUpTo isMarker fuel tokens = .error f ∧ f.cause.family = .unmatchedBracket := by
  induction fuel generalizing tokens with
  | zero =>
    obtain rfl : tokens = [] := List.length_eq_zero_iff.mp (Nat.le_zero.mp hfuel)
    exact .inl ⟨[], rfl, fallsInto_nil⟩
  | succ fuel ih =>
    cases tokens with
    | nil => exact .inl ⟨[], rfl, fallsInto_nil⟩
    | cons t tokens =>
      unfold splitUpTo
      cases hsplit : split isMarker (t :: tokens) with
      | error f => exact .inr ⟨f, rfl, unmatched_of_split hsplit⟩
      | ok answer =>
        obtain ⟨form, rest⟩ := answer
        obtain ⟨hbuffer, hform⟩ := split_eq_ok_iff.mp hsplit
        rcases hform with hform | ⟨hmarkers, rfl⟩
        · have hpos := List.length_pos_of_ne_nil hform.ne_nil
          have hlength : rest.length ≤ fuel := by
            have := congrArg List.length hbuffer
            rw [List.length_append] at this
            omega
          rw [hbuffer]
          rcases ih hlength with ⟨forms, hforms, hfalls⟩ | ⟨f, hf, hfamily⟩
          · refine .inl ⟨form :: forms, ?_, hfalls.cons hform⟩
            simp [bind, Except.bind, hforms, pure, Except.pure]
          · refine .inr ⟨f, ?_, hfamily⟩
            simp [bind, Except.bind, hf]
        · obtain rfl : t :: tokens = form := by rw [hbuffer, List.append_nil]
          have hend : splitUpTo isMarker fuel [] = .ok [] := by cases fuel <;> rfl
          refine .inl ⟨[t :: tokens], ?_, by simp, ?_, List.forall_mem_nil _, ?_⟩
          · simp [bind, Except.bind, hend, pure, Except.pure]
          · exact List.forall_mem_singleton.mpr (List.cons_ne_nil _ _)
          · intro last hlast
            cases hlast
            exact .inr hmarkers

/-! ### The end of a form -/

/-- Where the form that starts at a place of a buffer ends: just past the tokens of one form, or, if
there are markers only, at the end of the buffer. -/
def EndsAt (isMarker : Token → Bool) (tokens : List Token) (start place : Nat) : Prop :=
  place ≤ tokens.length ∧ (IsForm isMarker (tokens.extract start place) ∨
    OnlyMarkers isMarker (tokens.drop start) ∧ place = tokens.length)

/-- Inside a buffer the cut finds where the form ends that starts at a place, and nothing else. -/
theorem stop_eq_ok_iff {tokens : List Token} {start : Nat} (hstart : start < tokens.length)
    {place : Nat} :
    stop isMarker tokens start = .ok place ↔ EndsAt isMarker tokens start place := by
  rw [stop, if_pos hstart.le]
  constructor
  · intro h
    obtain ⟨⟨form, rest⟩, hsplit, rfl⟩ := exists_of_map_eq_ok h
    obtain ⟨hdrop, hform⟩ := split_eq_ok_iff.mp hsplit
    have hlength : tokens.length - start = form.length + rest.length := by
      rw [← List.length_drop, hdrop, List.length_append]
    refine ⟨by dsimp only; omega, ?_⟩
    rcases hform with hform | ⟨hmarkers, rfl⟩
    · left
      have hextract : tokens.extract start (start + form.length) = form := by
        rw [List.extract_eq_take_drop, hdrop, Nat.add_sub_cancel_left, List.take_left']
        rfl
      dsimp only
      rwa [hextract]
    · right
      rw [List.append_nil] at hdrop
      rw [List.length_nil] at hlength
      exact ⟨hdrop ▸ hmarkers, by dsimp only; omega⟩
  · rintro ⟨hle, hform | ⟨hmarkers, rfl⟩⟩
    · have hne := List.length_pos_of_ne_nil hform.ne_nil
      rw [List.extract_eq_take_drop] at hform hne
      rw [← List.take_append_drop (place - start) (tokens.drop start), split_of_isForm hform]
      rw [List.length_take, List.length_drop] at hne
      refine congrArg Except.ok ?_
      dsimp only
      rw [List.length_take, List.length_drop]
      omega
    · rw [split_of_onlyMarkers hmarkers]
      refine congrArg Except.ok ?_
      dsimp only
      rw [List.length_drop]
      omega

/-- The place just past a form is where the one form that starts there ends, or there is no such
form and the failure is over a bracket. It does not depend on what comes after the form. The
arguments of a call fall into forms in the same way. -/
theorem stop_spans_form (w : World) (id : ScopeId) (tokens : List Token) (start : Nat)
    (hstart : start < tokens.length) :
    (∀ place, stop (w.scope id).isMarker tokens start = .ok place ↔
      EndsAt (w.scope id).isMarker tokens start place) ∧
    (∀ place place', EndsAt (w.scope id).isMarker tokens start place →
      EndsAt (w.scope id).isMarker tokens start place' → place = place') ∧
    (∀ f, stop (w.scope id).isMarker tokens start = .error f →
      f.cause.family = .unmatchedBracket) ∧
    (∀ place, stop (w.scope id).isMarker tokens start = .ok place → start < place ∧
      (OnlyMarkers (w.scope id).isMarker (tokens.drop start) ∨
        ∀ others, stop (w.scope id).isMarker (tokens.take place ++ others) start = .ok place)) ∧
    ∀ args, (∃ forms, (Evaluator.cutAll id args).run.run w = (.ok forms, w) ∧
        FallsInto (w.scope id).isMarker args forms) ∨
      ∃ f, (Evaluator.cutAll id args).run.run w = (.error (.failed f), w) ∧
        f.cause.family = .unmatchedBracket := by
  refine ⟨fun place ↦ stop_eq_ok_iff hstart, fun place place' h h' ↦ ?_, fun f h ↦ ?_,
    fun place h ↦ ?_, fun args ↦ ?_⟩
  · exact Except.ok.inj
      (((stop_eq_ok_iff hstart).mpr h).symm.trans ((stop_eq_ok_iff hstart).mpr h'))
  · rw [stop, if_pos hstart.le] at h
    exact unmatched_of_split (error_of_map_eq_error h)
  · obtain ⟨hle, hform | ⟨hmarkers, rfl⟩⟩ := (stop_eq_ok_iff hstart).mp h
    · have hpos := List.length_pos_of_ne_nil hform.ne_nil
      rw [List.extract_eq_take_drop, List.length_take] at hpos
      have hlt : start < place := by omega
      refine ⟨hlt, .inr fun others ↦ ?_⟩
      have htake : (tokens.take place).length = place := by
        rw [List.length_take]
        omega
      refine (stop_eq_ok_iff ?_).mpr ⟨?_, .inl ?_⟩
      · rw [List.length_append]
        omega
      · rw [List.length_append]
        omega
      · have hextract : (tokens.take place ++ others).extract start place =
            tokens.extract start place := by
          rw [List.extract_eq_take_drop, List.drop_append_of_le_length (by omega),
            List.take_append_of_le_length (by rw [List.length_drop]; omega), List.drop_take,
            List.take_take, Nat.min_self, ← List.extract_eq_take_drop]
        rwa [hextract]
    · exact ⟨hstart, .inl hmarkers⟩
  · have hrun : (Evaluator.cutAll id args).run.run w =
        ((splitAll (w.scope id).isMarker args).mapError .failed, w) := rfl
    rw [hrun, splitAll]
    rcases splitUpTo_cases (w.scope id).isMarker (le_refl args.length) with
      ⟨forms, hforms, hfalls⟩ | ⟨f, hf, hfamily⟩
    · exact .inl ⟨forms, by rw [hforms]; rfl, hfalls⟩
    · exact .inr ⟨f, by rw [hf]; rfl, hfamily⟩

/-- A marker before a region with another region inside, and a bracket too many after it. -/
theorem stop_spans_form_marked :
    let tokens : List Token := [.symbol "f" none, .symbol ":" none, .opening "(" "" none,
      .symbol "g" none, .opening "[" "" none, .symbol ":" none, .closing "]" none,
      .closing ")" none, .closing ")" none]
    1 < tokens.length ∧
      stop ((World.new ⟨"", false, 0, 1⟩).scope World.root).isMarker tokens 1 = .ok 8 := by
  obtain ⟨ref, hquote⟩ := (World.standard_new ⟨"", false, 0, 1⟩ (by decide)).quote
  refine ⟨by decide, ((stop_spans_form _ World.root _ 1 (by decide)).1 8).mpr ⟨by decide, .inl ?_⟩⟩
  have hinside : WellNested
      [.symbol "g" none, .opening "[" "" none, .symbol ":" none, .closing "]" none] :=
    Token.wellNested_iff.mpr rfl
  have hmatch : (Token.opening "(" "" none).closesWith (.closing ")" none) = true := rfl
  exact .marked rfl (Scope.isMarker_of_quote hquote none) (.region rfl hmatch hinside)

end Form

end TokenLang

import TokenLang.Proofs.Eval.Nesting

/-!
Tokens that hold well nested tokens only. The items of a list or a quote, the body of a captor and
the tokens of an envoy may be laid out in a buffer one after the other, so a buffer can stay well
nested only if they are. `Token.Intact` says so of a token and of every token in it, however deep;
maps and sets give out single tokens only and are free to hold brackets.

From intact tokens that close the brackets open before them (`Token.Seals`), the parts of an
evaluation that have no effect make such tokens again: unquoting, splicing, quoting a form. A buffer
of them can always be cut into forms, unless markers run into a closing bracket
(`Form.exists_split`); that cannot happen where no bracket is open (`Form.runsInto_of_nested`).
-/

set_option autoImplicit false
set_option relaxedAutoImplicit false

namespace TokenLang

namespace Token

/-! ### Intact tokens -/

/-- Whether a token is a map or a set, whose tokens are not laid out one after the other. -/
def isTable : Token → Bool
  | .done (.map _) _ => true
  | .done (.set _) _ => true
  | _ => false

/-- Whether the tokens right inside a token close each other's brackets. -/
def isWhole (t : Token) : Bool := t.isTable || nested [] t.parts

/-- A token, or one that occurs in it, however deep. -/
inductive Within : Token → Token → Prop
  | self (t : Token) : Within t t
  | inside {t u v : Token} (hu : u ∈ t.parts) (h : Within u v) : Within t v

/-- A token in which all tokens are whole. -/
def Intact (t : Token) : Prop := ∀ u, t.Within u → u.isWhole = true

theorem intact_iff (t : Token) : t.Intact ↔ t.isWhole = true ∧ ∀ u ∈ t.parts, u.Intact := by
  constructor
  · intro h
    exact ⟨h t (.self t), fun u hu v hv ↦ h v (.inside hu hv)⟩
  · rintro ⟨hself, hparts⟩ u hu
    cases hu with
    | self => exact hself
    | inside hv hu => exact hparts _ hv u hu

theorem Intact.parts {t : Token} (h : t.Intact) : ∀ u ∈ t.parts, u.Intact := (t.intact_iff.mp h).2

theorem Intact.nested_parts {t : Token} (h : t.Intact) (htable : t.isTable = false) :
    nested [] t.parts = true := by
  simpa [isWhole, htable] using (t.intact_iff.mp h).1

/-- A token in which all other tokens are whole. -/
def HoldsIntact (t : Token) : Prop := ∀ u ∈ t.parts, u.Intact

/-- A token with nothing inside. -/
theorem intact_of_parts {t : Token} (h : t.parts = []) : t.Intact := by
  refine t.intact_iff.mpr ⟨by simp [isWhole, h, nested], fun u hu ↦ ?_⟩
  rw [h] at hu
  exact absurd hu List.not_mem_nil

/-- A token that can be bound to a name: intact, and no bracket. -/
structure Single (t : Token) : Prop where
  intact : t.Intact
  plain : t.isDelimiter = false

theorem single_null : Token.null.Single := ⟨intact_of_parts rfl, rfl⟩

theorem Single.getD {t? : Option Token} (h : ∀ t, t? = some t → t.Single) {other : Token}
    (hother : other.Single) : (t?.getD other).Single := by
  cases t? with
  | none => exact hother
  | some t => exact h t rfl

/-- Intact tokens that close their brackets and those of `stack`. -/
structure Seals (stack ts : List Token) : Prop where
  nested : Token.nested stack ts = true
  intact : ∀ t ∈ ts, t.Intact

variable {stack ts us : List Token} {t : Token}

theorem seals_nil : Seals [] [] := ⟨rfl, List.forall_mem_nil _⟩

theorem Seals.append (hts : Seals [] ts) (hus : Seals stack us) : Seals stack (ts ++ us) :=
  ⟨(nested_append_nil hts.nested).trans hus.nested,
    List.forall_mem_append.mpr ⟨hts.intact, hus.intact⟩⟩

theorem Single.seals (h : t.Single) : Seals [] [t] :=
  ⟨nested_of_not_isDelimiter h.plain [] [], List.forall_mem_singleton.mpr h.intact⟩

theorem seals_of_single (h : ∀ t ∈ ts, t.Single) : Seals [] ts := by
  induction ts with
  | nil => exact seals_nil
  | cons t ts ih =>
    obtain ⟨ht, hts⟩ := List.forall_mem_cons.mp h
    exact ht.seals.append (ih hts)

theorem Seals.head (h : Seals stack (t :: ts)) : t.Intact := h.intact t (List.mem_cons_self ..)

theorem Seals.tail (h : Seals stack (t :: ts)) (ht : t.isDelimiter = false) : Seals stack ts :=
  ⟨(nested_of_not_isDelimiter ht stack ts).symm.trans h.nested,
    fun u hu ↦ h.intact u (List.mem_cons_of_mem t hu)⟩

/-- Where no bracket is open, well nested tokens do not begin with a closing one. -/
theorem isClosing_of_nested (h : Token.nested [] (t :: ts) = true) : t.isClosing = false := by
  cases hdelimiter : t.isDelimiter with
  | false => simp [isClosing, hdelimiter]
  | true =>
    cases hcloses : t.closes with
    | false => simp [isClosing, hcloses]
    | true =>
      rw [nested_cons] at h
      simp [hdelimiter, hcloses] at h

/-- A single well nested token is no bracket. -/
theorem isDelimiter_of_nested (h : Token.nested [] [t] = true) : t.isDelimiter = false := by
  cases hdelimiter : t.isDelimiter with
  | false => rfl
  | true =>
    rw [nested_cons, hdelimiter] at h
    cases hcloses : t.closes <;> simp [hcloses, Token.nested] at h

theorem isDelimiter_of_isComplete (h : t.isComplete = true) : t.isDelimiter = false := by
  cases t <;> first | rfl | cases h

/-- A token made of intact tokens that close each other's brackets. -/
theorem intact_of_seals (hparts : t.parts = ts) (h : Seals [] ts) : t.Intact := by
  subst hparts
  exact t.intact_iff.mpr ⟨by rw [isWhole, h.nested, Bool.or_true], h.intact⟩

theorem single_done {v : Value} (hcaptor : v.captor? = none) (h : Seals [] v.parts)
    (pos : Option Position) : (Token.done v pos).Single :=
  ⟨intact_of_seals (by simp [Token.parts, hcaptor]) h, rfl⟩

theorem single_plain {v : Value} (hcaptor : v.captor? = none) (hparts : v.parts = [])
    (pos : Option Position) : (Token.done v pos).Single :=
  single_done hcaptor (hparts ▸ seals_nil) pos

/-- The body of a captor. -/
theorem Intact.body (h : t.Intact) {c : Captor} (hc : t.captor? = some c) : Seals [] c.body := by
  have hbody : t.isTable = false ∧ t.parts = c.body := by
    cases t with
    | done v pos =>
      have hcaptor : v.captor? = some c := hc
      cases v with
      | function f ref => exact ⟨rfl, by simp [Token.parts, Value.parts, hcaptor]⟩
      | expander m ref => exact ⟨rfl, by simp [Token.parts, Value.parts, hcaptor]⟩
      | morph m ref =>
        cases m with
        | envoy e => cases e <;> cases hc; exact ⟨rfl, rfl⟩
        | varying v => cases hc
      | _ => cases hc
    | envoy e ref => cases e <;> cases hc; exact ⟨rfl, rfl⟩
    | _ => cases hc
  exact ⟨hbody.2 ▸ h.nested_parts hbody.1, hbody.2 ▸ h.parts⟩

/-- The tokens that an envoy puts back. -/
theorem Intact.envoy {e : Envoy} {ref : Ref} (h : (Token.envoy e ref).Intact)
    (hcaptor : e.captor? = none) : Seals [] e.parts := by
  have hparts : (Token.envoy e ref).parts = e.parts := by simp [Token.parts, hcaptor]
  exact ⟨hparts ▸ h.nested_parts rfl, hparts ▸ h.parts⟩

/-- The tokens right inside the value of a token. -/
theorem Intact.value (h : t.Intact) {v : Value} (hv : t.value? = some v) :
    ∀ u ∈ v.parts, u.Intact := by
  intro u hu
  cases t with
  | done v' pos =>
    cases hv
    exact h.parts u (List.mem_append_left _ hu)
  | envoy e ref =>
    cases hv
    exact h.parts u (List.mem_append_left _ hu)
  | varying v' ref =>
    cases hv
    exact absurd hu List.not_mem_nil
  | symbol | opening | closing | literal => cases hv

theorem Single.unwrapped (h : t.Single) : Seals [] t.unwrapped := by
  unfold Token.unwrapped
  split
  · rename_i items pos
    have hparts : (Token.done (.quote items) pos).parts = items := List.append_nil items
    exact ⟨hparts ▸ h.intact.nested_parts rfl, hparts ▸ h.intact.parts⟩
  · exact Single.seals ⟨intact_of_parts rfl, rfl⟩
  · exact h.seals

/-- The tokens that a single token is spliced into close their own brackets. -/
theorem Single.spliced (h : t.Single) : Seals [] t.spliced := by
  have hitems : ∀ (v : Value) (items : List Token), (v = .list items ∨ v = .quote items) →
      t.value? = some v → Seals [] items := by
    intro v items hkind hv
    obtain ⟨pos, rfl⟩ : ∃ pos, t = .done v pos := by
      cases t with
      | done v' pos => cases hv; exact ⟨pos, rfl⟩
      | _ => rcases hkind with rfl | rfl <;> cases hv
    have hparts : (Token.done v pos).parts = items := by
      rcases hkind with rfl | rfl <;> exact List.append_nil items
    have htable : (Token.done v pos).isTable = false := by rcases hkind with rfl | rfl <;> rfl
    exact ⟨hparts ▸ h.intact.nested_parts htable, hparts ▸ h.intact.parts⟩
  unfold Token.spliced
  split
  · exact seals_nil
  · exact seals_nil
  · rename_i items hv
    exact hitems _ items (.inl rfl) hv
  · rename_i items hv
    exact hitems _ items (.inr rfl) hv
  · exact Single.seals ⟨intact_of_parts rfl, rfl⟩
  · exact h.seals

end Token

open Token (Seals Single Intact)

theorem seals_splicedLast {tokens : List Token} (h : ∀ t ∈ tokens, t.Single) :
    Seals [] (splicedLast tokens) := by
  unfold splicedLast
  split
  · rename_i t ht
    exact (h t (List.mem_of_getLast? ht)).spliced
  · exact Token.seals_nil

/-! ### Cutting forms -/

namespace Form

/-- Well nested tokens after an open bracket hold the one that closes it. -/
theorem exists_close_of_nested (upper : List Token) {stack tokens : List Token} {top : Token}
    (h : Token.nested (upper ++ top :: stack) tokens = true) :
    ∃ ts close rest, tokens = ts ++ close :: rest ∧ Token.nested upper ts = true ∧
      close.isDelimiter = true ∧ close.closes = true ∧ top.closesWith close = true := by
  induction tokens generalizing upper with
  | nil => simp [Token.nested] at h
  | cons t tokens ih =>
    rw [Token.nested_cons] at h
    split_ifs at h with hplain hopens
    · obtain ⟨ts, close, rest, rfl, hts, hclose⟩ := ih upper h
      refine ⟨t :: ts, close, rest, rfl, ?_, hclose⟩
      rw [Token.nested_cons, if_pos hplain]
      exact hts
    · obtain ⟨ts, close, rest, rfl, hts, hclose⟩ := ih (t :: upper) h
      refine ⟨t :: ts, close, rest, rfl, ?_, hclose⟩
      rw [Token.nested_cons, if_neg hplain, if_pos hopens]
      exact hts
    · cases upper with
      | nil =>
        refine ⟨[], t, tokens, rfl, rfl, by simpa using hplain, by simpa using hopens, ?_⟩
        exact (Bool.and_eq_true_iff.mp h).1
      | cons inner upper =>
        obtain ⟨hmatch, h⟩ := Bool.and_eq_true_iff.mp h
        obtain ⟨ts, close, rest, rfl, hts, hclose⟩ := ih upper h
        refine ⟨t :: ts, close, rest, rfl, ?_, hclose⟩
        rw [Token.nested_cons, if_neg hplain, if_neg hopens]
        simpa [hmatch] using hts

/-- Whether markers, or none, stand before a closing bracket. -/
def runsInto (isMarker : Token → Bool) : List Token → Bool
  | [] => false
  | t :: rest => if t.isDelimiter then t.closes else isMarker t && runsInto isMarker rest

variable {isMarker : Token → Bool} {tokens : List Token}

theorem runsInto_of_nested (h : Token.nested [] tokens = true) :
    runsInto isMarker tokens = false := by
  induction tokens with
  | nil => rfl
  | cons t rest ih =>
    unfold runsInto
    split_ifs with hdelimiter
    · simpa [Token.isClosing, hdelimiter] using Token.isClosing_of_nested h
    · have ht : t.isDelimiter = false := Bool.eq_false_iff.mpr hdelimiter
      rw [ih ((Token.nested_of_not_isDelimiter ht [] rest).symm.trans h), Bool.and_false]

/-- Forms whose brackets close each other, also those between the outer ones. -/
structure IsNested (form : List Token) : Prop where
  whole : Token.nested [] form = true
  inside : ∀ t rest, form = t :: rest → t.isOpening = true → Token.nested [] (strip form) = true

variable (isMarker) in
/-- The first form of a well nested buffer. One that starts with a marker has no brackets of its own
around it. -/
theorem exists_split {stack : List Token} (h : Token.nested stack tokens = true)
    (hmarkers : runsInto isMarker tokens = false) :
    ∃ form rest, split isMarker tokens = .ok (form, rest) ∧ IsNested form := by
  induction tokens with
  | nil => exact ⟨[], [], rfl, rfl, fun _ _ h ↦ by cases h⟩
  | cons t rest ih =>
    rw [Token.nested_cons] at h
    unfold runsInto at hmarkers
    unfold split
    split_ifs at h with hplain hopens
    · have ht : t.isDelimiter = false := by simpa using hplain
      rw [if_pos hplain]
      have hcons : ∀ form, Token.nested [] form = true → IsNested (t :: form) := by
        refine fun form hform ↦ ⟨(Token.nested_of_not_isDelimiter ht [] form).trans hform, ?_⟩
        intro u us hu hopening
        cases hu
        simp [Token.isOpening, ht] at hopening
      split_ifs with hmarker
      · obtain ⟨form, after, hsplit, hform⟩ := ih h (by simpa [ht, hmarker] using hmarkers)
        rw [hsplit]
        exact ⟨t :: form, after, rfl, hcons form hform.whole⟩
      · exact ⟨[t], rest, rfl, hcons [] rfl⟩
    · have ht : t.isDelimiter = true := by simpa using hplain
      have hcloses : t.closes = false := by simpa using hopens
      obtain ⟨ts, close, after, rfl, hts, hclose⟩ := exists_close_of_nested [] h
      have hregion := Form.region_of_nested t t close after hclose.1 hclose.2.1 hclose.2.2 [] ts hts
      rw [if_neg hplain, hcloses, if_neg Bool.false_ne_true, show [t] = [] ++ [t] from rfl, hregion]
      refine ⟨t :: (ts ++ [close]), after, rfl, ?_, fun _ _ _ _ ↦ ?_⟩
      · rw [Token.nested_cons, if_neg hplain, if_pos hopens, Token.nested_append_nil hts,
          Token.nested_cons]
        simp [hclose, Token.nested]
      · simpa [strip] using hts
    · have ht : t.isDelimiter = true := by simpa using hplain
      rw [if_pos ht] at hmarkers
      simp [hmarkers] at hopens

/-- What is left after the first form of intact tokens that close the brackets of `stack`. -/
theorem seals_split {stack form rest : List Token} (h : Seals stack tokens)
    (hsplit : split isMarker tokens = .ok (form, rest)) : Seals [] form ∧ Seals stack rest := by
  have hform := nested_of_split hsplit
  obtain rfl : form ++ rest = tokens := append_of_split hsplit
  obtain ⟨hintact, hintact'⟩ := List.forall_mem_append.mp h.intact
  exact ⟨⟨hform, hintact⟩, (Token.nested_append_nil hform).symm.trans h.nested, hintact'⟩

variable (isMarker) in
/-- All forms of a well nested buffer. -/
theorem exists_splitAll (h : Seals [] tokens) : ∃ forms, splitAll isMarker tokens = .ok forms ∧
    ∀ form ∈ forms, IsNested form ∧ Seals [] form := by
  unfold splitAll
  generalize tokens.length = fuel
  induction fuel generalizing tokens with
  | zero => cases tokens <;> exact ⟨[], rfl, List.forall_mem_nil _⟩
  | succ fuel ih =>
    cases tokens with
    | nil => exact ⟨[], rfl, List.forall_mem_nil _⟩
    | cons t tokens =>
      obtain ⟨form, rest, hsplit, hform⟩ := exists_split isMarker h.nested
        (runsInto_of_nested h.nested)
      obtain ⟨hfirst, hrest⟩ := seals_split h hsplit
      obtain ⟨forms, hforms, hall⟩ := ih hrest
      refine ⟨form :: forms, ?_, List.forall_mem_cons.mpr ⟨⟨hform, hfirst⟩, hall⟩⟩
      unfold splitUpTo
      rw [hsplit]
      simp [bind, Except.bind, hforms, pure, Except.pure]

theorem single_quote {form : List Token} (hform : IsNested form) (h : Seals [] form) :
    (quote form).Single := by
  unfold quote
  split
  · rename_i t
    split_ifs
    · exact Token.single_plain rfl rfl _
    · exact Token.single_plain rfl rfl _
    · exact ⟨h.head, Token.isDelimiter_of_nested h.nested⟩
  · split
    · rename_i pos rest
      refine Token.single_done (v := .quote _) rfl
        ⟨hform.inside _ _ rfl rfl, fun t ht ↦ h.intact t ?_⟩ _
      exact List.mem_of_mem_drop (List.mem_of_mem_dropLast ht)
    · exact Token.single_done (v := .quote _) rfl h _

end Form

end TokenLang

import TokenLang.Proofs.RoundTrip.Numerals

/-!
Floats as they are written. Whichever layout a double is written in, the digits around the point
and the exponent that are read from it make up the same decimal number, `0.d₁d₂…` times a power
of ten. That number rounds to the double, which is therefore read back from its text
(`Numeral.float?_write`).
-/

set_option autoImplicit false
set_option relaxedAutoImplicit false

namespace TokenLang

namespace Numeral

open Decimal.Nearest (Significant)

/-! ### Digits and their characters -/

/-- The characters of digits. -/
def digitChars (digits : List Nat) : List Char := digits.map fun d ↦ Char.ofNat (48 + d)

theorem digit_char {d : Nat} (h : d < 10) :
    isDecimal (Char.ofNat (48 + d)) = true ∧ digitValue (Char.ofNat (48 + d)) = d := by
  revert h
  revert d
  decide

section Digits

variable {digits : List Nat} (h : ∀ d ∈ digits, d < 10)
include h

theorem isDecimal_of_mem_digitChars {c : Char} (hc : c ∈ digitChars digits) :
    isDecimal c = true := by
  obtain ⟨d, hd, rfl⟩ := List.mem_map.mp hc
  exact (digit_char (h d hd)).1

theorem map_digitValue_digitChars : (digitChars digits).map digitValue = digits := by
  rw [digitChars, List.map_map]
  exact (List.map_congr_left fun d hd ↦ (digit_char (h d hd)).2).trans (List.map_id digits)

theorem allDigits_digitChars (hne : digits ≠ []) :
    allDigits isDecimal (digitChars digits) = true := by
  simp only [allDigits, Bool.and_eq_true, Bool.not_eq_true', List.isEmpty_eq_false_iff,
    List.all_eq_true]
  exact ⟨by simpa [digitChars] using hne, fun c hc ↦ isDecimal_of_mem_digitChars h hc⟩

end Digits

/-! ### Cutting a text -/

theorem cut_of_forall {p : Char → Bool} {a : List Char} (h : ∀ c ∈ a, p c = false) :
    cut p a = (a, none) := by
  have hdrop : a.dropWhile (fun c ↦ !p c) = [] := by
    rw [← List.append_nil a, List.dropWhile_append_of_pos fun d hd ↦ by simp [h d hd],
      List.dropWhile_nil]
  rw [cut, hdrop]

theorem cut_append {p : Char → Bool} {a : List Char} (h : ∀ c ∈ a, p c = false) {c : Char}
    (hc : p c = true) (b : List Char) : cut p (a ++ c :: b) = (a, some b) := by
  have hall : ∀ d ∈ a, (!p d) = true := fun d hd ↦ by simp [h d hd]
  have hdrop : (a ++ c :: b).dropWhile (fun d ↦ !p d) = c :: b := by
    rw [List.dropWhile_append_of_pos hall, List.dropWhile_cons_of_neg (by simp [hc])]
  have htake : (a ++ c :: b).takeWhile (fun d ↦ !p d) = a := by
    rw [List.takeWhile_append_of_pos hall, List.takeWhile_cons_of_neg (by simp [hc]),
      List.append_nil]
  rw [cut, hdrop, htake]

/-! ### Exponents -/

theorem ofDigits_concat (base : Nat) (l : List Char) (c : Char) :
    ofDigits base (l ++ [c]) = ofDigits base l * base + digitValue c := by
  simp [ofDigits]

/-- Exponents of five digits are taken in as they stand. -/
theorem exponentOf_eq_ofDigits {l : List Char} (h : ofDigits 10 l < 100000) :
    exponentOf l = ofDigits 10 l := by
  induction l using List.reverseRecOn with
  | nil => rfl
  | append_singleton l c ih =>
    rw [ofDigits_concat] at h ⊢
    have hl := ih (by omega)
    have hconcat : exponentOf (l ++ [c]) =
        if exponentOf l < exponentBound then exponentOf l * 10 + digitValue c
        else exponentOf l := by
      rw [exponentOf, List.foldl_append]
      rfl
    have hbound : ofDigits 10 l < exponentBound := by
      unfold exponentBound
      omega
    rw [hconcat, hl, if_pos hbound]

theorem ofDigits_replicate_append (n : Nat) (l : List Char) :
    ofDigits 10 (List.replicate n '0' ++ l) = ofDigits 10 l := by
  have hzeros : ofDigits 10 (List.replicate n '0') = 0 := by
    induction n with
    | zero => rfl
    | succ n ih =>
      rw [List.replicate_succ', ofDigits_concat, ih]
      rfl
  unfold ofDigits at hzeros ⊢
  rw [List.foldl_append, hzeros]

theorem splitSign_plus (rest : List Char) : splitSign ('+' :: rest) = (false, rest) := rfl

theorem exponent?_of_splitSign {text digits : List Char} {negative : Bool}
    (hsign : splitSign text = (negative, digits)) (hdigits : allDigits isDecimal digits = true) :
    exponent? (some text) = some (signed negative (exponentOf digits)) := by
  simp only [exponent?, hsign]
  rw [if_pos hdigits]

/-- An exponent with a sign and zeros in front. -/
theorem exponent?_signed {n : Nat} (h : n < 100000) (padding : Nat) :
    exponent? (some ('+' :: (List.replicate padding '0' ++ Nat.toDigits 10 n))) = some (n : Int) ∧
    exponent? (some ('-' :: (List.replicate padding '0' ++ Nat.toDigits 10 n))) =
      some (-(n : Int)) := by
  have hdigits : allDigits isDecimal (List.replicate padding '0' ++ Nat.toDigits 10 n) = true := by
    simp only [allDigits, Bool.and_eq_true, Bool.not_eq_true', List.isEmpty_eq_false_iff,
      List.all_eq_true]
    refine ⟨by simp, fun c hc ↦ ?_⟩
    rcases List.mem_append.mp hc with hc | hc
    · rw [List.eq_of_mem_replicate hc]
      rfl
    · exact isDecimal_of_mem_toDigits hc
  have hvalue : ofDigits 10 (List.replicate padding '0' ++ Nat.toDigits 10 n) = n := by
    rw [ofDigits_replicate_append, ofDigits_toDigits]
  have hexponent : exponentOf (List.replicate padding '0' ++ Nat.toDigits 10 n) = n := by
    rw [exponentOf_eq_ofDigits (by rwa [hvalue]), hvalue]
  constructor
  · rw [exponent?_of_splitSign (splitSign_plus _) hdigits, hexponent]
    rfl
  · rw [exponent?_of_splitSign (splitSign_minus _) hdigits, hexponent]
    rfl

/-! ### Reading a magnitude -/

/-- A text without a sign spells digits around a point, times a power of ten. -/
structure Spells (body : List Char) (whole fraction : List Nat) (exponent : Int) : Prop where
  head : ∀ c ∈ body.head?, isDecimal c = true
  last : ∀ c ∈ body.getLast?, isDecimal c = true
  ne_nil : body ≠ []
  parts : ∃ mantissa tail front dotted behind,
    cut (fun c ↦ c == 'e' || c == 'E') body = (mantissa, tail) ∧
    cut (· == '.') mantissa = (front, dotted) ∧ exponent? tail = some exponent ∧
    fraction? dotted = some behind ∧ allDigits isDecimal front = true ∧
    front.map digitValue = whole ∧ behind.map digitValue = fraction

section Spells

variable {body : List Char} {whole fraction : List Nat} {exponent : Int}
  (h : Spells body whole fraction exponent)
include h

/-- A text that spells digits, with or without a minus in front. -/
theorem Spells.float?_signed {negative : Bool} {text : List Char}
    (hsign : splitSign text = (negative, body)) (hlast : text.getLast? = body.getLast?) :
    float? text =
      some (Binary64.ofBits negative (Significant.of whole fraction exponent).bits) := by
  obtain ⟨mantissa, tail, front, dotted, behind, hcut, hdot, hexponent, hfraction, hfront, rfl,
    rfl⟩ := h.parts
  have hdrop : dropSuffix ['f', 'F', 'm', 'M'] text = text := by
    cases hend : text.getLast? with
    | none => simp [dropSuffix, hend]
    | some c =>
      refine dropSuffix_of_getLast hend fun hc ↦ ?_
      have hdecimal := h.last c (hlast ▸ hend)
      fin_cases hc <;> cases hdecimal
  have hnan : body ≠ "NaN".toList := by
    rintro rfl
    cases h.head 'N' rfl
  have hinfinity : body ≠ "Infinity".toList := by
    rintro rfl
    cases h.head 'I' rfl
  unfold float?
  rw [hdrop, hsign]
  dsimp only
  rw [if_neg hnan, if_neg hinfinity, hcut]
  dsimp only
  rw [hdot]
  dsimp only
  rw [hexponent, hfraction]
  dsimp only
  rw [if_pos hfront]

theorem Spells.float?_eq :
    float? body = some (Binary64.ofBits false (Significant.of whole fraction exponent).bits) := by
  refine h.float?_signed ?_ rfl
  obtain ⟨c, rest, rfl⟩ := List.exists_cons_of_ne_nil h.ne_nil
  have hc := h.head c rfl
  unfold splitSign
  split
  · rename_i heq
    cases heq
    cases hc
  · rename_i heq
    cases heq
    cases hc
  · rfl

theorem Spells.float?_minus : float? ('-' :: body) =
    some (Binary64.ofBits true (Significant.of whole fraction exponent).bits) := by
  refine h.float?_signed (splitSign_minus body) ?_
  obtain ⟨c, rest, rfl⟩ := List.exists_cons_of_ne_nil h.ne_nil
  simp

end Spells

/-! ### Texts that spell digits -/

/-- Digits around a point, which is left out when no digit follows it. -/
def mantissaChars (whole fraction : List Nat) : List Char :=
  if fraction = [] then digitChars whole else digitChars whole ++ '.' :: digitChars fraction

section Mantissa

variable {whole fraction : List Nat} (hwhole : ∀ d ∈ whole, d < 10)
  (hfraction : ∀ d ∈ fraction, d < 10)

theorem ne_of_isDecimal {c : Char} (h : isDecimal c = true) :
    (c == 'e' || c == 'E') = false ∧ (c == '.') = false := by
  constructor
  · refine Bool.eq_false_iff.mpr fun hc ↦ ?_
    rcases Bool.or_eq_true_iff.mp hc with hc | hc
    · rw [beq_iff_eq.mp hc] at h
      cases h
    · rw [beq_iff_eq.mp hc] at h
      cases h
  · refine Bool.eq_false_iff.mpr fun hc ↦ ?_
    rw [beq_iff_eq.mp hc] at h
    cases h

include hwhole

theorem head_mantissaChars (hne : whole ≠ []) (rest : List Char) :
    ∀ c ∈ (mantissaChars whole fraction ++ rest).head?, isDecimal c = true := by
  obtain ⟨d, ds, rfl⟩ := List.exists_cons_of_ne_nil hne
  intro c hc
  have hd : c = Char.ofNat (48 + d) := by
    unfold mantissaChars at hc
    split_ifs at hc <;> simpa [digitChars, eq_comm] using hc
  rw [hd]
  exact (digit_char (hwhole d (List.mem_cons_self ..))).1

/-- What stands on the two sides of the point. -/
theorem exists_cut_mantissaChars (hne : whole ≠ []) (hfraction : ∀ d ∈ fraction, d < 10) :
    ∃ front dotted behind, cut (· == '.') (mantissaChars whole fraction) = (front, dotted) ∧
      fraction? dotted = some behind ∧ allDigits isDecimal front = true ∧
      front.map digitValue = whole ∧ behind.map digitValue = fraction := by
  have hpoint : ∀ c ∈ digitChars whole, (c == '.') = false := fun c hc ↦
    (ne_of_isDecimal (isDecimal_of_mem_digitChars hwhole hc)).2
  unfold mantissaChars
  split_ifs with hempty
  · subst hempty
    exact ⟨digitChars whole, none, [], cut_of_forall hpoint, rfl, allDigits_digitChars hwhole hne,
      map_digitValue_digitChars hwhole, rfl⟩
  · refine ⟨digitChars whole, some (digitChars fraction), digitChars fraction,
      cut_append hpoint rfl _, ?_, allDigits_digitChars hwhole hne,
      map_digitValue_digitChars hwhole, map_digitValue_digitChars hfraction⟩
    exact if_pos (allDigits_digitChars hfraction hempty)

include hfraction

theorem no_exponent_mantissaChars :
    ∀ c ∈ mantissaChars whole fraction, (c == 'e' || c == 'E') = false := by
  intro c hc
  unfold mantissaChars at hc
  split_ifs at hc
  · exact (ne_of_isDecimal (isDecimal_of_mem_digitChars hwhole hc)).1
  · rcases List.mem_append.mp hc with hc | hc
    · exact (ne_of_isDecimal (isDecimal_of_mem_digitChars hwhole hc)).1
    · rcases List.mem_cons.mp hc with rfl | hc
      · rfl
      · exact (ne_of_isDecimal (isDecimal_of_mem_digitChars hfraction hc)).1

theorem spells_positional (hne : whole ≠ []) (hne' : fraction ≠ []) :
    Spells (digitChars whole ++ '.' :: digitChars fraction) whole fraction 0 := by
  have hchars : mantissaChars whole fraction = digitChars whole ++ '.' :: digitChars fraction :=
    if_neg hne'
  obtain ⟨front, dotted, behind, hdot, hrest⟩ := exists_cut_mantissaChars hwhole hne hfraction
  have hhead : ∀ c ∈ (mantissaChars whole fraction ++ []).head?, isDecimal c = true :=
    head_mantissaChars hwhole hne []
  rw [List.append_nil, hchars] at hhead
  refine ⟨hhead, fun c hc ↦ ?_, by simp, mantissaChars whole fraction, none, front, dotted, behind,
    ?_, hdot, rfl, hrest⟩
  · obtain ⟨d, ds, rfl⟩ := List.exists_cons_of_ne_nil hne'
    refine isDecimal_of_mem_digitChars hfraction ?_
    refine List.mem_of_getLast? ?_
    simpa [List.getLast?_append, digitChars] using hc
  · rw [← hchars]
    exact cut_of_forall (no_exponent_mantissaChars hwhole hfraction)

theorem spells_scientific (hne : whole ≠ []) {text : List Char} {exponent : Int}
    (hexponent : exponent? (some text) = some exponent) (hne' : text ≠ [])
    (hlast : ∀ c ∈ text.getLast?, isDecimal c = true) :
    Spells (mantissaChars whole fraction ++ 'e' :: text) whole fraction exponent := by
  obtain ⟨front, dotted, behind, hdot, hrest⟩ := exists_cut_mantissaChars hwhole hne hfraction
  refine ⟨head_mantissaChars hwhole hne _, fun c hc ↦ hlast c ?_, by simp,
    mantissaChars whole fraction, some text, front, dotted, behind,
    cut_append (no_exponent_mantissaChars hwhole hfraction) rfl text, hdot, hexponent, hrest⟩
  obtain ⟨d, rest, rfl⟩ := List.exists_cons_of_ne_nil hne'
  simpa [List.getLast?_append] using hc

end Mantissa

end Numeral

/-! ### Layouts -/

namespace Decimal

open Nearest (Significant)
open Numeral (digitChars Spells)
open Shortest (Written)

theorem Nearest.Significant.of_cons {d : Nat} (hd : d ≠ 0) (rest fraction : List Nat)
    (exponent : Int) : Significant.of (d :: rest) fraction exponent =
      ⟨d :: rest ++ fraction, (d :: rest).length, exponent⟩ := by
  have hdrop : (d :: rest).dropWhile (· == 0) = d :: rest := by
    simp [hd]
  rw [Significant.of, hdrop]

/-- A text that is read as a decimal number, with no more digits than are rounded as they
stand. -/
def SpelledAs (text : String) (q : ℚ) : Prop :=
  ∃ whole fraction exponent, Spells text.toList whole fraction exponent ∧
    (Significant.of whole fraction exponent).digits.length ≤ Nearest.estimated ∧
    (Significant.of whole fraction exponent).number = q

theorem Layout.toList_digitText (digits : List Nat) :
    (Layout.digitText digits).toList = digitChars digits := String.toList_ofList

theorem Layout.zeros_eq (n : Nat) : Layout.zeros n = Layout.digitText (List.replicate n 0) := by
  rw [Layout.zeros, Layout.digitText, List.map_replicate]

theorem Layout.digitText_append (a b : List Nat) :
    Layout.digitText a ++ Layout.digitText b = Layout.digitText (a ++ b) := by
  rw [Layout.digitText, Layout.digitText, Layout.digitText, ← String.ofList_append,
    List.map_append]

section Layouts

variable {d : Digits} (h : Written d)
include h

/-- All digits after the point. -/
theorem Layout.spelledAs_small (hpoint : d.point ≤ 0) :
    SpelledAs ("0" ++ "." ++ (Layout.zeros (-d.point).toNat ++ Layout.digitText d.digits))
      d.number := by
  obtain ⟨first, more, hdigits, hfirst⟩ := h.head
  have hfraction : ∀ x ∈ List.replicate (-d.point).toNat 0 ++ d.digits, x < 10 := by
    intro x hx
    rcases List.mem_append.mp hx with hx | hx
    · rw [List.eq_of_mem_replicate hx]
      decide
    · exact h.lt_ten x hx
  have hspells : Spells (digitChars [0] ++
      '.' :: digitChars (List.replicate (-d.point).toNat 0 ++ d.digits))
      [0] (List.replicate (-d.point).toNat 0 ++ d.digits) 0 :=
    Numeral.spells_positional (by simp) hfraction (by simp) (by simp [hdigits])
  have hdrop : (List.replicate (-d.point).toNat 0 ++ d.digits).dropWhile (· == 0) = d.digits := by
    rw [List.dropWhile_append_of_pos fun x hx ↦ by simp [List.eq_of_mem_replicate hx], hdigits,
      List.dropWhile_cons_of_neg (by simp [hfirst])]
  have hof : Significant.of [0] (List.replicate (-d.point).toNat 0 ++ d.digits) 0 =
      ⟨d.digits, 0, d.point⟩ := by
    unfold Significant.of
    dsimp only [List.dropWhile]
    rw [hdrop]
    simp
    omega
  refine ⟨[0], List.replicate (-d.point).toNat 0 ++ d.digits, 0, ?_, ?_, ?_⟩
  · rw [Layout.zeros_eq, Layout.digitText_append, String.toList_append, Layout.toList_digitText]
    exact hspells
  · rw [hof]
    exact h.length_le.trans (by decide)
  · rw [hof]
    simp [Significant.number, Digits.number]

/-- Digits on both sides of the point. -/
theorem Layout.spelledAs_middle (hpoint : 0 < d.point)
    (hlength : d.point.toNat < d.digits.length) :
    SpelledAs (Layout.digitText (d.digits.take d.point.toNat) ++ "." ++
      Layout.digitText (d.digits.drop d.point.toNat)) d.number := by
  obtain ⟨first, more, hdigits, hfirst⟩ := h.head
  obtain ⟨n, hn⟩ : ∃ n, d.point.toNat = n + 1 := ⟨d.point.toNat - 1, by omega⟩
  have htake : d.digits.take d.point.toNat = first :: more.take n := by
    rw [hdigits, hn, List.take_succ_cons]
  have hdrop : d.digits.drop d.point.toNat ≠ [] := by
    rw [ne_eq, List.drop_eq_nil_iff]
    omega
  have hspells : Spells (digitChars (d.digits.take d.point.toNat) ++
      '.' :: digitChars (d.digits.drop d.point.toNat)) (d.digits.take d.point.toNat)
      (d.digits.drop d.point.toNat) 0 :=
    Numeral.spells_positional (fun x hx ↦ h.lt_ten x (List.mem_of_mem_take hx))
      (fun x hx ↦ h.lt_ten x (List.mem_of_mem_drop hx))
      (by rw [htake]; exact List.cons_ne_nil _ _) hdrop
  have hof : Significant.of (d.digits.take d.point.toNat) (d.digits.drop d.point.toNat) 0 =
      ⟨d.digits, d.point.toNat, 0⟩ := by
    rw [htake, Significant.of_cons hfirst, ← htake, List.take_append_drop, List.length_take,
      min_eq_left hlength.le]
  refine ⟨d.digits.take d.point.toNat, d.digits.drop d.point.toNat, 0, ?_, ?_, ?_⟩
  · rw [String.append_assoc, String.toList_append, String.toList_append,
      Layout.toList_digitText, Layout.toList_digitText]
    exact hspells
  · rw [hof]
    exact h.length_le.trans (by decide)
  · rw [hof]
    unfold Significant.number Digits.number
    dsimp only
    rw [Int.toNat_of_nonneg hpoint.le, zero_add]

/-- All digits before the point. -/
theorem Layout.spelledAs_large (hle : d.point ≤ 6) (hlength : d.digits.length ≤ d.point.toNat) :
    SpelledAs (Layout.digitText d.digits ++ Layout.zeros (d.point.toNat - d.digits.length) ++
      ".0") d.number := by
  obtain ⟨first, more, hdigits, hfirst⟩ := h.head
  have hpositive : 0 < d.digits.length := by
    rw [hdigits]
    exact Nat.succ_pos _
  obtain ⟨k, hk⟩ : ∃ k, d.point.toNat = d.digits.length + k := Nat.exists_eq_add_of_le hlength
  have hpad : d.point.toNat - d.digits.length = k := by omega
  have hwhole : ∀ x ∈ d.digits ++ List.replicate k 0, x < 10 := by
    intro x hx
    rcases List.mem_append.mp hx with hx | hx
    · exact h.lt_ten x hx
    · rw [List.eq_of_mem_replicate hx]
      decide
  have hspells : Spells (digitChars (d.digits ++ List.replicate k 0) ++ '.' :: digitChars [0])
      (d.digits ++ List.replicate k 0) [0] 0 :=
    Numeral.spells_positional hwhole (by simp) (by simp [hdigits]) (by simp)
  have hof : Significant.of (d.digits ++ List.replicate k 0) [0] 0 =
      ⟨d.digits ++ List.replicate (k + 1) 0, d.digits.length + k, 0⟩ := by
    rw [hdigits, List.cons_append, Significant.of_cons hfirst, List.replicate_succ']
    simp [Nat.add_right_comm]
  refine ⟨d.digits ++ List.replicate k 0, [0], 0, ?_, ?_, ?_⟩
  · rw [hpad, Layout.zeros_eq, Layout.digitText_append, String.toList_append,
      Layout.toList_digitText]
    exact hspells
  · rw [hof]
    simp [Nearest.estimated]
    omega
  · have hexponent : (0 : Int) + ((d.digits.length + k : Nat) : Int) -
        ((d.digits ++ List.replicate (k + 1) 0).length : Int) = -1 := by
      simp
    have hexponent' : d.point - (d.digits.length : Int) = (k : Int) := by omega
    rw [hof]
    unfold Significant.number Digits.number
    dsimp only
    rw [Nearest.ofDigits_append_zeros, hexponent, hexponent', zpow_natCast, zpow_neg_one, pow_succ]
    push_cast
    field_simp

/-- The point stands before all digits, after some of them, or after all. -/
theorem Layout.spelledAs_positional (hle : d.point ≤ 6) :
    SpelledAs (Layout.positional d) d.number := by
  have hpositive : 0 < d.digits.length := by
    obtain ⟨first, more, hdigits, -⟩ := h.head
    rw [hdigits]
    exact Nat.succ_pos _
  unfold Layout.positional
  dsimp only
  by_cases hpoint : d.point ≤ 0
  · have hbefore : d.point.toNat = 0 := by omega
    rw [hbefore, if_pos rfl, if_neg (by omega), List.drop_zero]
    exact Layout.spelledAs_small h hpoint
  · have hbefore : d.point.toNat ≠ 0 := by omega
    rw [if_neg hbefore]
    by_cases hlength : d.digits.length ≤ d.point.toNat
    · rw [if_pos hlength, List.take_of_length_le hlength]
      exact Layout.spelledAs_large h hle hlength
    · have hnone : Layout.zeros (d.point.toNat - d.digits.length) = "" := by
        rw [Nat.sub_eq_zero_of_le (by omega)]
        rfl
      have hafter : Layout.zeros (-d.point).toNat = "" := by
        rw [Int.toNat_of_nonpos (by omega)]
        rfl
      rw [if_neg hlength, hnone, hafter, String.append_empty, String.empty_append]
      exact Layout.spelledAs_middle h (by omega) (by omega)

omit h in
/-- What stands behind the mark of the exponent, and what is read from it. -/
theorem Layout.exists_toList_scientific {first : Nat} {more : List Nat}
    (hdigits : d.digits = first :: more) (hpoint : (d.point - 1).natAbs < 100000) :
    ∃ (sign : Char) (padding : Nat),
      (plain.scientific d).toList = Numeral.mantissaChars [first] more ++
        'e' :: sign :: (List.replicate padding '0' ++ Nat.toDigits 10 (d.point - 1).natAbs) ∧
      Numeral.exponent? (some (sign ::
        (List.replicate padding '0' ++ Nat.toDigits 10 (d.point - 1).natAbs))) =
          some (d.point - 1) := by
  have hmantissa : (Layout.digitText (d.digits.take 1) ++
      if d.digits.length ≤ 1 then "" else "." ++ Layout.digitText (d.digits.drop 1)).toList =
        Numeral.mantissaChars [first] more := by
    rw [hdigits, Numeral.mantissaChars]
    cases more with
    | nil => simp [Layout.toList_digitText]
    | cons second more => simp [Layout.toList_digitText]
  refine ⟨if d.point - 1 < 0 then '-' else '+',
    plain.exponentWidth - (toString (d.point - 1).natAbs).length, ?_, ?_⟩
  · unfold Layout.scientific
    dsimp only
    simp only [String.toList_append] at hmantissa ⊢
    rw [hmantissa, Layout.zeros, String.toList_ofList, Nat.toString_eq_repr, Nat.toList_repr]
    split_ifs <;> simp [plain]
  · obtain ⟨hplus, hminus⟩ := Numeral.exponent?_signed hpoint
      (plain.exponentWidth - (toString (d.point - 1).natAbs).length)
    split_ifs with hnegative
    · rw [hminus]
      congr 1
      omega
    · rw [hplus]
      congr 1
      omega

omit h in
/-- An exponent ends with a digit. -/
theorem Layout.isDecimal_of_getLast?_exponent {sign c : Char} {padding n : Nat}
    (hc : (sign :: (List.replicate padding '0' ++ Nat.toDigits 10 n)).getLast? = some c) :
    Numeral.isDecimal c = true := by
  refine Numeral.isDecimal_of_mem_toDigits (n := n) (List.mem_of_getLast? ?_)
  rw [List.getLast?_cons, List.getLast?_append,
    List.getLast?_eq_some_getLast Nat.toDigits_ne_nil] at hc
  simpa [List.getLast?_eq_some_getLast Nat.toDigits_ne_nil] using hc

/-- One digit before the point. -/
theorem Layout.spelledAs_scientific (hpoint : (d.point - 1).natAbs < 100000) :
    SpelledAs (plain.scientific d) d.number := by
  obtain ⟨first, more, hdigits, hfirst⟩ := h.head
  have hhead : ∀ x ∈ [first], x < 10 := by
    intro x hx
    rw [List.mem_singleton.mp hx]
    exact h.lt_ten first (by simp [hdigits])
  have hmore : ∀ x ∈ more, x < 10 := fun x hx ↦ h.lt_ten x (by simp [hdigits, hx])
  obtain ⟨sign, padding, htext, hexponent⟩ := Layout.exists_toList_scientific hdigits hpoint
  have hof : Significant.of [first] more (d.point - 1) = ⟨d.digits, 1, d.point - 1⟩ := by
    rw [Significant.of_cons hfirst, hdigits]
    rfl
  refine ⟨[first], more, d.point - 1, ?_, ?_, ?_⟩
  · rw [htext]
    exact Numeral.spells_scientific hhead hmore (by simp) hexponent (List.cons_ne_nil _ _)
      fun c hc ↦ Layout.isDecimal_of_getLast?_exponent hc
  · rw [hof]
    exact h.length_le.trans (by decide)
  · rw [hof]
    simp [Significant.number, Digits.number]

theorem Layout.spelledAs_magnitude (hpoint : (d.point - 1).natAbs < 100000) :
    SpelledAs (plain.magnitude d) d.number := by
  obtain ⟨first, more, hdigits, -⟩ := h.head
  unfold Layout.magnitude
  rw [if_neg (by simp [hdigits])]
  split_ifs with hscientific
  · exact Layout.spelledAs_scientific h hpoint
  · refine Layout.spelledAs_positional h ?_
    have hleast : ¬ (6 : Int) ≤ d.point - 1 := fun h ↦ hscientific (.inr h)
    omega

end Layouts

/-- The text of a magnitude, with or without a minus in front, is read back. -/
theorem Layout.exists_spells {m : Nat} {e : Int} (h : Binary64.Canonical m e) :
    ∃ whole fraction exponent,
      Spells (plain.magnitude (Shortest.ofParts m e)).toList whole fraction exponent ∧
      (Significant.of whole fraction exponent).bits = Binary64.magnitudeBits m e := by
  by_cases hzero : m = 0
  · subst hzero
    have hexponent : e = Binary64.leastExponent := h.normal.resolve_left (by decide)
    have hspells : Spells (digitChars [0] ++ '.' :: digitChars [0]) [0] [0] 0 :=
      Numeral.spells_positional (by simp) (by simp) (by simp) (by simp)
    rw [show Shortest.ofParts 0 e = ⟨[], 0⟩ from rfl]
    refine ⟨[0], [0], 0, hspells, ?_⟩
    rw [hexponent]
    decide
  · have hm := Nat.pos_of_ne_zero hzero
    obtain ⟨hwritten, hmem⟩ := Shortest.ofParts_spec hm h
    have hpoint := Shortest.natAbs_point_lt hm h
    obtain ⟨whole, fraction, exponent, hspells, hlength, hnumber⟩ :=
      Layout.spelledAs_magnitude hwritten (by omega)
    exact ⟨whole, fraction, exponent, hspells,
      Significant.bits_of_mem hm h hlength (hnumber ▸ hmem)⟩

end Decimal

/-- Every double is read back from its text. -/
theorem Numeral.float?_write (x : Float) :
    Numeral.float? (Decimal.plain.write x).toList = some x := by
  unfold Decimal.Layout.write
  cases hview : Binary64.view x with
  | nan =>
    rw [← Binary64.view_nan hview]
    rfl
  | infinite negative =>
    rw [← Binary64.view_infinite hview]
    cases negative <;> rfl
  | finite negative mantissa exponent =>
    obtain ⟨hcanonical, hx⟩ := Binary64.view_finite hview
    obtain ⟨whole, fraction, exponent', hspells, hbits⟩ :=
      Decimal.Layout.exists_spells hcanonical
    dsimp only
    rw [← hx, ← hbits, String.toList_append]
    cases negative
    · exact hspells.float?_eq
    · exact hspells.float?_minus

theorem Numeral.wordToken_write (x : Float) :
    Lexeme.Scan.wordToken (Decimal.plain.write x) = .done (.float x 0) none := by
  rw [Lexeme.Scan.wordToken, Reader.ofWord, Numeral.read?, (Decimal.write_isWord x).2.1,
    Numeral.float?_write]
  rfl

end TokenLang

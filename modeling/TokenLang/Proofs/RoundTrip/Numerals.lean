import TokenLang.Proofs.Decimal
import TokenLang.Proofs.RoundTrip.Lexing

/-!
Numbers as they are written. An integer is read back from its decimal digits, every one of the
sixty-four bits included. What a float is written as is a word that is not read as an integer.
-/

set_option autoImplicit false
set_option relaxedAutoImplicit false

namespace TokenLang

open Lexeme.Scan (breaksWord charMark IsWord wordToken)

namespace Numeral

/-! ### Digits -/

theorem isDecimal_of_mem_toDigits {n : Nat} {c : Char} (h : c ∈ Nat.toDigits 10 n) :
    isDecimal c = true := Nat.isDigit_of_mem_toDigits (by decide) (by decide) h

theorem ofDigits_toDigits (n : Nat) : ofDigits 10 (Nat.toDigits 10 n) = n := by
  have hfold : ∀ (l : List Char) (start : Nat), (∀ c ∈ l, isDecimal c = true) →
      l.foldl (fun n c ↦ n * 10 + digitValue c) start = Nat.ofDigitChars 10 l start := by
    intro l
    induction l with
    | nil => intro start _; simp
    | cons c l ih =>
      intro start h
      have hc := h c (List.mem_cons_self ..)
      rw [List.foldl_cons, ih _ fun d hd ↦ h d (List.mem_cons_of_mem c hd),
        Nat.ofDigitChars_cons, digitValue, if_pos hc, Nat.mul_comm]
  rw [ofDigits, hfold _ 0 fun c hc ↦ isDecimal_of_mem_toDigits hc]
  exact Nat.ofDigitChars_ten_toDigits

theorem allDigits_toDigits (n : Nat) : allDigits isDecimal (Nat.toDigits 10 n) = true := by
  simp only [allDigits, Bool.and_eq_true, Bool.not_eq_true', List.isEmpty_eq_false_iff,
    List.all_eq_true]
  exact ⟨Nat.toDigits_ne_nil, fun c hc ↦ isDecimal_of_mem_toDigits hc⟩

/-! ### Integers -/

theorem dropSuffix_of_getLast {suffixes text : List Char} {c : Char}
    (h : text.getLast? = some c) (hc : c ∉ suffixes) : dropSuffix suffixes text = text := by
  simp [dropSuffix, h, hc]

/-- Decimal digits are never taken for hexadecimal or binary ones. -/
theorem int?_of_digits {negative : Bool} {text digits : List Char}
    (hsign : splitSign text = (negative, digits)) (hlast : ∀ c ∈ text.getLast?, isDecimal c = true)
    (hdigits : allDigits isDecimal digits = true) : int? text = decimal? negative digits := by
  have hdrop : dropSuffix ['l', 'L', 'n', 'N'] text = text := by
    cases hend : text.getLast? with
    | none => simp [dropSuffix, hend]
    | some c =>
      refine dropSuffix_of_getLast hend fun hc ↦ ?_
      have hdecimal := hlast c hend
      fin_cases hc <;> cases hdecimal
  unfold int?
  rw [hdrop, hsign]
  dsimp only
  have hsecond : ∀ c rest, digits = '0' :: c :: rest → isDecimal c = true := by
    rintro c rest rfl
    simp only [allDigits, Bool.and_eq_true, List.all_eq_true] at hdigits
    exact hdigits.2 c (by simp)
  split
  · cases hsecond _ _ rfl
  · cases hsecond _ _ rfl
  · cases hsecond _ _ rfl
  · cases hsecond _ _ rfl
  · rfl

theorem decimal?_of_fits {negative : Bool} {n : Nat} {i : Int64}
    (h : signed negative n = i.toInt) : decimal? negative (Nat.toDigits 10 n) = some i := by
  have hfits : Binary64.fitsInt64 i.toInt = true := by
    have hlow := i.minValue_le_toInt
    have hhigh := i.toInt_le
    simp only [Binary64.fitsInt64, Bool.and_eq_true, decide_eq_true_eq]
    exact ⟨hlow, hhigh⟩
  rw [decimal?, if_pos (allDigits_toDigits n), ofDigits_toDigits, h]
  dsimp only
  rw [if_pos hfits, Int64.ofInt_toInt]

/-- How an integer is written: its digits, with a minus in front if it is negative. -/
theorem toList_toString (i : Int) : (toString i).toList =
    if i < 0 then '-' :: Nat.toDigits 10 i.natAbs else Nat.toDigits 10 i.natAbs := by
  cases i with
  | ofNat n => exact Nat.toList_repr
  | negSucc n =>
    show ("-" ++ Nat.repr (n + 1)).toList = _
    rw [String.toList_append, Nat.toList_repr, if_pos (Int.negSucc_lt_zero n)]
    rfl

theorem splitSign_minus (rest : List Char) : splitSign ('-' :: rest) = (true, rest) := rfl

theorem splitSign_toDigits (n : Nat) :
    splitSign (Nat.toDigits 10 n) = (false, Nat.toDigits 10 n) := by
  cases hdigits : Nat.toDigits 10 n with
  | nil => exact absurd hdigits Nat.toDigits_ne_nil
  | cons c rest =>
    have hc : isDecimal c = true :=
      isDecimal_of_mem_toDigits (n := n) (by rw [hdigits]; exact List.mem_cons_self ..)
    unfold splitSign
    split
    · rename_i heq
      cases heq
      cases hc
    · rename_i heq
      cases heq
      cases hc
    · rfl

theorem isDecimal_of_getLast? {n : Nat} {c : Char} (h : c ∈ (Nat.toDigits 10 n).getLast?) :
    isDecimal c = true := isDecimal_of_mem_toDigits (List.mem_of_getLast? h)

theorem int?_toString (i : Int64) : int? (toString i.toInt).toList = some i := by
  rw [toList_toString]
  split_ifs with hnegative
  · have hlast : ∀ c ∈ ('-' :: Nat.toDigits 10 i.toInt.natAbs).getLast?, isDecimal c = true := by
      intro c hc
      rw [List.getLast?_cons, List.getLast?_eq_some_getLast Nat.toDigits_ne_nil] at hc
      cases hc
      exact isDecimal_of_mem_toDigits (List.getLast_mem Nat.toDigits_ne_nil)
    rw [int?_of_digits (splitSign_minus _) hlast (allDigits_toDigits _)]
    refine decimal?_of_fits ?_
    rw [signed, if_pos rfl]
    omega
  · rw [int?_of_digits (splitSign_toDigits _) (fun c ↦ isDecimal_of_getLast?)
      (allDigits_toDigits _)]
    refine decimal?_of_fits ?_
    rw [signed, if_neg Bool.false_ne_true]
    omega

theorem read?_toString (i : Int64) : read? (toString i.toInt) = some (.int i) := by
  rw [read?, int?_toString]

/-! ### Numbers are words -/

/-- The characters that numbers are written with. -/
def isNumberChar (c : Char) : Bool := isDecimal c || c == '.' || c == 'e' || c == '+' || c == '-'

/-- A text of such characters only. -/
def NumberText (text : String) : Prop := ∀ c ∈ text.toList, isNumberChar c = true

instance (text : String) : Decidable (NumberText text) :=
  decidable_of_iff (text.toList.all isNumberChar = true) List.all_eq_true

theorem NumberText.append {a b : String} (ha : NumberText a) (hb : NumberText b) :
    NumberText (a ++ b) := by
  intro c hc
  rw [String.toList_append] at hc
  rcases List.mem_append.mp hc with hc | hc
  · exact ha c hc
  · exact hb c hc

theorem breaksWord_eq_false_of_isNumberChar {c : Char} (h : isNumberChar c = true) :
    breaksWord c = false := by
  have hbreakers : breaksWord c = true → c ∈ [' ', '\t', '\n', '\r', ',', '\x0b', '\x0c', '(', '[',
      '\x7b', ')', ']', '\x7d', '\x27', '\x22', ':', '@', ';', '#', '~'] := by
    simp [breaksWord, Lexeme.Scan.isSeparator, Lexeme.Scan.isOpening, Lexeme.Scan.isClosing,
      Lexeme.Scan.isQuoteMark, or_assoc]
  by_contra hbreaks
  have hmem := hbreakers (by simpa using hbreaks)
  fin_cases hmem <;> cases h

theorem ne_charMark_of_isNumberChar {c : Char} (h : isNumberChar c = true) : c ≠ charMark := by
  rintro rfl
  cases h

theorem isWord_of_isNumberChar {l : List Char} (hne : l ≠ [])
    (h : ∀ c ∈ l, isNumberChar c = true) : IsWord l := by
  cases l with
  | nil => exact absurd rfl hne
  | cons c rest =>
    exact ⟨ne_charMark_of_isNumberChar (h c (List.mem_cons_self ..)), fun d hd ↦
      breaksWord_eq_false_of_isNumberChar (h d hd)⟩

theorem isNumberChar_of_isDecimal {c : Char} (h : isDecimal c = true) : isNumberChar c = true := by
  simp [isNumberChar, h]

theorem numberText_toString (i : Int) : NumberText (toString i) := by
  have hdigits : ∀ c ∈ Nat.toDigits 10 i.natAbs, isNumberChar c = true := fun c hc ↦
    isNumberChar_of_isDecimal (isDecimal_of_mem_toDigits hc)
  unfold NumberText
  rw [toList_toString]
  split_ifs
  · intro c hc
    rcases List.mem_cons.mp hc with rfl | hc
    · rfl
    · exact hdigits c hc
  · exact hdigits

theorem isWord_toString (i : Int) : IsWord (toString i).toList := by
  refine isWord_of_isNumberChar ?_ (numberText_toString i)
  rw [toList_toString]
  split_ifs
  · exact List.cons_ne_nil _ _
  · exact Nat.toDigits_ne_nil

theorem wordToken_toString (i : Int64) : wordToken (toString i.toInt) = .done (.int i) none := by
  rw [wordToken, Reader.ofWord, read?_toString]
  rfl

/-! ### Floats -/

/-- The text of a number that is no integer: a point, or the sign of an exponent, stands in it
after something else. -/
structure Marked (l : List Char) : Prop where
  chars : ∀ c ∈ l, isNumberChar c = true
  mark : ∃ front c back, l = front ++ c :: back ∧ front ≠ [] ∧ (c = '.' ∨ c = '+' ∨ c = '-')

theorem Marked.of_append {a b : String} {c : Char} (hne : a ≠ "")
    (hfront : NumberText a) (hc : c = '.' ∨ c = '+' ∨ c = '-') (hback : NumberText b) :
    Marked (a.toList ++ c :: b.toList) := by
  refine ⟨fun d hd ↦ ?_, _, c, _, rfl, fun h ↦ hne (String.toList_eq_nil_iff.mp h), hc⟩
  rcases List.mem_append.mp hd with hd | hd
  · exact hfront d hd
  · rcases List.mem_cons.mp hd with rfl | hd
    · rcases hc with rfl | rfl | rfl <;> rfl
    · exact hback d hd

theorem Marked.minus {l : List Char} (h : Marked l) : Marked ('-' :: l) := by
  obtain ⟨front, c, back, rfl, -, hc⟩ := h.mark
  refine ⟨fun d hd ↦ ?_, '-' :: front, c, back, rfl, List.cons_ne_nil _ _, hc⟩
  rcases List.mem_cons.mp hd with rfl | hd
  · rfl
  · exact h.chars d hd

theorem Marked.isWord {l : List Char} (h : Marked l) : IsWord l := by
  obtain ⟨front, c, back, rfl, hne, -⟩ := h.mark
  exact isWord_of_isNumberChar (by simp) h.chars

/-- No integer is written with a mark, which is still there once the sign is taken off. -/
theorem Marked.int?_eq_none {l : List Char} (h : Marked l) : int? l = none := by
  have hdrop : dropSuffix ['l', 'L', 'n', 'N'] l = l := by
    cases hend : l.getLast? with
    | none => simp [dropSuffix, hend]
    | some c =>
      refine dropSuffix_of_getLast hend fun hc ↦ ?_
      have hnumber := h.chars c (List.mem_of_getLast? hend)
      fin_cases hc <;> cases hnumber
  obtain ⟨front, c, back, hl, hne, hc⟩ := h.mark
  have hbody : ∃ negative body, splitSign l = (negative, body) ∧ c ∈ body ∧ body ⊆ l := by
    cases front with
    | nil => exact absurd rfl hne
    | cons f front =>
      rw [hl, List.cons_append]
      unfold splitSign
      split
      · rename_i heq
        cases heq
        exact ⟨false, _, rfl, by simp, List.subset_cons_self _ _⟩
      · rename_i heq
        cases heq
        exact ⟨true, _, rfl, by simp, List.subset_cons_self _ _⟩
      · exact ⟨false, _, rfl, by simp, List.Subset.refl _⟩
  obtain ⟨negative, body, hsign, hmem, hsub⟩ := hbody
  have hchars : ∀ d ∈ body, isNumberChar d = true := fun d hd ↦ h.chars d (hsub hd)
  unfold int?
  rw [hdrop, hsign]
  dsimp only
  split
  · cases hchars 'x' (by simp)
  · cases hchars 'X' (by simp)
  · cases hchars 'b' (by simp)
  · cases hchars 'B' (by simp)
  · have hdigits : allDigits isDecimal body = false := by
      refine Bool.eq_false_iff.mpr fun hall ↦ ?_
      simp only [allDigits, Bool.and_eq_true, List.all_eq_true] at hall
      have hdecimal := hall.2 c hmem
      rcases hc with rfl | rfl | rfl <;> cases hdecimal
    rw [decimal?, hdigits]
    rfl

end Numeral

namespace Decimal

open Numeral (isNumberChar Marked NumberText)

theorem isNumberChar_digit {d : Nat} (h : d < 10) : isNumberChar (Char.ofNat (48 + d)) = true := by
  revert h
  revert d
  decide

theorem Layout.numberText_digitText {digits : List Nat} (h : ∀ d ∈ digits, d < 10) :
    NumberText (Layout.digitText digits) := by
  intro c hc
  rw [Layout.digitText, String.toList_ofList] at hc
  obtain ⟨d, hd, rfl⟩ := List.mem_map.mp hc
  exact isNumberChar_digit (h d hd)

theorem Layout.numberText_zeros (n : Nat) : NumberText (Layout.zeros n) := by
  intro c hc
  rw [Layout.zeros, String.toList_ofList] at hc
  rw [List.eq_of_mem_replicate hc]
  rfl

section Magnitude

variable {d : Digits} (hd : ∀ x ∈ d.digits, x < 10) (hne : d.digits ≠ [])
include hd

theorem Layout.numberText_take (n : Nat) : NumberText (Layout.digitText (d.digits.take n)) :=
  Layout.numberText_digitText fun x hx ↦ hd x (List.mem_of_mem_take hx)

theorem Layout.numberText_drop (n : Nat) : NumberText (Layout.digitText (d.digits.drop n)) :=
  Layout.numberText_digitText fun x hx ↦ hd x (List.mem_of_mem_drop hx)

include hne

omit hd in
theorem Layout.digitText_take_append_ne_empty {n : Nat} (hn : n ≠ 0) (text : String) :
    Layout.digitText (d.digits.take n) ++ text ≠ "" := by
  obtain ⟨x, rest, hdigits⟩ := List.exists_cons_of_ne_nil hne
  obtain ⟨m, rfl⟩ := Nat.exists_eq_succ_of_ne_zero hn
  intro h
  have hlist := congrArg String.toList h
  simp [Layout.digitText, hdigits] at hlist

/-- A float that is written out has a point. -/
theorem Layout.marked_positional : Marked (Layout.positional d).toList := by
  unfold Layout.positional
  dsimp only
  generalize hwhole : (if d.point.toNat = 0 then "0" else _) = whole
  have hchars : NumberText whole := by
    rw [← hwhole]
    split_ifs
    · decide
    · exact (Layout.numberText_take hd _).append (Layout.numberText_zeros _)
  have hnonempty : whole ≠ "" := by
    rw [← hwhole]
    split_ifs with hzero
    · decide
    · exact Layout.digitText_take_append_ne_empty hne hzero _
  split_ifs
  · rw [String.toList_append]
    exact Marked.of_append (b := "0") hnonempty hchars (.inl rfl) (by decide)
  · rw [String.append_assoc, String.toList_append, String.toList_append (s := ".")]
    exact .of_append hnonempty hchars (.inl rfl)
      ((Layout.numberText_zeros _).append (Layout.numberText_drop hd _))

/-- A float that is written with an exponent has the sign of the exponent. -/
theorem Layout.marked_scientific : Marked (plain.scientific d).toList := by
  unfold Layout.scientific
  dsimp only
  generalize hfraction : (if d.digits.length ≤ 1 then "" else _) = fraction
  have hchars : NumberText fraction := by
    rw [← hfraction]
    split_ifs
    · decide
    · exact NumberText.append (a := ".") (by decide) (Layout.numberText_drop hd 1)
  have hsize : NumberText (toString (d.point - 1).natAbs) := by
    intro c hc
    rw [Nat.toString_eq_repr, Nat.toList_repr] at hc
    exact Numeral.isNumberChar_of_isDecimal (Numeral.isDecimal_of_mem_toDigits hc)
  have hfront : NumberText (Layout.digitText (d.digits.take 1) ++ fraction ++ plain.mark) :=
    ((Layout.numberText_take hd 1).append hchars).append (by decide)
  have hback := (Layout.numberText_zeros
    (plain.exponentWidth - (toString (d.point - 1).natAbs).length)).append hsize
  have hnonempty : Layout.digitText (d.digits.take 1) ++ fraction ++ plain.mark ≠ "" := by
    rw [String.append_assoc]
    exact Layout.digitText_take_append_ne_empty hne Nat.one_ne_zero _
  revert hfront hback hnonempty
  generalize Layout.digitText (d.digits.take 1) ++ fraction ++ plain.mark = front
  generalize Layout.zeros _ = zeros
  intro hfront hback hnonempty
  split_ifs
  · have hmarked := Marked.of_append (c := '-') hnonempty hfront (.inr (.inr rfl)) hback
    simpa using hmarked
  · have hmarked := Marked.of_append (c := '+') hnonempty hfront (.inr (.inl rfl)) hback
    simpa using hmarked

theorem Layout.marked_magnitude : Marked (plain.magnitude d).toList := by
  unfold Layout.magnitude
  rw [if_neg (by simpa using hne)]
  split_ifs
  · exact Layout.marked_scientific hd hne
  · exact Layout.marked_positional hd hne

end Magnitude

/-- What a double is written as: a name, or the text of a number that is no integer. -/
theorem write_cases (x : Float) :
    plain.write x ∈ ["NaN", "Infinity", "-Infinity"] ∨ Marked (plain.write x).toList := by
  have hzero : Marked "0.0".toList :=
    .of_append (a := "0") (b := "0") (by decide) (by decide) (.inl rfl) (by decide)
  unfold Layout.write
  split
  · exact .inl (by decide)
  · rename_i negative _
    cases negative
    · exact .inl (by decide)
    · exact .inl (by decide)
  · rename_i negative mantissa exponent hview
    have hmagnitude : Marked (plain.magnitude (Shortest.ofParts mantissa exponent)).toList := by
      by_cases hempty : mantissa = 0
      · subst hempty
        exact hzero
      · obtain ⟨hwritten, -⟩ :=
          Shortest.ofParts_spec (Nat.pos_of_ne_zero hempty) (Binary64.view_finite hview).1
        obtain ⟨first, more, hdigits, -⟩ := hwritten.head
        exact Layout.marked_magnitude hwritten.lt_ten (hdigits ▸ List.cons_ne_nil _ _)
    right
    rw [String.toList_append]
    cases negative
    · exact hmagnitude
    · exact hmagnitude.minus

/-- It is a word, no integer, and does not begin with the mark that a reader drops. -/
theorem write_isWord (x : Float) : IsWord (plain.write x).toList ∧
    Numeral.int? (plain.write x).toList = none ∧
    (plain.write x).toList.head? ≠ some Text.Source.byteOrderMark := by
  rcases write_cases x with hname | hmarked
  · generalize plain.write x = text at hname
    fin_cases hname
    all_goals exact ⟨by decide, rfl, by decide⟩
  · refine ⟨hmarked.isWord, hmarked.int?_eq_none, fun hhead ↦ ?_⟩
    exact absurd (hmarked.chars _ (List.mem_of_head? hhead)) (by decide)

end Decimal

end TokenLang

import TokenLang.Proofs.Decimal.Rounding
import TokenLang.Proofs.RoundTrip.Floats

/-!
The grammar of number literals. A literal is a sign, a body and a suffix, of which the sign and the
suffix may be missing. The bodies of integers are decimal digits that spell a number of sixty-four
bits, or the hexadecimal or binary digits of such bits; the bodies of floats are two names, and
digits with a fraction and an exponent. What is read from a text is what the grammar gives it
(`Numeral.read?_grammar`).
-/

set_option autoImplicit false
set_option relaxedAutoImplicit false

namespace TokenLang.Numeral

open Decimal.Nearest (Significant)

/-! ### The grammar -/

/-- A digit of a base, in either case. -/
def IsDigit (base : Nat) (c : Char) (d : Nat) : Prop :=
  d < base ∧ (c = Nat.digitChar d ∨ c = (Nat.digitChar d).toUpper)

instance (base : Nat) (c : Char) (d : Nat) : Decidable (IsDigit base c d) :=
  inferInstanceAs (Decidable (_ ∧ _))

/-- One digit of a base or more. -/
structure Digits (base : Nat) (text : List Char) (digits : List Nat) : Prop where
  ne_nil : text ≠ []
  each : List.Forall₂ (IsDigit base) text digits

/-- The number that digits of a base spell, the most significant first. -/
def spelled (base : Nat) (digits : List Nat) : Nat := Nat.ofDigits base digits.reverse

/-- A sign, true for a minus, which may be missing. -/
inductive Sign : List Char → Bool → Prop
  | missing : Sign [] false
  | plus : Sign ['+'] false
  | minus : Sign ['-'] true

/-- One of some letters, which may be missing. -/
inductive Suffix (letters : List Char) : List Char → Prop
  | missing : Suffix letters []
  | letter {c : Char} (h : c ∈ letters) : Suffix letters [c]

/-- A text with a body between a sign and a suffix. -/
inductive Affixed (letters : List Char) : Bool → List Char → List Char → Prop
  | mk {sign body suffix : List Char} {negative : Bool} (hsign : Sign sign negative)
      (hsuffix : Suffix letters suffix) : Affixed letters negative body (sign ++ body ++ suffix)

/-- What tells a base other than ten, with the base and the number of its digits that sixty-four
bits have. -/
inductive BaseMark : Char → Nat → Nat → Prop
  | x : BaseMark 'x' 16 16
  | X : BaseMark 'X' 16 16
  | b : BaseMark 'b' 2 64
  | B : BaseMark 'B' 2 64

/-- The bodies of integers. Decimal digits spell the integer; other digits spell its bits, to which
the sign applies modulo `2 ^ 64`. -/
inductive IntBody (negative : Bool) : List Char → Int64 → Prop
  | decimal {text : List Char} {digits : List Nat} {i : Int64} (hdigits : Digits 10 text digits)
      (hvalue : i.toInt = signed negative (spelled 10 digits)) : IntBody negative text i
  | bits {mark : Char} {base most : Nat} {text : List Char} {digits : List Nat} {i : Int64}
      (hmark : BaseMark mark base most) (hdigits : Digits base text digits)
      (hlength : text.length ≤ most)
      (hvalue : i.toInt = (signed negative (spelled base digits)).bmod (2 ^ 64)) :
      IntBody negative ('0' :: mark :: text) i

/-- The texts of integers. -/
def IntText (text : List Char) (i : Int64) : Prop :=
  ∃ negative body, Affixed ['l', 'L', 'n', 'N'] negative body text ∧ IntBody negative body i

/-- A point with digits after it, which may be missing. -/
inductive Fraction : List Char → List Nat → Prop
  | missing : Fraction [] []
  | digits {text : List Char} {digits : List Nat} (h : Digits 10 text digits) :
      Fraction ('.' :: text) digits

/-- The sign and the digits of a power of ten, which may be missing. -/
inductive Exponent : List Char → Bool → List Nat → Prop
  | missing : Exponent [] false []
  | digits {mark : Char} {sign text : List Char} {negative : Bool} {digits : List Nat}
      (hmark : mark ∈ ['e', 'E']) (hsign : Sign sign negative) (h : Digits 10 text digits) :
      Exponent (mark :: (sign ++ text)) negative digits

/-- What is taken in of the digits of an exponent, one after the other while it is below the
bound. -/
def takenIn (digits : List Nat) : Nat :=
  digits.foldl (fun e d ↦ if e < exponentBound then e * 10 + d else e) 0

/-- The bodies of floats. -/
inductive FloatBody (negative : Bool) : List Char → Float → Prop
  | nan : FloatBody negative "NaN".toList Binary64.nan
  | infinity : FloatBody negative "Infinity".toList (Binary64.infinity negative)
  | decimal {text point tail : List Char} {whole fraction power : List Nat} {small : Bool}
      (hwhole : Digits 10 text whole) (hfraction : Fraction point fraction)
      (hexponent : Exponent tail small power) : FloatBody negative (text ++ point ++ tail)
        (Binary64.ofBits negative
          (Significant.of whole fraction (signed small (takenIn power))).bits)

/-- The texts of floats. -/
def FloatText (text : List Char) (x : Float) : Prop :=
  ∃ negative body, Affixed ['f', 'F', 'm', 'M'] negative body text ∧ FloatBody negative body x

/-! ### Digits -/

/-- A test that knows the digits of a base. -/
def Knows (isDigit : Char → Bool) (base : Nat) : Prop :=
  ∀ c d, IsDigit base c d ↔ isDigit c = true ∧ digitValue c = d

theorem knows_of_base {isDigit : Char → Bool} {base : Nat}
    (hchar : ∀ c, isDigit c = true → c.toNat < 128)
    (hdigit : ∀ n < 128, isDigit (Char.ofNat n) = true →
      IsDigit base (Char.ofNat n) (digitValue (Char.ofNat n)))
    (hvalue : ∀ d < base, (isDigit (Nat.digitChar d) = true ∧ digitValue (Nat.digitChar d) = d) ∧
      isDigit (Nat.digitChar d).toUpper = true ∧ digitValue (Nat.digitChar d).toUpper = d) :
    Knows isDigit base := by
  intro c d
  constructor
  · rintro ⟨hd, rfl | rfl⟩
    · exact (hvalue d hd).1
    · exact (hvalue d hd).2
  · rintro ⟨hc, rfl⟩
    have h := hdigit c.toNat (hchar c hc)
    rw [Char.ofNat_toNat] at h
    exact h hc

theorem toNat_lt_of_isHex {c : Char} (h : isHex c = true) : c.toNat < 128 := by
  have hle : ∀ last : Char, c ≤ last → c.toNat ≤ last.toNat := fun _ hlast ↦ hlast
  unfold isHex isDecimal at h
  simp only [Bool.or_eq_true, Bool.and_eq_true, decide_eq_true_eq] at h
  rcases h with (⟨-, h⟩ | ⟨-, h⟩) | ⟨-, h⟩
  · exact (hle _ h).trans_lt (by decide)
  · exact (hle _ h).trans_lt (by decide)
  · exact (hle _ h).trans_lt (by decide)

theorem isHex_of_isDecimal {c : Char} (h : isDecimal c = true) : isHex c = true := by
  simp [isHex, h]

theorem isHex_of_isBinary {c : Char} (h : isBinary c = true) : isHex c = true := by
  rcases Bool.or_eq_true_iff.mp h with h | h
  · rw [beq_iff_eq.mp h]
    rfl
  · rw [beq_iff_eq.mp h]
    rfl

theorem knows_isDecimal : Knows isDecimal 10 :=
  knows_of_base (fun _ hc ↦ toNat_lt_of_isHex (isHex_of_isDecimal hc)) (by decide +kernel)
    (by decide)

theorem knows_isHex : Knows isHex 16 :=
  knows_of_base (fun _ hc ↦ toNat_lt_of_isHex hc) (by decide +kernel) (by decide)

theorem knows_isBinary : Knows isBinary 2 :=
  knows_of_base (fun _ hc ↦ toNat_lt_of_isHex (isHex_of_isBinary hc)) (by decide +kernel)
    (by decide)

theorem allDigits_iff {isDigit : Char → Bool} {text : List Char} :
    allDigits isDigit text = true ↔ text ≠ [] ∧ ∀ c ∈ text, isDigit c = true := by
  simp [allDigits]

theorem digits_iff {isDigit : Char → Bool} {base : Nat} (h : Knows isDigit base)
    {text : List Char} {digits : List Nat} : Digits base text digits ↔
      allDigits isDigit text = true ∧ text.map digitValue = digits := by
  have heach : List.Forall₂ (IsDigit base) text digits ↔
      (∀ c ∈ text, isDigit c = true) ∧ text.map digitValue = digits := by
    induction text generalizing digits with
    | nil => cases digits <;> simp
    | cons c text ih =>
      cases digits with
      | nil => simp
      | cons d digits =>
        rw [List.forall₂_cons, h, ih, List.forall_mem_cons, List.map_cons, List.cons.injEq]
        tauto
  rw [allDigits_iff, and_assoc, ← heach]
  exact ⟨fun h ↦ ⟨h.ne_nil, h.each⟩, fun h ↦ ⟨h.1, h.2⟩⟩

theorem Digits.isDecimal {text : List Char} {digits : List Nat} (h : Digits 10 text digits) :
    ∀ c ∈ text, Numeral.isDecimal c = true :=
  (allDigits_iff.mp ((digits_iff knows_isDecimal).mp h).1).2

theorem Digits.isHex {base : Nat} (hbase : base ≤ 16) {text : List Char} {digits : List Nat}
    (h : Digits base text digits) : ∀ c ∈ text, Numeral.isHex c = true := by
  have hhex : Digits 16 text digits :=
    ⟨h.ne_nil, h.each.imp fun _ _ hd ↦ ⟨hd.1.trans_le hbase, hd.2⟩⟩
  exact (allDigits_iff.mp ((digits_iff knows_isHex).mp hhex).1).2

theorem ofDigits_eq_spelled (base : Nat) (text : List Char) :
    ofDigits base text = spelled base (text.map digitValue) := by
  induction text using List.reverseRecOn with
  | nil => rfl
  | append_singleton text c ih =>
    rw [ofDigits_concat, ih, spelled, spelled, List.map_append, List.reverse_append]
    show _ = Nat.ofDigits base (digitValue c :: (text.map digitValue).reverse)
    rw [Nat.ofDigits_cons]
    ring

/-! ### Signs and suffixes -/

theorem sign_of_splitSign {text body : List Char} {negative : Bool}
    (h : splitSign text = (negative, body)) : ∃ sign, Sign sign negative ∧ text = sign ++ body := by
  unfold splitSign at h
  split at h
  · obtain ⟨rfl, rfl⟩ := Prod.mk.inj h
    exact ⟨_, .plus, rfl⟩
  · obtain ⟨rfl, rfl⟩ := Prod.mk.inj h
    exact ⟨_, .minus, rfl⟩
  · obtain ⟨rfl, rfl⟩ := Prod.mk.inj h
    exact ⟨_, .missing, rfl⟩

theorem suffix_of_dropSuffix (letters text : List Char) :
    ∃ suffix, Suffix letters suffix ∧ text = dropSuffix letters text ++ suffix := by
  unfold dropSuffix
  split
  · rename_i c hlast
    split_ifs with h
    · exact ⟨[c], .letter h.2, (List.dropLast_append_getLast? c hlast).symm⟩
    · exact ⟨[], .missing, (List.append_nil text).symm⟩
  · exact ⟨[], .missing, (List.append_nil text).symm⟩

/-- What is left of a text without its suffix and its sign is a body of it. -/
theorem affixed_of_splitSign {letters text body : List Char} {negative : Bool}
    (h : splitSign (dropSuffix letters text) = (negative, body)) :
    Affixed letters negative body text := by
  obtain ⟨suffix, hsuffix, htext⟩ := suffix_of_dropSuffix letters text
  obtain ⟨sign, hsign, hbody⟩ := sign_of_splitSign h
  rw [htext, hbody]
  exact .mk hsign hsuffix

/-- A body that starts with none of the signs and ends in none of the letters. -/
structure Bare (letters body : List Char) : Prop where
  ne_nil : body ≠ []
  head : ∀ c ∈ body.head?, c ≠ '+' ∧ c ≠ '-'
  last : ∀ c ∈ body.getLast?, c ∉ letters

theorem bare_of_ends {letters body : List Char} (first last : Char)
    (hfirst : body.head? = some first) (hsign : first ≠ '+' ∧ first ≠ '-')
    (hlast : body.getLast? = some last) (hletter : last ∉ letters) : Bare letters body where
  ne_nil := by
    rintro rfl
    cases hfirst
  head c hc := by
    obtain rfl := Option.some.inj (hfirst.symm.trans hc)
    exact hsign
  last c hc := by
    obtain rfl := Option.some.inj (hlast.symm.trans hc)
    exact hletter

theorem splitSign_append {letters sign body : List Char} {negative : Bool}
    (hsign : Sign sign negative) (hbody : Bare letters body) :
    splitSign (sign ++ body) = (negative, body) := by
  cases hsign with
  | missing =>
    obtain ⟨c, rest, rfl⟩ := List.exists_cons_of_ne_nil hbody.ne_nil
    obtain ⟨hplus, hminus⟩ := hbody.head c rfl
    simp [splitSign, hplus, hminus]
  | plus => rfl
  | minus => rfl

/-- Such a body is what is left of a text that has it. -/
theorem Affixed.splitSign_eq {letters text body : List Char} {negative : Bool}
    (h : Affixed letters negative body text) (hbody : Bare letters body) :
    splitSign (dropSuffix letters text) = (negative, body) := by
  obtain ⟨hsign, hsuffix⟩ := h
  rename_i sign suffix
  have hdrop : dropSuffix letters (sign ++ body ++ suffix) = sign ++ body := by
    cases hsuffix with
    | missing =>
      obtain ⟨front, c, rfl⟩ := (List.eq_nil_or_concat' body).resolve_left hbody.ne_nil
      rw [List.append_nil]
      refine dropSuffix_of_getLast (c := c) (by simp) (hbody.last c (by simp))
    | letter hc =>
      have hlength : 0 < body.length := List.length_pos_iff.mpr hbody.ne_nil
      simp [dropSuffix, hc]
      omega
  rw [hdrop, splitSign_append hsign hbody]

/-! ### Integers -/

/-- Decimal digits are read as the number they stand for, with the sign in front, if it fits. -/
theorem decimal?_eq_some_iff {negative : Bool} {text : List Char} {i : Int64} :
    decimal? negative text = some i ↔
      ∃ digits, Digits 10 text digits ∧ i.toInt = signed negative (spelled 10 digits) := by
  simp only [digits_iff knows_isDecimal, and_assoc, exists_and_left, exists_eq_left',
    ← ofDigits_eq_spelled]
  unfold decimal?
  split_ifs with hdigits
  · have hfits : Binary64.fitsInt64 (signed negative (ofDigits 10 text)) = true ↔
        Int64.minValue.toInt ≤ signed negative (ofDigits 10 text) ∧
          signed negative (ofDigits 10 text) ≤ Int64.maxValue.toInt := by
      simp [Binary64.fitsInt64]
    dsimp only
    generalize signed negative (ofDigits 10 text) = value at hfits ⊢
    split_ifs with h
    · obtain ⟨hlow, hhigh⟩ := hfits.mp h
      have hvalue : (Int64.ofInt value).toInt = value := Int64.toInt_ofInt_of_le hlow
        (Int.lt_add_one_of_le hhigh)
      simp only [Option.some.injEq, hdigits, true_and]
      constructor
      · rintro rfl
        exact hvalue
      · rintro hi
        rw [← hi, Int64.ofInt_toInt]
    · simp only [hdigits, true_and, false_iff]
      intro hi
      exact h (hfits.mpr ⟨hi ▸ i.minValue_le_toInt, hi ▸ i.toInt_le⟩)
  · simp [hdigits]

theorem bitPattern?_eq_some_iff {isDigit : Char → Bool} {base : Nat} (h : Knows isDigit base)
    {most : Nat} {negative : Bool} {text : List Char} {i : Int64} :
    bitPattern? base most isDigit negative text = some i ↔
      ∃ digits, Digits base text digits ∧ text.length ≤ most ∧
        i.toInt = (signed negative (spelled base digits)).bmod (2 ^ 64) := by
  simp only [digits_iff h, and_assoc, exists_and_left, exists_eq_left', ← ofDigits_eq_spelled]
  unfold bitPattern?
  simp only [Option.ite_none_right_eq_some, Bool.and_eq_true, decide_eq_true_eq,
    Option.some.injEq]
  rw [← Int64.toInt_inj, Int64.toInt_ofInt]
  constructor
  · rintro ⟨⟨hlength, hdigits⟩, hi⟩
    exact ⟨hdigits, hlength, hi.symm⟩
  · rintro ⟨hdigits, hlength, hi⟩
    exact ⟨⟨hlength, hdigits⟩, hi.symm⟩

theorem BaseMark.intBody {mark : Char} {base most : Nat} (hmark : BaseMark mark base most)
    {isDigit : Char → Bool} (h : Knows isDigit base) {negative : Bool} {text : List Char}
    {i : Int64} (hread : bitPattern? base most isDigit negative text = some i) :
    IntBody negative ('0' :: mark :: text) i := by
  obtain ⟨digits, hdigits, hlength, hvalue⟩ := (bitPattern?_eq_some_iff h).mp hread
  exact .bits hmark hdigits hlength hvalue

/-- An integer is read from what is left of a text without its suffix and its sign. -/
theorem int?_iff_intBody {text body : List Char} {negative : Bool} {i : Int64}
    (hsplit : splitSign (dropSuffix ['l', 'L', 'n', 'N'] text) = (negative, body)) :
    int? text = some i ↔ IntBody negative body i := by
  unfold int?
  rw [hsplit]
  dsimp only
  constructor
  · intro hread
    split at hread
    · exact BaseMark.x.intBody knows_isHex hread
    · exact BaseMark.X.intBody knows_isHex hread
    · exact BaseMark.b.intBody knows_isBinary hread
    · exact BaseMark.B.intBody knows_isBinary hread
    · obtain ⟨digits, hdigits, hvalue⟩ := decimal?_eq_some_iff.mp hread
      exact .decimal hdigits hvalue
  · intro hbody
    cases hbody with
    | decimal hdigits hvalue =>
      have hread := decimal?_eq_some_iff.mpr ⟨_, hdigits, hvalue⟩
      have hsecond : ∀ c rest, body = '0' :: c :: rest → isDecimal c = true := by
        rintro c rest rfl
        exact hdigits.isDecimal c (by simp)
      split
      · cases hsecond _ _ rfl
      · cases hsecond _ _ rfl
      · cases hsecond _ _ rfl
      · cases hsecond _ _ rfl
      · exact hread
    | bits hmark hdigits hlength hvalue =>
      obtain ⟨c, rest, rfl⟩ := List.exists_cons_of_ne_nil hdigits.ne_nil
      cases hmark with
      | x => exact (bitPattern?_eq_some_iff knows_isHex).mpr ⟨_, hdigits, hlength, hvalue⟩
      | X => exact (bitPattern?_eq_some_iff knows_isHex).mpr ⟨_, hdigits, hlength, hvalue⟩
      | b => exact (bitPattern?_eq_some_iff knows_isBinary).mpr ⟨_, hdigits, hlength, hvalue⟩
      | B => exact (bitPattern?_eq_some_iff knows_isBinary).mpr ⟨_, hdigits, hlength, hvalue⟩

theorem BaseMark.base_le {mark : Char} {base most : Nat} (h : BaseMark mark base most) :
    base ≤ 16 := by
  cases h <;> decide

theorem ne_sign_of_isHex {c : Char} (h : isHex c = true) : c ≠ '+' ∧ c ≠ '-' := by
  constructor
  · rintro rfl
    cases h
  · rintro rfl
    cases h

theorem IntBody.bare {negative : Bool} {body : List Char} {i : Int64}
    (h : IntBody negative body i) : Bare ['l', 'L', 'n', 'N'] body := by
  have hlast : ∀ c, isHex c = true → c ∉ ['l', 'L', 'n', 'N'] := by
    intro c hc hletter
    fin_cases hletter <;> cases hc
  cases h with
  | decimal hdigits hvalue =>
    have hhex := hdigits.isHex (by decide)
    exact ⟨hdigits.ne_nil, fun c hc ↦ ne_sign_of_isHex (hhex c (List.mem_of_head? hc)),
      fun c hc ↦ hlast c (hhex c (List.mem_of_getLast? hc))⟩
  | bits hmark hdigits hlength hvalue =>
    refine ⟨List.cons_ne_nil _ _, fun c hc ↦ ?_, fun c hc ↦ hlast c ?_⟩
    · obtain rfl : c = '0' := (Option.mem_some_iff.mp hc).symm
      decide
    · obtain ⟨d, rest, rfl⟩ := List.exists_cons_of_ne_nil hdigits.ne_nil
      rw [List.getLast?_cons_cons, List.getLast?_cons_cons] at hc
      exact hdigits.isHex hmark.base_le c (List.mem_of_getLast? hc)

/-- The texts from which integers are read. -/
theorem int?_eq_some_iff {text : List Char} {i : Int64} :
    int? text = some i ↔ IntText text i := by
  constructor
  · intro h
    exact ⟨_, _, affixed_of_splitSign rfl, (int?_iff_intBody rfl).mp h⟩
  · rintro ⟨negative, body, haffixed, hbody⟩
    exact (int?_iff_intBody (haffixed.splitSign_eq hbody.bare)).mpr hbody

/-! ### Floats -/

theorem cut_cases {p : Char → Bool} (text : List Char) :
    (cut p text = (text, none) ∧ ∀ c ∈ text, p c = false) ∨
      ∃ front c back, cut p text = (front, some back) ∧ text = front ++ c :: back ∧
        p c = true ∧ ∀ c ∈ front, p c = false := by
  by_cases h : ∀ c ∈ text, p c = false
  · exact .inl ⟨cut_of_forall h, h⟩
  · induction text with
    | nil => exact absurd (fun _ hc ↦ absurd hc List.not_mem_nil) h
    | cons c text ih =>
      by_cases hc : p c = true
      · exact .inr ⟨[], c, text, cut_append (fun _ h ↦ absurd h List.not_mem_nil) hc text, rfl, hc,
          fun _ h ↦ absurd h List.not_mem_nil⟩
      · rw [Bool.not_eq_true] at hc
        have htext : ¬∀ d ∈ text, p d = false := fun hall ↦
          h (List.forall_mem_cons.mpr ⟨hc, hall⟩)
        obtain ⟨-, hall⟩ | ⟨front, d, back, -, rfl, hd, hfront⟩ := ih htext
        · exact absurd hall htext
        · have hfront' : ∀ d ∈ c :: front, p d = false := List.forall_mem_cons.mpr ⟨hc, hfront⟩
          exact .inr ⟨c :: front, d, back, cut_append hfront' hd back, rfl, hd, hfront'⟩

theorem fraction_of_fraction? {text : List Char} {digits : List Char}
    (h : fraction? (cut (· == '.') text).2 = some digits) :
    ∃ point, Fraction point (digits.map digitValue) ∧ text = (cut (· == '.') text).1 ++ point := by
  obtain ⟨hcut, -⟩ | ⟨front, c, back, hcut, htext, hc, -⟩ := cut_cases (p := (· == '.')) text
  · rw [hcut] at h ⊢
    obtain rfl := Option.some.inj h
    exact ⟨[], .missing, (List.append_nil text).symm⟩
  · rw [hcut] at h ⊢
    obtain ⟨hall, rfl⟩ : allDigits isDecimal back = true ∧ back = digits := by
      simpa [fraction?] using h
    rw [beq_iff_eq.mp hc] at htext
    exact ⟨'.' :: back, .digits ((digits_iff knows_isDecimal).mpr ⟨hall, rfl⟩), htext⟩

theorem exponentOf_eq_takenIn (text : List Char) :
    exponentOf text = takenIn (text.map digitValue) := by
  rw [takenIn, List.foldl_map]
  rfl

theorem exponent_of_exponent? {text : List Char} {exponent : Int}
    (h : exponent? (cut (fun c ↦ c == 'e' || c == 'E') text).2 = some exponent) :
    ∃ tail small power, Exponent tail small power ∧ signed small (takenIn power) = exponent ∧
      text = (cut (fun c ↦ c == 'e' || c == 'E') text).1 ++ tail := by
  obtain ⟨hcut, -⟩ | ⟨front, c, back, hcut, htext, hc, -⟩ :=
    cut_cases (p := fun c ↦ c == 'e' || c == 'E') text
  · rw [hcut] at h ⊢
    obtain rfl := Option.some.inj h
    exact ⟨[], false, [], .missing, rfl, (List.append_nil text).symm⟩
  · rw [hcut] at h ⊢
    have hmark : c ∈ ['e', 'E'] := by simpa using hc
    rcases hsplit : splitSign back with ⟨negative, digits⟩
    obtain ⟨sign, hsign, rfl⟩ := sign_of_splitSign hsplit
    obtain ⟨hall, rfl⟩ : allDigits isDecimal digits = true ∧
        signed negative (exponentOf digits) = exponent := by
      simpa [exponent?, hsplit] using h
    rw [exponentOf_eq_takenIn]
    exact ⟨_, _, _, .digits hmark hsign ((digits_iff knows_isDecimal).mpr ⟨hall, rfl⟩), rfl, htext⟩

theorem Digits.bare {letters text : List Char} {digits : List Nat} (h : Digits 10 text digits)
    (hletters : ∀ c ∈ letters, Numeral.isDecimal c = false) : Bare letters text where
  ne_nil := h.ne_nil
  head c hc := ne_sign_of_isHex (isHex_of_isDecimal (h.isDecimal c (List.mem_of_head? hc)))
  last c hc hletter := by
    have hdecimal := h.isDecimal c (List.mem_of_getLast? hc)
    rw [hletters c hletter] at hdecimal
    cases hdecimal

theorem Exponent.exponent?_eq {tail : List Char} {small : Bool} {power : List Nat}
    (h : Exponent tail small power) {front : List Char}
    (hfront : ∀ c ∈ front, (c == 'e' || c == 'E') = false) :
    ∃ back, cut (fun c ↦ c == 'e' || c == 'E') (front ++ tail) = (front, back) ∧
      exponent? back = some (signed small (takenIn power)) := by
  cases h with
  | missing =>
    rw [List.append_nil]
    exact ⟨none, cut_of_forall hfront, rfl⟩
  | digits hmark hsign hdigits =>
    obtain ⟨hall, rfl⟩ := (digits_iff knows_isDecimal).mp hdigits
    refine ⟨_, cut_append hfront (by simpa using hmark) _, ?_⟩
    rw [← exponentOf_eq_takenIn]
    have hbare : Bare [] _ := hdigits.bare fun c hc ↦ absurd hc List.not_mem_nil
    exact exponent?_of_splitSign (splitSign_append hsign hbare) hall

theorem Fraction.fraction?_eq {point : List Char} {fraction : List Nat}
    (h : Fraction point fraction) {front : List Char} (hfront : ∀ c ∈ front, (c == '.') = false) :
    ∃ back digits, cut (· == '.') (front ++ point) = (front, back) ∧
      fraction? back = some digits ∧ digits.map digitValue = fraction := by
  cases h with
  | missing =>
    rw [List.append_nil]
    exact ⟨none, [], cut_of_forall hfront, rfl, rfl⟩
  | digits hdigits =>
    obtain ⟨hall, hvalue⟩ := (digits_iff knows_isDecimal).mp hdigits
    exact ⟨_, _, cut_append hfront rfl _, if_pos hall, hvalue⟩

theorem Digits.isDecimal_of_getLast? {text : List Char} {digits : List Nat}
    (h : Digits 10 text digits) (front : List Char) :
    ∀ c ∈ (front ++ text).getLast?, Numeral.isDecimal c = true := by
  intro c hc
  rw [List.getLast?_append, List.getLast?_eq_some_getLast h.ne_nil] at hc
  obtain rfl : text.getLast h.ne_nil = c := Option.some.inj hc
  exact h.isDecimal _ (List.getLast_mem h.ne_nil)

/-- Where digits stand in front, a fraction or an exponent ends in a digit or is missing. -/
theorem isDecimal_of_getLast?_parts {text point tail : List Char} {whole fraction power : List Nat}
    {small : Bool} (hwhole : Digits 10 text whole) (hfraction : Fraction point fraction)
    (hexponent : Exponent tail small power) :
    ∀ c ∈ (text ++ point ++ tail).getLast?, isDecimal c = true := by
  cases hexponent with
  | digits hmark hsign hdigits =>
    rw [← List.cons_append, ← List.append_assoc]
    exact hdigits.isDecimal_of_getLast? _
  | missing =>
    rw [List.append_nil]
    cases hfraction with
    | digits hdigits =>
      rw [← List.singleton_append, ← List.append_assoc]
      exact hdigits.isDecimal_of_getLast? _
    | missing =>
      rw [List.append_nil]
      exact hwhole.isDecimal_of_getLast? []

/-- Digits with a fraction and an exponent. -/
theorem spells_of_parts {text point tail : List Char} {whole fraction power : List Nat}
    {small : Bool} (hwhole : Digits 10 text whole) (hfraction : Fraction point fraction)
    (hexponent : Exponent tail small power) :
    Spells (text ++ point ++ tail) whole fraction (signed small (takenIn power)) := by
  obtain ⟨hall, hvalue⟩ := (digits_iff knows_isDecimal).mp hwhole
  have hplain : ∀ c ∈ text ++ point, (c == 'e' || c == 'E') = false := by
    intro c hc
    rcases List.mem_append.mp hc with hc | hc
    · exact (ne_of_isDecimal (hwhole.isDecimal c hc)).1
    · cases hfraction with
      | missing => cases hc
      | digits hdigits =>
        rcases List.mem_cons.mp hc with rfl | hc
        · rfl
        · exact (ne_of_isDecimal (hdigits.isDecimal c hc)).1
  obtain ⟨tail', hcut, htail⟩ := hexponent.exponent?_eq hplain
  obtain ⟨dotted, behind, hdot, hbehind, hdigits⟩ :=
    hfraction.fraction?_eq fun c hc ↦ (ne_of_isDecimal (hwhole.isDecimal c hc)).2
  refine ⟨fun c hc ↦ ?_, isDecimal_of_getLast?_parts hwhole hfraction hexponent, ?_, text ++ point,
    tail', text, dotted, behind, hcut, hdot, htail, hbehind, hall, hvalue, hdigits⟩
  · obtain ⟨first, rest, rfl⟩ := List.exists_cons_of_ne_nil hwhole.ne_nil
    obtain rfl : first = c := Option.some.inj hc
    exact hwhole.isDecimal first List.mem_cons_self
  · simp [hwhole.ne_nil]

/-- A float is read from what is left of a text without its suffix and its sign. -/
theorem float?_iff_floatBody {text body : List Char} {negative : Bool} {x : Float}
    (hsplit : splitSign (dropSuffix ['f', 'F', 'm', 'M'] text) = (negative, body)) :
    float? text = some x ↔ FloatBody negative body x := by
  unfold float?
  rw [hsplit]
  dsimp only
  constructor
  · intro hread
    by_cases hnan : body = "NaN".toList
    · rw [if_pos hnan] at hread
      obtain rfl := Option.some.inj hread
      exact hnan ▸ .nan
    by_cases hinfinity : body = "Infinity".toList
    · rw [if_neg hnan, if_pos hinfinity] at hread
      obtain rfl := Option.some.inj hread
      exact hinfinity ▸ .infinity
    · rw [if_neg hnan, if_neg hinfinity] at hread
      split at hread
      · rename_i exponent fraction hexponent hfraction
        split_ifs at hread with hwhole
        obtain rfl := Option.some.inj hread
        obtain ⟨tail, small, power, htail, rfl, hbody⟩ := exponent_of_exponent? hexponent
        obtain ⟨point, hpoint, hmantissa⟩ := fraction_of_fraction? hfraction
        have hdigits := (digits_iff knows_isDecimal).mpr ⟨hwhole, rfl⟩
        have hdecimal : FloatBody negative _ _ := .decimal hdigits hpoint htail
        rwa [← hmantissa, ← hbody] at hdecimal
      · cases hread
  · intro hbody
    cases hbody with
    | nan => rw [if_pos rfl]
    | infinity => rw [if_neg (by decide), if_pos rfl]
    | decimal hwhole hfraction hexponent =>
      have hspells := spells_of_parts hwhole hfraction hexponent
      obtain ⟨mantissa, tail, front, dotted, behind, hcut, hdot, htail, hbehind, hfront, rfl,
        rfl⟩ := hspells.parts
      rw [if_neg fun h ↦ ?_, if_neg fun h ↦ ?_, hcut]
      · dsimp only
        rw [hdot, htail]
        dsimp only
        rw [hbehind]
        dsimp only
        rw [if_pos hfront]
      · cases hspells.head 'I' (h ▸ rfl)
      · cases hspells.head 'N' (h ▸ rfl)

theorem FloatBody.bare {negative : Bool} {body : List Char} {x : Float}
    (h : FloatBody negative body x) : Bare ['f', 'F', 'm', 'M'] body := by
  cases h with
  | nan => exact bare_of_ends 'N' 'N' rfl (by decide) rfl (by decide)
  | infinity => exact bare_of_ends 'I' 'y' rfl (by decide) rfl (by decide)
  | decimal hwhole hfraction hexponent =>
    have hspells := spells_of_parts hwhole hfraction hexponent
    refine ⟨hspells.ne_nil, fun c hc ↦ ?_, fun c hc hletter ↦ ?_⟩
    · exact ne_sign_of_isHex (isHex_of_isDecimal (hspells.head c hc))
    · have hdecimal := hspells.last c hc
      fin_cases hletter <;> cases hdecimal

/-- The texts from which floats are read. -/
theorem float?_eq_some_iff {text : List Char} {x : Float} :
    float? text = some x ↔ FloatText text x := by
  constructor
  · intro h
    exact ⟨_, _, affixed_of_splitSign rfl, (float?_iff_floatBody rfl).mp h⟩
  · rintro ⟨negative, body, haffixed, hbody⟩
    exact (float?_iff_floatBody (haffixed.splitSign_eq hbody.bare)).mpr hbody

/-! ### What is read -/

theorem Digits.lt {text : List Char} {digits : List Nat} (h : Digits 10 text digits) :
    ∀ d ∈ digits, d < 10 := by
  obtain ⟨hlength, hall⟩ := List.forall₂_iff_get.mp h.each
  intro d hd
  obtain ⟨i, hi, rfl⟩ := List.mem_iff_getElem.mp hd
  exact (hall i (hlength ▸ hi) hi).1

theorem Fraction.lt {point : List Char} {fraction : List Nat} (h : Fraction point fraction) :
    ∀ d ∈ fraction, d < 10 := by
  cases h with
  | missing => exact fun _ hd ↦ absurd hd List.not_mem_nil
  | digits h => exact h.lt

theorem spelled_ten (digits : List Nat) : spelled 10 digits = Decimal.Nearest.ofDigits digits := by
  induction digits using List.reverseRecOn with
  | nil => rfl
  | append_singleton digits d ih =>
    rw [Decimal.Nearest.ofDigits_concat, ← ih, spelled, spelled, List.reverse_append,
      List.reverse_singleton, List.singleton_append, Nat.ofDigits_cons]
    ring

/-- Exponents of five digits are taken in as they stand. -/
theorem Exponent.takenIn_eq {tail : List Char} {small : Bool} {power : List Nat}
    (h : Exponent tail small power) (hpower : spelled 10 power < 100000) :
    takenIn power = spelled 10 power := by
  cases h with
  | missing => rfl
  | digits hmark hsign hdigits =>
    obtain ⟨-, rfl⟩ := (digits_iff knows_isDecimal).mp hdigits
    rw [← ofDigits_eq_spelled] at hpower ⊢
    rw [← exponentOf_eq_takenIn, exponentOf_eq_ofDigits hpower]

/-- Number literals are read by the grammar: a text is an integer just when the grammar of integers
gives it one, otherwise a float just when the grammar of floats gives it one, and otherwise nothing.
Integers are read back from their decimal digits. The bits of a float with digits are those of the
double nearest to the number that the digits spell, unless more than eight hundred significant ones
stand before the point or the exponent has more than five. -/
theorem read?_grammar (text : String) :
    (∀ i, read? text = some (.int i) ↔ IntText text.toList i) ∧
      (∀ x, read? text = some (.float x) ↔
        (¬∃ i, IntText text.toList i) ∧ FloatText text.toList x) ∧
      (read? text = none ↔ (¬∃ i, IntText text.toList i) ∧ ¬∃ x, FloatText text.toList x) ∧
      (∀ i : Int64, read? (toString i.toInt) = some (.int i)) ∧
      ∀ (front point tail : List Char) (whole fraction power : List Nat) (small : Bool),
        Digits 10 front whole → Fraction point fraction → Exponent tail small power →
        (whole.dropWhile (· == 0)).length ≤ 800 → spelled 10 power < 100000 →
        Binary64.Nearest (spelled 10 (whole ++ fraction) *
            10 ^ (signed small (spelled 10 power) - fraction.length))
          (Significant.of whole fraction (signed small (takenIn power))).bits := by
  have hint : ∀ i, int? text.toList = some i ↔ IntText text.toList i := fun _ ↦ int?_eq_some_iff
  have hfloat : ∀ x, float? text.toList = some x ↔ FloatText text.toList x :=
    fun _ ↦ float?_eq_some_iff
  refine ⟨?_, ?_, ?_, read?_toString, ?_⟩
  · intro i
    rw [← hint, read?]
    cases int? text.toList <;> simp
  · intro x
    simp only [← hint, ← hfloat, read?]
    cases int? text.toList <;> simp
  · simp only [← hint, ← hfloat, read?]
    cases int? text.toList <;> cases float? text.toList <;> simp
  · intro front point tail whole fraction power small hwhole hfraction hexponent hlength hpower
    rw [hexponent.takenIn_eq hpower, spelled_ten (whole ++ fraction)]
    exact (Significant.rounds_bits_of _ hwhole.lt hfraction.lt hlength).nearest

/-- A hexadecimal integer with a sign and a suffix, and the digits of a tenth. -/
theorem read?_grammar_hex : read? "-0xFFl" = some (.int (-255)) ∧
    Binary64.Nearest (1 / 10) (Significant.of [0] [1] 0).bits := by
  have hdigits : Digits 16 ['F', 'F'] [15, 15] :=
    ⟨by decide, .cons (by decide) (.cons (by decide) .nil)⟩
  have htext : IntText ("-0xFFl" : String).toList (-255) :=
    ⟨true, ['0', 'x', 'F', 'F'], .mk .minus (.letter (by decide)),
      .bits .x hdigits (by decide) (by decide)⟩
  have hzero : Digits 10 ['0'] [0] := ⟨by decide, .cons (by decide) .nil⟩
  have hone : Digits 10 ['1'] [1] := ⟨by decide, .cons (by decide) .nil⟩
  have hnearest := (read?_grammar "0.1").2.2.2.2 ['0'] ['.', '1'] [] [0] [1] [] false hzero
    (.digits hone) .missing (by decide) (by decide)
  refine ⟨((read?_grammar "-0xFFl").1 (-255)).mpr htext, ?_⟩
  have hvalue : ((spelled 10 ([0] ++ [1]) : Nat) : ℚ) *
      10 ^ (signed false (spelled 10 []) - ([1] : List Nat).length) = 1 / 10 := by
    norm_num [spelled, signed, Nat.ofDigits]
  rwa [hvalue] at hnearest

end TokenLang.Numeral

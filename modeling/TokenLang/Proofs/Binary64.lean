import Mathlib
import TokenLang.Binary64

/-!
Doubles and their bits. A double is its bits (`Float.ofBits_toBits`, which comes with no part of
Mathlib but the whole), so a finite one is put together again from its sign, mantissa and exponent
(`Binary64.view_finite`), and rounding a ratio gives the mantissa that is nearest to it at the
exponent that its size calls for (`Binary64.roundRatio_eq`).
-/

set_option autoImplicit false
set_option relaxedAutoImplicit false

namespace TokenLang.Binary64

/-! ### Bits -/

section Bits

open Float.Model Float.Model.UnpackedFloat

variable (b : BitVec Format.binary64.numBits)

theorem toNat_unpackMantissa : (unpackMantissa b).toNat = b.toNat % 2 ^ 52 := by
  simp [unpackMantissa, BitVec.extractLsb]

theorem toNat_unpackExponent : (unpackExponent b).toNat = b.toNat / 2 ^ 52 % 2 ^ 11 := by
  simp [unpackExponent, BitVec.extractLsb, Nat.shiftRight_eq_div_pow]

end Bits

theorem ofBits_of_toNat {x : Float} {negative : Bool} {magnitude : Nat}
    (h : x.toBits.toNat = if negative then signWeight + magnitude else magnitude) :
    ofBits negative magnitude = x := by
  rw [ofBits, ← h, UInt64.ofNat_toNat, Float.ofBits_toBits]

/-- The mantissas and exponents of finite doubles. -/
structure Canonical (mantissa : Nat) (exponent : Int) : Prop where
  lt : mantissa < 2 ^ 53
  least_le : leastExponent ≤ exponent
  le : exponent ≤ 971
  normal : 2 ^ 52 ≤ mantissa ∨ exponent = leastExponent

/-- The bits of a magnitude. -/
def magnitudeBits (mantissa : Nat) (exponent : Int) : Nat :=
  (exponent - leastExponent).toNat * hidden + mantissa

theorem Canonical.magnitudeBits_le {mantissa : Nat} {exponent : Int}
    (h : Canonical mantissa exponent) : magnitudeBits mantissa exponent ≤ infinityBits := by
  have hhidden : hidden = 2 ^ 52 := rfl
  have hleast : leastExponent = -1074 := rfl
  obtain ⟨hlt, hge, hle, -⟩ := h
  unfold magnitudeBits infinityBits
  rw [hhidden]
  omega

section View

variable {bits : Nat} (hbits : bits < 2 ^ 64) {negative : Bool}
include hbits

omit hbits in
theorem sign_cases (h : (bits / signWeight % 2 == 1) = negative) :
    negative = true ∧ bits / 2 ^ 63 % 2 = 1 ∨ negative = false ∧ bits / 2 ^ 63 % 2 = 0 := by
  cases negative with
  | true => exact .inl ⟨rfl, beq_iff_eq.mp h⟩
  | false => exact .inr ⟨rfl, Nat.mod_two_ne_one.mp (beq_eq_false_iff_ne.mp h)⟩

/-- The bits of a finite double are its sign and the bits of its magnitude. -/
theorem viewBits_finite {mantissa : Nat} {exponent : Int}
    (h : viewBits bits = .finite negative mantissa exponent) :
    Canonical mantissa exponent ∧ bits = if negative then
      signWeight + magnitudeBits mantissa exponent else magnitudeBits mantissa exponent := by
  have hhidden : hidden = 2 ^ 52 := rfl
  have hweight : signWeight = 2 ^ 63 := rfl
  have hleast : leastExponent = -1074 := rfl
  unfold viewBits at h
  dsimp only at h
  unfold magnitudeBits
  rw [hhidden] at h ⊢
  split_ifs at h with hspecial hfraction hsubnormal
  · injection h with hsign hmantissa hexponent
    refine ⟨⟨by omega, by omega, by omega, .inr (by omega)⟩, ?_⟩
    obtain ⟨rfl, hsign⟩ | ⟨rfl, hsign⟩ := sign_cases hsign
    · rw [if_pos rfl]
      omega
    · rw [if_neg Bool.false_ne_true]
      omega
  · injection h with hsign hmantissa hexponent
    refine ⟨⟨by omega, by omega, by omega, .inl (by omega)⟩, ?_⟩
    obtain ⟨rfl, hsign⟩ | ⟨rfl, hsign⟩ := sign_cases hsign
    · rw [if_pos rfl]
      omega
    · rw [if_neg Bool.false_ne_true]
      omega

/-- The bits of an infinity are its sign and the largest exponent. -/
theorem viewBits_infinite (h : viewBits bits = .infinite negative) :
    bits = if negative then signWeight + infinityBits else infinityBits := by
  have hhidden : hidden = 2 ^ 52 := rfl
  have hweight : signWeight = 2 ^ 63 := rfl
  unfold viewBits at h
  dsimp only at h
  unfold infinityBits
  rw [hhidden] at h ⊢
  split_ifs at h with hspecial hfraction
  injection h with hsign
  obtain ⟨rfl, hsign⟩ | ⟨rfl, hsign⟩ := sign_cases hsign
  · rw [if_pos rfl]
    omega
  · rw [if_neg Bool.false_ne_true]
    omega

end View

variable {x : Float} {negative : Bool}

/-- A finite double is put together from its parts. -/
theorem view_finite {mantissa : Nat} {exponent : Int}
    (h : view x = .finite negative mantissa exponent) :
    Canonical mantissa exponent ∧ ofBits negative (magnitudeBits mantissa exponent) = x := by
  obtain ⟨hcanonical, hbits⟩ := viewBits_finite x.toBits.toNat_lt h
  exact ⟨hcanonical, ofBits_of_toNat hbits⟩

theorem view_infinite (h : view x = .infinite negative) : infinity negative = x :=
  ofBits_of_toNat (viewBits_infinite x.toBits.toNat_lt h)

/-- There is only one double that is no number. -/
theorem view_nan (h : view x = .nan) : nan = x := by
  have hbits : x.toBits.toNat / 2 ^ 52 % 2048 = 2047 ∧ x.toBits.toNat % 2 ^ 52 ≠ 0 := by
    unfold view viewBits at h
    dsimp only at h
    split_ifs at h with hspecial hfraction
    exact ⟨hspecial, hfraction⟩
  have hmantissa := toNat_unpackMantissa x.toBits.toBitVec
  have hvalid := x.toModel.valid.eq_packedNaN
    (BitVec.eq_of_toNat_eq ((toNat_unpackExponent _).trans hbits.1)) fun hzero ↦
      hbits.2 (hmantissa.symm.trans (congrArg BitVec.toNat hzero))
  have hword : x.toBits = 0x7ff8000000000000 := UInt64.toBitVec_inj.mp hvalid
  rw [← Float.ofBits_toBits x, hword]
  rfl

/-! ### Rounding -/

theorem scaled_pos {n : Nat} (hn : 0 < n) (e : Int) : 0 < (scaled n e).1 ∧ 0 < (scaled n e).2 := by
  unfold scaled
  split_ifs
  · exact ⟨Nat.mul_pos hn (Nat.two_pow_pos _), Nat.one_pos⟩
  · exact ⟨hn, Nat.two_pow_pos _⟩

theorem scaled_eq (n : Nat) (e : Int) :
    ((scaled n e).1 : ℚ) / ((scaled n e).2 : ℚ) = n * (2 : ℚ) ^ e := by
  unfold scaled
  split_ifs with he
  · obtain ⟨k, rfl⟩ := Int.eq_ofNat_of_zero_le he
    simp
  · obtain ⟨k, rfl⟩ : ∃ k : Nat, e = -(k : Int) := ⟨(-e).toNat, by omega⟩
    simp [div_eq_mul_inv]

section Ratio

variable {n d : Nat} (hn : 0 < n) (hd : 0 < d)
include hn hd

/-- The size of a ratio. -/
theorem ratioLog_spec : (2 : ℚ) ^ ratioLog n d ≤ n / d ∧
    (n : ℚ) / d < (2 : ℚ) ^ (ratioLog n d + 1) := by
  have hnlow : ((2 : ℚ) ^ Nat.log2 n) ≤ n := by exact_mod_cast Nat.log2_self_le hn.ne'
  have hnhigh : (n : ℚ) < (2 : ℚ) ^ (Nat.log2 n + 1) := by exact_mod_cast Nat.lt_log2_self
  have hdlow : ((2 : ℚ) ^ Nat.log2 d) ≤ d := by exact_mod_cast Nat.log2_self_le hd.ne'
  have hdhigh : (d : ℚ) < (2 : ℚ) ^ (Nat.log2 d + 1) := by exact_mod_cast Nat.lt_log2_self
  have hdpos : (0 : ℚ) < d := by exact_mod_cast hd
  set guess : Int := (Nat.log2 n : Int) - (Nat.log2 d : Int) with hguess
  have hpow : (2 : ℚ) ^ guess = 2 ^ Nat.log2 n / 2 ^ Nat.log2 d := by
    rw [hguess, zpow_sub₀ two_ne_zero, zpow_natCast, zpow_natCast]
  have hguesspos : (0 : ℚ) < (2 : ℚ) ^ guess := zpow_pos two_pos _
  have hmul : (2 : ℚ) ^ guess * 2 ^ Nat.log2 d = 2 ^ Nat.log2 n := by
    rw [hpow, div_mul_cancel₀ _ (by positivity)]
  have hupper : (n : ℚ) / d < (2 : ℚ) ^ (guess + 1) := by
    rw [zpow_add_one₀ two_ne_zero, div_lt_iff₀ hdpos]
    calc (n : ℚ) < 2 ^ (Nat.log2 n + 1) := hnhigh
      _ = (2 : ℚ) ^ guess * 2 * 2 ^ Nat.log2 d := by rw [pow_succ, ← hmul]; ring
      _ ≤ (2 : ℚ) ^ guess * 2 * d := by gcongr
  have hlower : (2 : ℚ) ^ (guess - 1) ≤ (n : ℚ) / d := by
    rw [zpow_sub_one₀ two_ne_zero, le_div_iff₀ hdpos]
    calc (2 : ℚ) ^ guess * 2⁻¹ * d ≤ (2 : ℚ) ^ guess * 2⁻¹ * 2 ^ (Nat.log2 d + 1) := by gcongr
      _ = 2 ^ Nat.log2 n := by rw [pow_succ, ← hmul]; ring
      _ ≤ n := hnlow
  have htest : (scaled d guess).1 ≤ n * (scaled d guess).2 ↔ (2 : ℚ) ^ guess ≤ n / d := by
    have hscaled : (0 : ℚ) < (scaled d guess).2 := by exact_mod_cast (scaled_pos hd guess).2
    rw [le_div_iff₀ hdpos, mul_comm ((2 : ℚ) ^ guess), ← scaled_eq, div_le_iff₀ hscaled]
    exact_mod_cast Iff.rfl
  have hlog : ratioLog n d = if (scaled d guess).1 ≤ n * (scaled d guess).2 then guess
      else guess - 1 := rfl
  rw [hlog]
  split_ifs with hif
  · exact ⟨htest.mp hif, hupper⟩
  · rw [htest, not_le] at hif
    refine ⟨hlower, ?_⟩
    rwa [sub_add_cancel]

/-- The exponent that rounding goes by. -/
theorem exponent_eq {e : Int} (hleast : leastExponent ≤ e)
    (hhigh : (n : ℚ) / d < (2 : ℚ) ^ (e + 53))
    (hlow : (2 : ℚ) ^ (e + 52) ≤ n / d ∨ e = leastExponent) :
    max (ratioLog n d - 52) leastExponent = e := by
  obtain ⟨hspec, hspec'⟩ := ratioLog_spec hn hd
  have hlt : ratioLog n d < e + 53 :=
    (zpow_lt_zpow_iff_right₀ one_lt_two).mp (lt_of_le_of_lt hspec hhigh)
  rcases hlow with hlow | rfl
  · have hgt : e + 52 < ratioLog n d + 1 :=
      (zpow_lt_zpow_iff_right₀ one_lt_two).mp (lt_of_le_of_lt hlow hspec')
    omega
  · omega

omit hn in
/-- The nearest number, and of two that are as near the even one. -/
theorem roundDiv_eq {m : Nat} (hlow : (m : ℚ) - 1 / 2 ≤ n / d) (hhigh : (n : ℚ) / d ≤ m + 1 / 2)
    (hodd : m % 2 = 1 → (m : ℚ) - 1 / 2 < n / d ∧ (n : ℚ) / d < m + 1 / 2) :
    roundDiv n d = m := by
  have hdpos : (0 : ℚ) < d := by exact_mod_cast hd
  rw [le_div_iff₀ hdpos] at hlow
  rw [div_le_iff₀ hdpos] at hhigh
  rw [lt_div_iff₀ hdpos, div_lt_iff₀ hdpos] at hodd
  have hlow' : 2 * (m * d) ≤ 2 * n + d := by
    have h : (2 : ℚ) * (m * d) ≤ 2 * n + d := by linarith
    exact_mod_cast h
  have hhigh' : 2 * n ≤ 2 * (m * d) + d := by
    have h : (2 : ℚ) * n ≤ 2 * (m * d) + d := by linarith
    exact_mod_cast h
  have hodd' : m % 2 = 1 → 2 * (m * d) < 2 * n + d ∧ 2 * n < 2 * (m * d) + d := by
    intro hm
    obtain ⟨hstrict, hstrict'⟩ := hodd hm
    have h : (2 : ℚ) * (m * d) < 2 * n + d := by linarith
    have h' : (2 : ℚ) * n < 2 * (m * d) + d := by linarith
    exact ⟨by exact_mod_cast h, by exact_mod_cast h'⟩
  have hdiv := Nat.div_add_mod n d
  have hmod := Nat.mod_lt n hd
  unfold roundDiv
  dsimp only
  generalize n / d = q at *
  generalize n % d = r at *
  have hcases : m = q ∨ m = q + 1 := by
    have hle : m < q + 2 := by
      by_contra hcon
      have h := Nat.mul_le_mul_right d (not_lt.mp hcon)
      nlinarith
    have hge : q < m + 1 := by
      by_contra hcon
      have h := Nat.mul_le_mul_right d (not_lt.mp hcon)
      nlinarith
    omega
  rcases hcases with rfl | rfl
  · rw [Nat.mul_comm d m] at hdiv
    rw [if_neg]
    simp only [Bool.or_eq_true, Bool.and_eq_true, decide_eq_true_eq, beq_iff_eq]
    omega
  · rw [Nat.mul_comm d q] at hdiv
    rw [Nat.add_mul, Nat.one_mul] at hlow' hhigh' hodd'
    rw [if_pos]
    simp only [Bool.or_eq_true, Bool.and_eq_true, decide_eq_true_eq, beq_iff_eq]
    omega

/-- A ratio rounds to the mantissa that is nearest to it. -/
theorem roundRatio_eq {m : Nat} {e : Int} (hleast : leastExponent ≤ e)
    (hsize : (n : ℚ) / d < (2 : ℚ) ^ (e + 53))
    (hsize' : (2 : ℚ) ^ (e + 52) ≤ n / d ∨ e = leastExponent)
    (hlow : ((m : ℚ) - 1 / 2) * 2 ^ e ≤ n / d) (hhigh : (n : ℚ) / d ≤ (m + 1 / 2) * 2 ^ e)
    (hodd : m % 2 = 1 → ((m : ℚ) - 1 / 2) * 2 ^ e < n / d ∧ (n : ℚ) / d < (m + 1 / 2) * 2 ^ e) :
    roundRatio n d = min (magnitudeBits m e) infinityBits := by
  have hpow : (0 : ℚ) < (2 : ℚ) ^ e := zpow_pos two_pos e
  obtain ⟨hapos, hbpos⟩ := scaled_pos hd e
  have hratio : ((n * (scaled d e).2 : Nat) : ℚ) / ((scaled d e).1 : ℚ) = n / d / 2 ^ e := by
    have hscaled := scaled_eq d e
    have ha : ((scaled d e).1 : ℚ) ≠ 0 := by exact_mod_cast hapos.ne'
    have hb : ((scaled d e).2 : ℚ) ≠ 0 := by exact_mod_cast hbpos.ne'
    rw [div_div, ← hscaled]
    push_cast
    field_simp
  have hround : roundDiv (n * (scaled d e).2) (scaled d e).1 = m := by
    refine roundDiv_eq hapos ?_ ?_ fun hm ↦ ?_
    · rwa [hratio, le_div_iff₀ hpow]
    · rwa [hratio, div_le_iff₀ hpow]
    · rw [hratio, lt_div_iff₀ hpow, div_lt_iff₀ hpow]
      exact hodd hm
  unfold roundRatio
  rw [if_neg hn.ne', exponent_eq hn hd hleast hsize hsize']
  dsimp only
  rw [hround, magnitudeBits]

end Ratio

end TokenLang.Binary64

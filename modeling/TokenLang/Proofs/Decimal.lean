import TokenLang.Decimal.Nearest
import TokenLang.Decimal.Shortest
import TokenLang.Proofs.Binary64
import Mathlib.Data.List.DropRight

/-!
Doubles and decimal numbers. Every number of the interval around a double rounds to it
(`Shortest.roundRatio_of_mem`), the search for the fewest digits ends with a number of that interval
(`Shortest.ofParts_spec`), and so the digits of a double, however they are cut at the point, are
read as that double (`Nearest.Significant.bits_of_mem`).
-/

set_option autoImplicit false
set_option relaxedAutoImplicit false

namespace TokenLang.Decimal

open Binary64 (Canonical magnitudeBits scaled)

/-! ### Digits -/

namespace Nearest

theorem ofDigits_concat (digits : List Nat) (d : Nat) :
    ofDigits (digits ++ [d]) = ofDigits digits * 10 + d := by
  simp [ofDigits]

theorem ofDigits_lt {digits : List Nat} (h : ∀ d ∈ digits, d < 10) :
    ofDigits digits < 10 ^ digits.length := by
  induction digits using List.reverseRecOn with
  | nil => decide
  | append_singleton digits d ih =>
    have hd : d < 10 := h d (by simp)
    have hdigits := ih fun x hx ↦ h x (by simp [hx])
    rw [ofDigits_concat, List.length_append, List.length_singleton, pow_succ]
    omega

theorem pow_le_ofDigits_cons {first : Nat} (h : first ≠ 0) (more : List Nat) :
    10 ^ more.length ≤ ofDigits (first :: more) := by
  induction more using List.reverseRecOn with
  | nil =>
    show 1 ≤ 0 * 10 + first
    omega
  | append_singleton more d ih =>
    rw [← List.cons_append, ofDigits_concat, List.length_append, List.length_singleton, pow_succ]
    omega

theorem ofDigits_append_zeros (digits : List Nat) (n : Nat) :
    ofDigits (digits ++ List.replicate n 0) = ofDigits digits * 10 ^ n := by
  induction n with
  | zero => simp
  | succ n ih =>
    rw [List.replicate_succ', ← List.append_assoc, ofDigits_concat, ih]
    ring

/-- The number that is rounded. -/
def Significant.number (s : Significant) : ℚ :=
  ofDigits s.digits * 10 ^ (s.exponent + s.whole - s.digits.length)

end Nearest

/-- The number `0.d₁d₂…` times the power of ten. -/
def Digits.number (d : Digits) : ℚ :=
  Nearest.ofDigits d.digits * 10 ^ (d.point - d.digits.length)

namespace Shortest

/-! ### Intervals -/

/-- Whether a number lies in an interval. -/
structure Interval.Mem (i : Interval) (q : ℚ) : Prop where
  low : (i.low : ℚ) / i.denominator ≤ q
  high : q ≤ (i.high : ℚ) / i.denominator
  inner : i.closed = false → (i.low : ℚ) / i.denominator < q ∧ q < (i.high : ℚ) / i.denominator

/-- The test for a ratio, which multiplies across, tells whether the ratio lies in the interval. -/
theorem Interval.has_iff {i : Interval} (hi : 0 < i.denominator) (n : Nat) {d : Nat} (hd : 0 < d) :
    i.has n d = true ↔ i.Mem ((n : ℚ) / d) := by
  have hi' : (0 : ℚ) < i.denominator := by exact_mod_cast hi
  have hd' : (0 : ℚ) < d := by exact_mod_cast hd
  have hlow : i.low * d ≤ n * i.denominator ↔ (i.low : ℚ) / i.denominator ≤ n / d := by
    rw [div_le_div_iff₀ hi' hd']
    exact_mod_cast Iff.rfl
  have hhigh : n * i.denominator ≤ i.high * d ↔ (n : ℚ) / d ≤ i.high / i.denominator := by
    rw [div_le_div_iff₀ hd' hi']
    exact_mod_cast Iff.rfl
  have hlow' : i.low * d < n * i.denominator ↔ (i.low : ℚ) / i.denominator < n / d := by
    rw [div_lt_div_iff₀ hi' hd']
    exact_mod_cast Iff.rfl
  have hhigh' : n * i.denominator < i.high * d ↔ (n : ℚ) / d < i.high / i.denominator := by
    rw [div_lt_div_iff₀ hd' hi']
    exact_mod_cast Iff.rfl
  unfold Interval.has
  dsimp only
  split_ifs with hclosed
  · rw [Bool.and_eq_true, decide_eq_true_iff, decide_eq_true_iff, hlow, hhigh]
    exact ⟨fun h ↦ ⟨h.1, h.2, fun hopen ↦ absurd (hclosed.symm.trans hopen) (by decide)⟩,
      fun h ↦ ⟨h.low, h.high⟩⟩
  · rw [Bool.and_eq_true, decide_eq_true_iff, decide_eq_true_iff, hlow', hhigh']
    exact ⟨fun h ↦ ⟨h.1.le, h.2.le, fun _ ↦ h⟩, fun h ↦ h.inner (by simpa using hclosed)⟩

/-- Units of a power of ten as a number. -/
theorem Interval.hasUnits_iff {i : Interval} (hi : 0 < i.denominator) (count : Nat) (e : Int) :
    i.hasUnits count e = true ↔ i.Mem (count * (10 : ℚ) ^ e) := by
  unfold Interval.hasUnits
  split_ifs with he
  · obtain ⟨k, rfl⟩ := Int.eq_ofNat_of_zero_le he
    rw [Interval.has_iff hi _ Nat.one_pos]
    simp
  · obtain ⟨k, rfl⟩ : ∃ k : Nat, e = -(k : Int) := ⟨(-e).toNat, by omega⟩
    have hpow : 0 < Nat.pow 10 (- -(k : Int)).toNat := Nat.pow_pos (by decide)
    rw [Interval.has_iff hi _ hpow]
    simp [div_eq_mul_inv]

/-- How far, in quarters, the interval of a double reaches down. -/
def reach (mantissa : Nat) (exponent : Int) : Nat :=
  if mantissa = Binary64.hidden ∧ Binary64.leastExponent < exponent then 1 else 2

theorem reach_cases (mantissa : Nat) (exponent : Int) :
    reach mantissa exponent = 2 ∨ reach mantissa exponent = 1 ∧ mantissa = 2 ^ 52 := by
  unfold reach
  split_ifs with hpower
  · exact .inr ⟨rfl, hpower.1⟩
  · exact .inl rfl

theorem reach_bounds (mantissa : Nat) (exponent : Int) :
    1 ≤ reach mantissa exponent ∧ reach mantissa exponent ≤ 2 := by
  have hcases := reach_cases mantissa exponent
  omega

section Interval

variable {m : Nat} {e : Int}

theorem denominator_pos : 0 < (interval m e).denominator :=
  (Binary64.scaled_pos Nat.one_pos (e - 2)).2

theorem quarter_eq : ((scaled 1 (e - 2)).1 : ℚ) / ((scaled 1 (e - 2)).2 : ℚ) = 2 ^ e / 4 := by
  rw [Binary64.scaled_eq, zpow_sub₀ two_ne_zero]
  norm_num

theorem value_eq : ((interval m e).value : ℚ) / (interval m e).denominator = m * 2 ^ e := by
  show (((4 * m * (scaled 1 (e - 2)).1 : Nat) : ℚ)) / ((scaled 1 (e - 2)).2 : ℚ) = _
  rw [Nat.cast_mul, mul_div_assoc, quarter_eq]
  push_cast
  ring

theorem high_eq :
    ((interval m e).high : ℚ) / (interval m e).denominator = (m + 1 / 2) * 2 ^ e := by
  show ((((4 * m + 2) * (scaled 1 (e - 2)).1 : Nat) : ℚ)) / ((scaled 1 (e - 2)).2 : ℚ) = _
  rw [Nat.cast_mul, mul_div_assoc, quarter_eq]
  push_cast
  ring

variable (hm : 0 < m)
include hm

theorem low_eq : ((interval m e).low : ℚ) / (interval m e).denominator =
    (m - reach m e / 4) * 2 ^ e := by
  have hreach := reach_bounds m e
  show ((((4 * m - reach m e) * (scaled 1 (e - 2)).1 : Nat) : ℚ)) / ((scaled 1 (e - 2)).2 : ℚ) = _
  rw [Nat.cast_mul, mul_div_assoc, quarter_eq, Nat.cast_sub (by omega)]
  push_cast
  ring

theorem mem_iff (q : ℚ) : (interval m e).Mem q ↔ (m - reach m e / 4) * 2 ^ e ≤ q ∧
    q ≤ (m + 1 / 2) * 2 ^ e ∧
    (m % 2 = 1 → (m - reach m e / 4) * 2 ^ e < q ∧ q < (m + 1 / 2) * 2 ^ e) := by
  have hclosed : (interval m e).closed = false ↔ m % 2 = 1 := by
    rw [show (interval m e).closed = (m % 2 == 0) from rfl, beq_eq_false_iff_ne,
      Nat.mod_two_ne_zero]
  rw [← low_eq hm, ← high_eq, ← hclosed]
  exact ⟨fun h ↦ ⟨h.low, h.high, h.inner⟩, fun h ↦ ⟨h.1, h.2.1, h.2.2⟩⟩

/-- A number of the interval is near the double. -/
theorem mem_near {q : ℚ} (h : (interval m e).Mem q) :
    m * 2 ^ e / 2 ≤ q ∧ q ≤ 2 * (m * 2 ^ e) := by
  have hreach : (reach m e : ℚ) ≤ 2 := by exact_mod_cast (reach_bounds m e).2
  have hone : (1 : ℚ) ≤ m := by exact_mod_cast hm
  have hpow : (0 : ℚ) < (2 : ℚ) ^ e := zpow_pos two_pos e
  obtain ⟨hlow, hhigh, -⟩ := (mem_iff hm q).mp h
  constructor
  · refine le_trans ?_ hlow
    rw [mul_div_right_comm]
    gcongr
    linarith
  · refine hhigh.trans ?_
    rw [← mul_assoc]
    gcongr
    linarith

omit hm in
theorem two_zpow_add (e : Int) (k : Nat) : (2 : ℚ) ^ (e + k) = 2 ^ k * 2 ^ e := by
  rw [zpow_add₀ two_ne_zero, zpow_natCast, mul_comm]

variable (h : Canonical m e) {n d : Nat} (hd : 0 < d) (hmem : (interval m e).Mem ((n : ℚ) / d))
include h hd hmem

omit h hd in
theorem pos_of_mem : 0 < n := by
  have hone : (1 : ℚ) ≤ m := by exact_mod_cast hm
  have hpos := lt_of_lt_of_le (by positivity) (mem_near hm hmem).1
  refine Nat.pos_of_ne_zero fun hzero ↦ ?_
  rw [hzero] at hpos
  simp at hpos

/-- A ratio in the interval of a double is rounded to it, if it has a mantissa of full length at the
exponent of the double or that exponent is the least. -/
theorem roundRatio_of_mem_sized
    (hsize : (2 : ℚ) ^ (e + 52) ≤ (n : ℚ) / d ∨ e = Binary64.leastExponent) :
    Binary64.roundRatio n d = magnitudeBits m e := by
  have hpow : (0 : ℚ) < (2 : ℚ) ^ e := zpow_pos two_pos e
  have hlt : (m : ℚ) + 1 ≤ 2 ^ 53 := by exact_mod_cast h.lt
  have hreach : (reach m e : ℚ) ≤ 2 := by exact_mod_cast (reach_bounds m e).2
  obtain ⟨hlow, hhigh, hodd⟩ := (mem_iff hm _).mp hmem
  have hdown : ((m : ℚ) - 1 / 2) * 2 ^ e ≤ (m - reach m e / 4) * 2 ^ e :=
    mul_le_mul_of_nonneg_right (by linarith) hpow.le
  have hup : ((m : ℚ) + 1 / 2) * 2 ^ e < (2 : ℚ) ^ (e + 53) := by
    rw [show (2 : ℚ) ^ (e + 53) = 2 ^ 53 * 2 ^ e from two_zpow_add e 53]
    exact mul_lt_mul_of_pos_right (by linarith) hpow
  rw [Binary64.roundRatio_eq (pos_of_mem hm hmem) hd h.least_le (hhigh.trans_lt hup) hsize
    (hdown.trans hlow) hhigh fun hm ↦ ⟨hdown.trans_lt (hodd hm).1, (hodd hm).2⟩,
    min_eq_left h.magnitudeBits_le]

/-- Below a power of two, a number of its interval is rounded up to it from smaller mantissas. -/
theorem roundRatio_of_mem_below (hsmall : (n : ℚ) / d < (2 : ℚ) ^ (e + 52))
    (hexponent : e ≠ Binary64.leastExponent) :
    Binary64.roundRatio n d = magnitudeBits m e := by
  have hleast := h.least_le
  have hpow : (0 : ℚ) < (2 : ℚ) ^ e := zpow_pos two_pos e
  have hreach : (reach m e : ℚ) ≤ 2 := by exact_mod_cast (reach_bounds m e).2
  obtain ⟨hlow, -, -⟩ := (mem_iff hm _).mp hmem
  have hpower : m = 2 ^ 52 := by
    have hnormal : 2 ^ 52 ≤ m := h.normal.resolve_right hexponent
    rw [show (2 : ℚ) ^ (e + 52) = 2 ^ 52 * 2 ^ e from two_zpow_add e 52] at hsmall
    have hlt : (m : ℚ) - reach m e / 4 < 2 ^ 52 :=
      lt_of_mul_lt_mul_right (hlow.trans_lt hsmall) hpow.le
    have hlt' : (m : ℚ) < ((2 ^ 52 + 1 : Nat) : ℚ) := by
      push_cast
      linarith
    have hle : m < 2 ^ 52 + 1 := by exact_mod_cast hlt'
    omega
  have hreach' : reach m e = 1 := if_pos ⟨hpower, by omega⟩
  have hhalf : (2 : ℚ) ^ (e - 1) = 2 ^ e / 2 := by
    rw [zpow_sub_one₀ two_ne_zero, div_eq_mul_inv]
  have hsize : (2 : ℚ) ^ (e - 1 + 53) = 2 ^ (e + 52) := by ring_nf
  have hsize' : (2 : ℚ) ^ (e - 1 + 52) = 2 ^ 52 * (2 ^ e / 2) := by
    rw [← hhalf]
    exact two_zpow_add (e - 1) 52
  have hsame : magnitudeBits (2 ^ 53) (e - 1) = magnitudeBits m e := by
    unfold magnitudeBits
    rw [hpower, show Binary64.hidden = 2 ^ 52 from rfl]
    omega
  rw [show (2 : ℚ) ^ (e + 52) = 2 ^ 52 * 2 ^ e from two_zpow_add e 52] at hsmall hsize
  rw [hreach', hpower] at hlow
  push_cast at hlow
  rw [← min_eq_left h.magnitudeBits_le, ← hsame]
  refine Binary64.roundRatio_eq (pos_of_mem hm hmem) hd (by omega) ?_ (.inl ?_) ?_ ?_ ?_
  · rwa [hsize]
  · rw [hsize']
    linarith
  · rw [hhalf]
    push_cast
    linarith
  · rw [hhalf]
    push_cast
    linarith
  · exact fun hodd ↦ absurd hodd (by decide)

/-- Numbers of the interval round to the double. -/
theorem roundRatio_of_mem : Binary64.roundRatio n d = magnitudeBits m e := by
  by_cases hsize : (2 : ℚ) ^ (e + 52) ≤ (n : ℚ) / d ∨ e = Binary64.leastExponent
  · exact roundRatio_of_mem_sized hm h hd hmem hsize
  · obtain ⟨hsmall, hexponent⟩ := not_or.mp hsize
    exact roundRatio_of_mem_below hm h hd hmem (not_le.mp hsmall) hexponent

end Interval

/-! ### The search for digits -/

theorem lt_pow_length (n : Nat) : n < 10 ^ (Nat.toDigits 10 n).length :=
  (Nat.length_toDigits_le_iff (by decide) Nat.length_toDigits_pos).mp le_rfl

theorem pow_length_le {n : Nat} (hn : 0 < n) : 10 ^ ((Nat.toDigits 10 n).length - 1) ≤ n := by
  by_cases hone : (Nat.toDigits 10 n).length = 1
  · rw [hone]
    exact hn
  · have hpos : 0 < (Nat.toDigits 10 n).length := Nat.length_toDigits_pos
    by_contra hlt
    have hle := (Nat.length_toDigits_le_iff (b := 10) (by decide) (by omega)).mpr (not_le.mp hlt)
    omega

/-- The first digit of a decimal number stands where its digits begin. -/
theorem pow_le_decimal {n : Nat} (hn : 0 < n) (exponent : Int) :
    (10 : ℚ) ^ ((Nat.toDigits 10 n).length + exponent - 1) ≤ n * 10 ^ exponent := by
  have hten : (0 : ℚ) < 10 ^ exponent := zpow_pos (by norm_num) exponent
  have hlength : 0 < (Nat.toDigits 10 n).length := Nat.length_toDigits_pos
  rw [show ((Nat.toDigits 10 n).length : Int) + exponent - 1 =
    (((Nat.toDigits 10 n).length - 1 : Nat) : Int) + exponent by omega,
    zpow_add₀ (by norm_num), zpow_natCast]
  refine mul_le_mul_of_nonneg_right ?_ hten.le
  exact_mod_cast pow_length_le hn

theorem decimal_lt_pow (n : Nat) (exponent : Int) :
    (n : ℚ) * 10 ^ exponent < 10 ^ ((Nat.toDigits 10 n).length + exponent) := by
  have hten : (0 : ℚ) < 10 ^ exponent := zpow_pos (by norm_num) exponent
  rw [zpow_add₀ (by norm_num), zpow_natCast]
  refine mul_lt_mul_of_pos_right ?_ hten
  exact_mod_cast lt_pow_length n

section Ratio

variable {n d : Nat} (hn : 0 < n) (hd : 0 < d)
include hd

theorem div_bounds : ((n / d : Nat) : ℚ) ≤ n / d ∧ (n : ℚ) / d < ((n / d : Nat) : ℚ) + 1 := by
  have hdpos : (0 : ℚ) < d := by exact_mod_cast hd
  rw [le_div_iff₀ hdpos, div_lt_iff₀ hdpos]
  constructor
  · exact_mod_cast Nat.div_mul_le_self n d
  · have hlt : n < (n / d + 1) * d := Nat.lt_mul_of_div_lt (Nat.lt_succ_self (n / d)) hd
    exact_mod_cast hlt

theorem inUnits_spec (e : Int) : 0 < (inUnits n d e).2 ∧
    ((inUnits n d e).1 : ℚ) / ((inUnits n d e).2 : ℚ) = n / d / 10 ^ e := by
  unfold inUnits
  split_ifs with he
  · obtain ⟨k, rfl⟩ := Int.eq_ofNat_of_zero_le he
    refine ⟨Nat.mul_pos hd (Nat.pow_pos (by decide)), ?_⟩
    simp [div_div]
  · obtain ⟨k, rfl⟩ : ∃ k : Nat, e = -(k : Int) := ⟨(-e).toNat, by omega⟩
    refine ⟨hd, ?_⟩
    simp [div_mul_eq_mul_div]

include hn

/-- The first digit stands right after the point. -/
theorem decimalPoint_spec : (10 : ℚ) ^ (decimalPoint n d - 1) ≤ n / d ∧
    (n : ℚ) / d < (10 : ℚ) ^ decimalPoint n d := by
  have hdpos : (0 : ℚ) < d := by exact_mod_cast hd
  unfold decimalPoint
  split_ifs with hle
  · obtain ⟨hlow, hhigh⟩ := div_bounds (n := n) hd
    have hpos : 0 < n / d := Nat.div_pos hle hd
    have hlength : 0 < (Nat.toDigits 10 (n / d)).length := Nat.length_toDigits_pos
    constructor
    · refine le_trans ?_ hlow
      rw [show ((Nat.toDigits 10 (n / d)).length : Int) - 1 =
        (((Nat.toDigits 10 (n / d)).length - 1 : Nat) : Int) by omega, zpow_natCast]
      exact_mod_cast pow_length_le hpos
    · refine lt_of_lt_of_le hhigh ?_
      rw [zpow_natCast]
      exact_mod_cast lt_pow_length (n / d)
  · rw [not_le] at hle
    have hpos : 0 < (d - 1) / n := Nat.div_pos (by omega) hn
    have hlength : 0 < (Nat.toDigits 10 ((d - 1) / n)).length := Nat.length_toDigits_pos
    generalize hk : (Nat.toDigits 10 ((d - 1) / n)).length = k at *
    have hlow : d ≤ n * 10 ^ k := by
      have hlt := Nat.lt_mul_of_div_lt (hk ▸ lt_pow_length ((d - 1) / n)) hn
      rw [mul_comm] at hlt
      omega
    have hhigh : n * 10 ^ (k - 1) < d := by
      have hle := hk ▸ pow_length_le hpos
      have hmul := (Nat.le_div_iff_mul_le hn).mp hle
      rw [mul_comm] at hmul
      omega
    constructor
    · rw [show (1 : Int) - k - 1 = -(k : Int) by ring, zpow_neg, zpow_natCast, le_div_iff₀ hdpos,
        inv_mul_le_iff₀ (by positivity), mul_comm]
      exact_mod_cast hlow
    · rw [show (1 : Int) - k = -((k - 1 : Nat) : Int) by omega, zpow_neg, zpow_natCast,
        div_lt_iff₀ hdpos, lt_inv_mul_iff₀ (by positivity), mul_comm]
      exact_mod_cast hhigh

end Ratio

theorem roundDiv_cases (n d : Nat) :
    Binary64.roundDiv n d = n / d ∨ Binary64.roundDiv n d = n / d + 1 := by
  unfold Binary64.roundDiv
  dsimp only
  split_ifs
  · exact .inr rfl
  · exact .inl rfl

/-- What a grid gives lies in the interval. -/
theorem Interval.hasUnits_of_onGrid? {i : Interval} {place : Int} {units : Nat}
    (h : i.onGrid? place = some units) : i.hasUnits units place = true := by
  unfold Interval.onGrid? at h
  dsimp only at h
  split at h
  · rename_i hdown hup
    cases h
    rcases roundDiv_cases (inUnits i.value i.denominator place).1
      (inUnits i.value i.denominator place).2 with hround | hround
    · rwa [hround]
    · rwa [hround]
  · rename_i hdown _
    cases h
    exact hdown
  · rename_i _ hup
    cases h
    exact hup
  · cases h

/-- If the finest grid has a point in the interval, then the search ends with one. -/
theorem Interval.search_spec {i : Interval} {count : Nat} {place : Int}
    (h : (i.onGrid? (place - count)).isSome = true) :
    i.hasUnits (i.search (count + 1) place).1 (i.search (count + 1) place).2 = true ∧
      place - count ≤ (i.search (count + 1) place).2 := by
  induction count generalizing place with
  | zero =>
    obtain ⟨units, hunits⟩ := Option.isSome_iff_exists.mp h
    rw [Nat.cast_zero, sub_zero] at hunits ⊢
    unfold Interval.search
    rw [hunits]
    exact ⟨Interval.hasUnits_of_onGrid? hunits, le_rfl⟩
  | succ count ih =>
    unfold Interval.search
    cases hgrid : i.onGrid? place with
    | some units =>
      refine ⟨Interval.hasUnits_of_onGrid? hgrid, ?_⟩
      dsimp only
      omega
    | none =>
      have hlast : place - 1 - (count : Int) = place - ((count + 1 : Nat) : Int) := by
        push_cast
        ring
      obtain ⟨hunits, hplace⟩ := @ih (place - 1) (by rwa [hlast])
      exact ⟨hunits, by rwa [hlast] at hplace⟩

section Search

variable {m : Nat} {e : Int} (hm : 0 < m) (h : Canonical m e)
include hm

theorem mem_of_lt {q : ℚ} (hlow : (m - reach m e / 4) * 2 ^ e < q)
    (hhigh : q < (m + 1 / 2) * 2 ^ e) : (interval m e).Mem q :=
  (mem_iff hm q).mpr ⟨hlow.le, hhigh.le, fun _ ↦ ⟨hlow, hhigh⟩⟩

include h

/-- Of two neighbours on a grid of seventeen digits, one below the value and one above it, one lies
in the interval: the grid is finer than the interval is wide. -/
theorem mem_or_mem_succ {place : Int} {down : Nat}
    (hplace : (10 : ℚ) ^ place * 10 ^ 16 ≤ m * 2 ^ e) (hlow : (down : ℚ) * 10 ^ place ≤ m * 2 ^ e)
    (hhigh : m * 2 ^ e < ((down : ℚ) + 1) * 10 ^ place) :
    (interval m e).Mem (down * 10 ^ place) ∨
      (interval m e).Mem (((down + 1 : Nat) : ℚ) * 10 ^ place) := by
  have hpow : (0 : ℚ) < (2 : ℚ) ^ e := zpow_pos two_pos e
  have hreach : (0 : ℚ) ≤ reach m e := Nat.cast_nonneg _
  by_contra hnone
  rw [not_or] at hnone
  have hunder : ((m : ℚ) - reach m e / 4) * 2 ^ e ≤ m * 2 ^ e :=
    mul_le_mul_of_nonneg_right (by linarith) hpow.le
  have hbelow : (down : ℚ) * 10 ^ place ≤ (m - reach m e / 4) * 2 ^ e := by
    refine not_lt.mp fun hlt ↦ hnone.1 (mem_of_lt hm hlt ?_)
    linarith
  have habove : ((m : ℚ) + 1 / 2) * 2 ^ e ≤ ((down + 1 : Nat) : ℚ) * 10 ^ place := by
    refine not_lt.mp fun hlt ↦ hnone.2 (mem_of_lt hm ?_ hlt)
    push_cast
    linarith
  push_cast at habove
  have hwide : (1 / 2 + (reach m e : ℚ) / 4) * 10 ^ 16 ≤ m := by
    refine le_of_mul_le_mul_right ?_ hpow
    linarith
  have hlt : (m : ℚ) < 2 ^ 53 := by exact_mod_cast h.lt
  rcases reach_cases m e with hreach | ⟨hreach, hpower⟩
  · rw [hreach] at hwide
    norm_num at hwide hlt
    linarith
  · rw [hreach, hpower] at hwide
    norm_num at hwide

/-- Seventeen digits suffice. -/
theorem exists_onGrid? {place : Int} (hplace : (10 : ℚ) ^ place * 10 ^ 16 ≤ m * 2 ^ e) :
    ((interval m e).onGrid? place).isSome = true := by
  have hten : (0 : ℚ) < (10 : ℚ) ^ place := zpow_pos (by norm_num) place
  have hvalue := value_eq (m := m) (e := e)
  obtain ⟨hpos, hunits⟩ := inUnits_spec (n := (interval m e).value) (denominator_pos (m := m)) place
  obtain ⟨hlow, hhigh⟩ := div_bounds (n := (inUnits (interval m e).value
    (interval m e).denominator place).1) hpos
  rw [hunits, hvalue, le_div_iff₀ hten] at hlow
  rw [hunits, hvalue, div_lt_iff₀ hten] at hhigh
  unfold Interval.onGrid?
  dsimp only
  generalize (inUnits (interval m e).value (interval m e).denominator place).1 /
    (inUnits (interval m e).value (interval m e).denominator place).2 = down at *
  rcases mem_or_mem_succ hm h hplace hlow hhigh with hdown | hup
  · rw [(Interval.hasUnits_iff denominator_pos _ _).mpr hdown]
    cases (interval m e).hasUnits (down + 1) place <;> rfl
  · rw [(Interval.hasUnits_iff denominator_pos _ _).mpr hup]
    cases (interval m e).hasUnits down place <;> rfl

end Search

/-! ### The digits that are found -/

theorem ofDigits_digitsOf (n : Nat) : Nearest.ofDigits (digitsOf n) = n := by
  rw [Nearest.ofDigits, digitsOf, List.foldl_map]
  simp only [mul_comm _ 10]
  exact Nat.ofDigitChars_ten_toDigits

/-- The digits of a positive number begin with one that is not zero. -/
theorem digitsOf_eq_cons {n : Nat} (h : n ≠ 0) :
    ∃ first more, digitsOf n = first :: more ∧ first ≠ 0 := by
  induction n using Nat.strong_induction_on with
  | _ n ih =>
    by_cases hlt : n < 10
    · refine ⟨n, [], ?_, h⟩
      clear ih h
      rw [digitsOf, Nat.toDigits_of_lt_base hlt]
      revert hlt
      revert n
      decide
    · obtain ⟨first, more, hdigits, hfirst⟩ := ih (n / 10) (by omega) (by omega)
      refine ⟨first, more ++ [(n % 10).digitChar.toNat - 48], ?_, hfirst⟩
      rw [digitsOf, Nat.toDigits_of_base_le (by decide) (by omega), List.map_append, ← digitsOf,
        hdigits]
      rfl

theorem trimZeros_cons {first : Nat} (h : first ≠ 0) (more : List Nat) :
    ∃ rest, trimZeros (first :: more) = first :: rest := by
  have hprefix : trimZeros (first :: more) <+: first :: more := List.rdropWhile_prefix _ _
  have hne : trimZeros (first :: more) ≠ [] := fun hnil ↦
    absurd (List.rdropWhile_eq_nil_iff.mp hnil first (by simp)) (by simpa using h)
  obtain ⟨head, rest, htrim⟩ := List.exists_cons_of_ne_nil hne
  rw [htrim] at hprefix
  exact ⟨rest, by rw [htrim, (List.cons_prefix_cons.mp hprefix).1]⟩

theorem exists_trimZeros_append (digits : List Nat) :
    ∃ k, trimZeros digits ++ List.replicate k 0 = digits := by
  refine ⟨(digits.rtakeWhile (· == 0)).length, ?_⟩
  have hzeros : digits.rtakeWhile (· == 0) =
      List.replicate (digits.rtakeWhile (· == 0)).length 0 :=
    List.eq_replicate_iff.mpr ⟨rfl, fun x hx ↦ by simpa using List.mem_rtakeWhile_imp hx⟩
  rw [← hzeros]
  exact List.rdropWhile_append_rtakeWhile

theorem lt_ten_of_mem_digitsOf {n d : Nat} (h : d ∈ digitsOf n) : d < 10 := by
  obtain ⟨c, hc, rfl⟩ := List.mem_map.mp h
  have hdigit := Nat.isDigit_of_mem_toDigits (by decide) (by decide) hc
  simp only [Char.isDigit, Bool.and_eq_true, decide_eq_true_eq] at hdigit
  have hle : c.toNat ≤ 57 := hdigit.2
  omega

/-- The decimal numbers that doubles are written with: no more digits than are rounded as they
stand, and no zero in front. -/
structure Written (d : Digits) : Prop where
  length_le : d.digits.length ≤ 18
  lt_ten : ∀ x ∈ d.digits, x < 10
  head : ∃ first more, d.digits = first :: more ∧ first ≠ 0

/-- Well written digits stand for a number whose first digit is right behind the point. -/
theorem Written.number_bounds {d : Digits} (h : Written d) :
    (10 : ℚ) ^ (d.point - 1) ≤ d.number ∧ d.number < (10 : ℚ) ^ d.point := by
  obtain ⟨first, more, hdigits, hfirst⟩ := h.head
  have hten : (0 : ℚ) < (10 : ℚ) ^ (d.point - d.digits.length) := zpow_pos (by norm_num) _
  unfold Digits.number
  constructor
  · rw [show d.point - 1 = (more.length : Int) + (d.point - d.digits.length) by
      rw [hdigits, List.length_cons]; push_cast; ring, zpow_add₀ (by norm_num), zpow_natCast]
    refine mul_le_mul_of_nonneg_right ?_ hten.le
    rw [hdigits]
    exact_mod_cast Nearest.pow_le_ofDigits_cons hfirst more
  · have hsplit : (10 : ℚ) ^ d.point =
        10 ^ d.digits.length * 10 ^ (d.point - d.digits.length) := by
      rw [← zpow_natCast, ← zpow_add₀ (by norm_num), add_sub_cancel]
    rw [hsplit]
    refine mul_lt_mul_of_pos_right ?_ hten
    exact_mod_cast Nearest.ofDigits_lt h.lt_ten

/-- The digits of so many units at a place are well written, and stand for that number. -/
theorem ofUnits_spec {units : Nat} (hunits : units ≠ 0) (hlt : units < 10 ^ 18) (place : Int) :
    Written (ofUnits units place) ∧ (ofUnits units place).number = units * 10 ^ place := by
  obtain ⟨first, more, hdigits, hfirst⟩ := digitsOf_eq_cons hunits
  obtain ⟨rest, htrim⟩ := trimZeros_cons hfirst more
  obtain ⟨k, hk⟩ := exists_trimZeros_append (digitsOf units)
  have hlength : (trimZeros (digitsOf units)).length + k = (digitsOf units).length := by
    rw [← hk, List.length_append, List.length_replicate, hk]
  have hshort : (digitsOf units).length ≤ 18 := by
    rw [digitsOf, List.length_map]
    exact (Nat.length_toDigits_le_iff (by decide) (by decide)).mpr hlt
  have hnumber : Nearest.ofDigits (trimZeros (digitsOf units)) * 10 ^ k = units := by
    rw [← Nearest.ofDigits_append_zeros, hk, ofDigits_digitsOf]
  unfold ofUnits
  rw [if_neg hunits]
  refine ⟨⟨?_, fun x hx ↦ ?_, first, rest, ?_, hfirst⟩, ?_⟩
  · dsimp only
    omega
  · refine lt_ten_of_mem_digitsOf (n := units) ?_
    rw [← hk]
    exact List.mem_append_left _ hx
  · dsimp only
    rw [hdigits, htrim]
  · unfold Digits.number
    dsimp only
    have hexponent : ((digitsOf units).length : Int) + place - (trimZeros (digitsOf units)).length =
        k + place := by omega
    rw [hexponent, zpow_add₀ (by norm_num), zpow_natCast, ← mul_assoc]
    congr 1
    exact_mod_cast hnumber

section Found

variable {m : Nat} {e : Int} (hm : 0 < m) (h : Canonical m e)
include hm h

/-- Doubles lie between two powers of ten. -/
theorem mem_range {q : ℚ} (hmem : (interval m e).Mem q) :
    (10 : ℚ) ^ (-325 : Int) < q ∧ q < (10 : ℚ) ^ (310 : Int) := by
  obtain ⟨hlow, hhigh⟩ := mem_near hm hmem
  have hpow : (0 : ℚ) < (2 : ℚ) ^ e := zpow_pos two_pos e
  have hone : (1 : ℚ) ≤ m := by exact_mod_cast hm
  have hlt : (m : ℚ) < 2 ^ 53 := by exact_mod_cast h.lt
  have hleast : (2 : ℚ) ^ (-1074 : Int) ≤ 2 ^ e := zpow_le_zpow_right₀ one_le_two h.least_le
  have hmost : (2 : ℚ) ^ e ≤ 2 ^ (971 : Int) := zpow_le_zpow_right₀ one_le_two h.le
  have hsmall : (10 : ℚ) ^ (-325 : Int) < 2 ^ (-1075 : Int) := by
    rw [show (-325 : Int) = -65 * 5 by norm_num, show (-1075 : Int) = -215 * 5 by norm_num,
      zpow_mul, zpow_mul]
    exact zpow_lt_zpow_left₀ (by norm_num) (by norm_num) (by norm_num)
  have hlarge : (2 : ℚ) ^ (1025 : Int) < 10 ^ (310 : Int) := by
    rw [show (1025 : Int) = 205 * 5 by norm_num, show (310 : Int) = 62 * 5 by norm_num, zpow_mul,
      zpow_mul]
    exact zpow_lt_zpow_left₀ (by norm_num) (by norm_num) (by norm_num)
  constructor
  · calc (10 : ℚ) ^ (-325 : Int) < 2 ^ (-1075 : Int) := hsmall
      _ = 1 * 2 ^ (-1074 : Int) / 2 := by
        rw [show (-1075 : Int) = -1074 - 1 by norm_num, zpow_sub_one₀ two_ne_zero]
        ring
      _ ≤ m * 2 ^ e / 2 := by gcongr
      _ ≤ q := hlow
  · calc q ≤ 2 * (m * 2 ^ e) := hhigh
      _ ≤ 2 * (2 ^ 53 * 2 ^ (971 : Int)) := by gcongr
      _ = 2 ^ 54 * 2 ^ (971 : Int) := by rw [← mul_assoc, ← pow_succ']
      _ = 2 ^ (1025 : Int) := (two_zpow_add 971 54).symm
      _ < 10 ^ (310 : Int) := hlarge

theorem place_bounds {q : ℚ} (hmem : (interval m e).Mem q) {k : Int}
    (hlow : (10 : ℚ) ^ (k - 1) ≤ q) (hhigh : q < (10 : ℚ) ^ k) : -325 < k ∧ k ≤ 310 := by
  obtain ⟨hrange, hrange'⟩ := mem_range hm h hmem
  have hlt := (zpow_lt_zpow_iff_right₀ (by norm_num)).mp (hrange.trans hhigh)
  have hlt' := (zpow_lt_zpow_iff_right₀ (by norm_num)).mp (hlow.trans_lt hrange')
  omega

/-- The digits of a double: a number of its interval. -/
theorem ofParts_spec :
    Written (ofParts m e) ∧ (interval m e).Mem (ofParts m e).number := by
  have hpow : (0 : ℚ) < (2 : ℚ) ^ e := zpow_pos two_pos e
  have hone : (1 : ℚ) ≤ m := by exact_mod_cast hm
  have hvalue : 0 < (interval m e).value :=
    Nat.mul_pos (Nat.mul_pos (by decide) hm) (Binary64.scaled_pos Nat.one_pos (e - 2)).1
  obtain ⟨hlow, hhigh⟩ := decimalPoint_spec hvalue (denominator_pos (m := m) (e := e))
  rw [value_eq] at hlow hhigh
  unfold ofParts
  rw [if_neg hm.ne']
  dsimp only
  generalize decimalPoint (interval m e).value (interval m e).denominator = point at *
  have hfinest : (10 : ℚ) ^ (point - 1 - (16 : Nat)) * 10 ^ 16 ≤ m * 2 ^ e := by
    refine le_trans (le_of_eq ?_) hlow
    rw [← zpow_natCast, ← zpow_add₀ (by norm_num), sub_add_cancel]
  obtain ⟨hfound, hplace⟩ := Interval.search_spec (exists_onGrid? hm h hfinest)
  rw [Interval.hasUnits_iff denominator_pos] at hfound
  rw [show mostDigits = 16 + 1 from rfl]
  generalize (interval m e).search (16 + 1) (point - 1) = found at *
  obtain ⟨hnear, hnear'⟩ := mem_near hm hfound
  have hunits : found.1 ≠ 0 := by
    intro hzero
    have hpos := lt_of_lt_of_le (by positivity) hnear
    rw [hzero] at hpos
    simp at hpos
  have hsmall : found.1 < 10 ^ 18 := by
    have hten : (0 : ℚ) < (10 : ℚ) ^ (point - 17) := zpow_pos (by norm_num) _
    have hfine : (10 : ℚ) ^ (point - 17) ≤ (10 : ℚ) ^ found.2 :=
      zpow_le_zpow_right₀ (by norm_num) (by omega)
    have hpoint : (10 : ℚ) ^ point = 10 ^ 17 * (10 : ℚ) ^ (point - 17) := by
      rw [← zpow_natCast, ← zpow_add₀ (by norm_num)]
      congr 1
      omega
    have hunits' : (found.1 : ℚ) * 10 ^ (point - 17) < (10 ^ 18 : Nat) * 10 ^ (point - 17) := by
      calc (found.1 : ℚ) * 10 ^ (point - 17) ≤ found.1 * 10 ^ found.2 := by gcongr
        _ ≤ 2 * (m * 2 ^ e) := hnear'
        _ < 2 * (10 ^ 17 * (10 : ℚ) ^ (point - 17)) := by linarith
        _ ≤ (10 ^ 18 : Nat) * 10 ^ (point - 17) := by
          push_cast
          linarith
    exact_mod_cast lt_of_mul_lt_mul_right hunits' hten.le
  obtain ⟨hwritten, hnumber⟩ := ofUnits_spec hunits hsmall found.2
  exact ⟨hwritten, hnumber ▸ hfound⟩

end Found

end Shortest

/-! ### Reading digits back -/

namespace Nearest

open Shortest (interval)

variable {m : Nat} {e : Int} (hm : 0 < m) (h : Canonical m e)
include hm h

/-- A decimal number that lies in the interval of a double is rounded to that double. -/
theorem roundDecimal_of_mem {n : Nat} {exponent : Int}
    (hmem : (interval m e).Mem ((n : ℚ) * 10 ^ exponent)) :
    roundDecimal n exponent = magnitudeBits m e := by
  have hn : 0 < n := by
    refine Nat.pos_of_ne_zero fun hzero ↦ ?_
    have hlow := (Shortest.mem_range hm h hmem).1
    have hpow : (0 : ℚ) < (10 : ℚ) ^ (-325 : Int) := zpow_pos (by norm_num) _
    rw [hzero, Nat.cast_zero, zero_mul] at hlow
    exact lt_asymm hpow hlow
  have hsize : -325 < ((Nat.toDigits 10 n).length : Int) + exponent ∧
      ((Nat.toDigits 10 n).length : Int) + exponent ≤ 310 :=
    Shortest.place_bounds hm h hmem (Shortest.pow_le_decimal hn exponent)
      (Shortest.decimal_lt_pow n exponent)
  unfold roundDecimal
  dsimp only
  rw [if_neg (by omega), if_neg (by omega)]
  split_ifs with hexponent
  · obtain ⟨k, rfl⟩ := Int.eq_ofNat_of_zero_le hexponent
    refine Shortest.roundRatio_of_mem hm h Nat.one_pos ?_
    simpa using hmem
  · obtain ⟨k, rfl⟩ : ∃ k : Nat, exponent = -(k : Int) := ⟨(-exponent).toNat, by omega⟩
    have hpow : 0 < Nat.pow 10 (- -(k : Int)).toNat := Nat.pow_pos (by decide)
    refine Shortest.roundRatio_of_mem hm h hpow ?_
    simpa [div_eq_mul_inv] using hmem

/-- Up to nineteen digits are rounded as they stand. -/
theorem Significant.bits_of_mem {s : Significant} (hlength : s.digits.length ≤ estimated)
    (hmem : (interval m e).Mem s.number) : s.bits = magnitudeBits m e := by
  have hgoes : s.goesOn estimated = false := by
    rw [goesOn, List.drop_eq_nil_of_le hlength]
    rfl
  have hestimate : s.estimate? =
      some (roundDecimal (ofDigits s.digits) (s.exponent + s.whole - s.digits.length)) := by
    unfold estimate? leading
    rw [List.take_of_length_le hlength]
    simp [hgoes]
  rw [bits, hestimate]
  exact roundDecimal_of_mem hm h hmem

end Nearest

/-- The point of a double is near enough for an exponent to be read as it stands. -/
theorem Shortest.natAbs_point_lt {m : Nat} {e : Int} (hm : 0 < m) (h : Canonical m e) :
    ((ofParts m e).point - 1).natAbs < 1000 := by
  obtain ⟨hwritten, hmem⟩ := ofParts_spec hm h
  obtain ⟨hlow, hhigh⟩ := hwritten.number_bounds
  have hbounds := place_bounds hm h hmem hlow hhigh
  omega

end TokenLang.Decimal

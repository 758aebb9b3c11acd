import TokenLang.Proofs.Decimal

/-!
Rounding to the nearest double. The bits of magnitudes are in the order of the numbers they stand
for, and a number rounds to the bits between whose midpoints it lies; at a midpoint it rounds to
the even ones (`Binary64.Rounds`). So rounding is told by two numbers on the two sides of another,
and by every number of a stretch without a midpoint. Nineteen digits and the next number of nineteen
digits are two such sides, and eight hundred digits leave a stretch of that kind, because the
midpoints of doubles have fewer (`Decimal.Nearest.Significant.rounds_bits`).
-/

set_option autoImplicit false
set_option relaxedAutoImplicit false

namespace TokenLang

namespace Binary64

/-! ### Numbers and midpoints -/

/-- How often the spacing of magnitudes has doubled when it comes to these bits. -/
def doublings (bits : Nat) : Nat := bits / hidden - 1

/-- How far the next magnitude is. -/
def spacing (bits : Nat) : ℚ := 2 ^ (leastExponent + doublings bits)

/-- The number that the bits of a magnitude stand for. The bits of infinity stand for the number
that would come next if exponents went on. -/
def number (bits : Nat) : ℚ := ((bits - doublings bits * hidden : Nat) : ℚ) * spacing bits

/-- The number half way to the next magnitude. -/
def midpoint (bits : Nat) : ℚ := number bits + spacing bits / 2

theorem spacing_pos (bits : Nat) : 0 < spacing bits := zpow_pos two_pos _

theorem spacing_of_doublings {bits k : Nat} (h : doublings bits = k) :
    spacing bits = 2 ^ (leastExponent + k) := by rw [spacing, h]

theorem number_of_doublings {bits k : Nat} (h : doublings bits = k) :
    number bits = ((bits - k * hidden : Nat) : ℚ) * 2 ^ (leastExponent + k) := by
  rw [number, spacing_of_doublings h, h]

/-- The next bits stand for a number one spacing further on, also where the spacing doubles. -/
theorem number_succ (bits : Nat) : number (bits + 1) = number bits + spacing bits := by
  have hhidden : hidden = 2 ^ 52 := rfl
  have hle : doublings bits * hidden ≤ bits := by
    unfold doublings
    rw [hhidden]
    omega
  have hcases : doublings (bits + 1) = doublings bits ∨
      doublings (bits + 1) = doublings bits + 1 ∧ bits + 1 = doublings bits * hidden + 2 ^ 53 := by
    unfold doublings
    rw [hhidden]
    omega
  rcases hcases with hsame | ⟨hnext, hbits⟩
  · rw [number_of_doublings hsame, number, spacing, Nat.sub_add_comm hle]
    push_cast
    ring
  · have hmantissa : bits + 1 - (doublings bits + 1) * hidden = 2 ^ 52 := by
      rw [hhidden] at hbits ⊢
      omega
    have hmantissa' : bits - doublings bits * hidden = 2 ^ 53 - 1 := by omega
    have hpow : (2 : ℚ) ^ (leastExponent + (doublings bits + 1 : Nat)) = 2 * spacing bits := by
      rw [spacing, Nat.cast_add, Nat.cast_one, ← add_assoc, zpow_add_one₀ two_ne_zero, mul_comm]
    rw [number_of_doublings hnext, hmantissa, hpow, number, hmantissa']
    push_cast
    ring

theorem number_strictMono : StrictMono number := by
  refine strictMono_nat_of_lt_succ fun bits ↦ ?_
  rw [number_succ]
  exact lt_add_of_pos_right _ (spacing_pos bits)

theorem midpoint_eq_sub (bits : Nat) : midpoint bits = number (bits + 1) - spacing bits / 2 := by
  rw [midpoint, number_succ]
  ring

theorem midpoint_strictMono : StrictMono midpoint := by
  refine strictMono_nat_of_lt_succ fun bits ↦ ?_
  have hbelow := half_pos (spacing_pos bits)
  have habove := half_pos (spacing_pos (bits + 1))
  rw [midpoint_eq_sub, midpoint]
  linarith

/-! ### Rounding -/

/-- The bits nearest to a number, and of two that are as near the even ones. Beyond the largest
double they are those of infinity. -/
structure Nearest (q : ℚ) (bits : Nat) : Prop where
  le : bits ≤ infinityBits
  nearest : ∀ other ≤ infinityBits, |q - number bits| ≤ |q - number other|
  even : ∀ other ≤ infinityBits, other ≠ bits → |q - number bits| = |q - number other| →
    bits % 2 = 0

/-- A number between the midpoints around bits; at a midpoint the bits are even. -/
structure Rounds (q : ℚ) (bits : Nat) : Prop where
  le : bits ≤ infinityBits
  low : ∀ below, bits = below + 1 → midpoint below ≤ q ∧ (bits % 2 = 1 → midpoint below < q)
  high : bits < infinityBits → q ≤ midpoint bits ∧ (bits % 2 = 1 → q < midpoint bits)

namespace Rounds

variable {p q r : ℚ} {bits : Nat}

/-- No larger bits are nearer. -/
theorem lt_of_above (h : Rounds q bits) {other : Nat} (hlt : bits < other)
    (hother : other ≤ infinityBits) : |q - number bits| ≤ |q - number other| ∧
      (bits % 2 = 1 → |q - number bits| < |q - number other|) := by
  obtain ⟨hle, hodd⟩ := h.high (hlt.trans_le hother)
  have hnext : number (bits + 1) ≤ number other := number_strictMono.monotone hlt
  have hspacing := spacing_pos bits
  rw [number_succ] at hnext
  unfold midpoint at hle hodd
  rw [abs_of_nonpos (show q - number other ≤ 0 by linarith)]
  rcases le_total (number bits) q with hq | hq
  · rw [abs_of_nonneg (sub_nonneg.mpr hq)]
    exact ⟨by linarith, fun ho ↦ by linarith [hodd ho]⟩
  · rw [abs_of_nonpos (sub_nonpos.mpr hq)]
    exact ⟨by linarith, fun _ ↦ by linarith⟩

/-- No smaller bits are nearer. -/
theorem lt_of_below (h : Rounds q bits) {other : Nat} (hlt : other < bits) :
    |q - number bits| ≤ |q - number other| ∧
      (bits % 2 = 1 → |q - number bits| < |q - number other|) := by
  obtain ⟨below, rfl⟩ := Nat.exists_eq_add_of_lt hlt
  rw [Nat.add_assoc] at h ⊢
  obtain ⟨hle, hodd⟩ := h.low (other + below) rfl
  have hnext : number other ≤ number (other + below) := number_strictMono.monotone (by omega)
  have hspacing := spacing_pos (other + below)
  have hsucc := number_succ (other + below)
  unfold midpoint at hle hodd
  rw [abs_of_nonneg (show 0 ≤ q - number other by linarith), ← Nat.add_assoc, hsucc]
  rw [← Nat.add_assoc] at hodd
  rcases le_total (number (other + below) + spacing (other + below)) q with hq | hq
  · rw [abs_of_nonneg (sub_nonneg.mpr hq)]
    exact ⟨by linarith, fun _ ↦ by linarith⟩
  · rw [abs_of_nonpos (sub_nonpos.mpr hq)]
    exact ⟨by linarith, fun ho ↦ by linarith [hodd ho]⟩

/-- What lies between the midpoints is nearest. -/
theorem nearest (h : Rounds q bits) : Nearest q bits where
  le := h.le
  nearest other hother := by
    rcases lt_trichotomy other bits with hlt | rfl | hlt
    · exact (h.lt_of_below hlt).1
    · exact le_rfl
    · exact (h.lt_of_above hlt hother).1
  even other hother hne heq := by
    by_contra heven
    have hodd : bits % 2 = 1 := by omega
    rcases Nat.lt_or_gt_of_ne hne with hlt | hlt
    · exact absurd heq ((h.lt_of_below hlt).2 hodd).ne
    · exact absurd heq ((h.lt_of_above hlt hother).2 hodd).ne

/-- Two numbers that round to the same bits tell how a number between them rounds. -/
theorem between (hp : Rounds p bits) (hr : Rounds r bits) (hpq : p ≤ q) (hqr : q ≤ r) :
    Rounds q bits where
  le := hp.le
  low below hbits := by
    obtain ⟨hle, hodd⟩ := hp.low below hbits
    exact ⟨hle.trans hpq, fun ho ↦ (hodd ho).trans_le hpq⟩
  high hlt := by
    obtain ⟨hle, hodd⟩ := hr.high hlt
    exact ⟨hqr.trans hle, fun ho ↦ hqr.trans_lt (hodd ho)⟩

/-- The numbers of a stretch without a midpoint round to the same bits. -/
theorem of_no_midpoint {a b : ℚ} (hp : Rounds p bits) (hap : a < p) (hpb : p < b) (haq : a < q)
    (hqb : q < b) (hno : ∀ other < infinityBits, midpoint other ≤ a ∨ b ≤ midpoint other) :
    Rounds q bits where
  le := hp.le
  low below hbits := by
    have hlt : midpoint below < q := by
      rcases hno below (by have := hp.le; omega) with h | h
      · exact h.trans_lt haq
      · exact absurd ((hp.low below hbits).1.trans_lt hpb) h.not_gt
    exact ⟨hlt.le, fun _ ↦ hlt⟩
  high hbits := by
    have hlt : q < midpoint bits := by
      rcases hno bits hbits with h | h
      · exact absurd (hap.trans_le (hp.high hbits).1) h.not_gt
      · exact hqb.trans_le h
    exact ⟨hlt.le, fun _ ↦ hlt⟩

end Rounds

/-- A rounded ratio is at most one half away from it, and less than that if it is odd. -/
theorem roundDiv_spec (n : Nat) {d : Nat} (hd : 0 < d) :
    ((roundDiv n d : ℚ) - 1 / 2 ≤ n / d ∧ (n : ℚ) / d ≤ roundDiv n d + 1 / 2) ∧
      (roundDiv n d % 2 = 1 →
        (roundDiv n d : ℚ) - 1 / 2 < n / d ∧ (n : ℚ) / d < roundDiv n d + 1 / 2) := by
  have hdpos : (0 : ℚ) < d := by exact_mod_cast hd
  have hdiv := Nat.div_add_mod n d
  have hmod := Nat.mod_lt n hd
  have hcases : 2 * (roundDiv n d * d) ≤ 2 * n + d ∧ 2 * n ≤ 2 * (roundDiv n d * d) + d ∧
      (roundDiv n d % 2 = 1 →
        2 * (roundDiv n d * d) < 2 * n + d ∧ 2 * n < 2 * (roundDiv n d * d) + d) := by
    unfold roundDiv
    dsimp only
    rw [Nat.mul_comm] at hdiv
    generalize n / d = quotient at *
    generalize n % d = rest at *
    split_ifs with h
    · simp only [Bool.or_eq_true, decide_eq_true_eq, Bool.and_eq_true, beq_iff_eq] at h
      rw [Nat.add_mul, Nat.one_mul]
      omega
    · simp only [Bool.or_eq_true, decide_eq_true_eq, Bool.and_eq_true, beq_iff_eq] at h
      omega
  obtain ⟨hlow, hhigh, hodd⟩ := hcases
  have hlow' : (2 : ℚ) * (roundDiv n d * d) ≤ 2 * n + d := by exact_mod_cast hlow
  have hhigh' : (2 : ℚ) * n ≤ 2 * (roundDiv n d * d) + d := by exact_mod_cast hhigh
  rw [le_div_iff₀ hdpos, div_le_iff₀ hdpos, lt_div_iff₀ hdpos, div_lt_iff₀ hdpos]
  refine ⟨⟨by linarith, by linarith⟩, fun ho ↦ ?_⟩
  obtain ⟨hlow, hhigh⟩ := hodd ho
  have hlow' : (2 : ℚ) * (roundDiv n d * d) < 2 * n + d := by exact_mod_cast hlow
  have hhigh' : (2 : ℚ) * n < 2 * (roundDiv n d * d) + d := by exact_mod_cast hhigh
  exact ⟨by linarith, by linarith⟩

/-- A number next to a mantissa of which the spacing has doubled `k` times. -/
structure Close (q : ℚ) (k m : Nat) : Prop where
  low : ((m : ℚ) - 1 / 2) * 2 ^ (leastExponent + k) ≤ q
  high : q ≤ (m + 1 / 2) * 2 ^ (leastExponent + k)
  odd : m % 2 = 1 → ((m : ℚ) - 1 / 2) * 2 ^ (leastExponent + k) < q ∧
    q < (m + 1 / 2) * 2 ^ (leastExponent + k)
  lt : q < 2 ^ 53 * 2 ^ (leastExponent + k)
  le : (2 : ℚ) ^ 52 * 2 ^ (leastExponent + k) ≤ q ∨ k = 0

namespace Close

variable {q : ℚ} {k m : Nat} (h : Close q k m)
include h

theorem mantissa_le : m ≤ 2 ^ 53 := by
  have hpow : (0 : ℚ) < 2 ^ (leastExponent + k) := zpow_pos two_pos _
  have hlt : (m : ℚ) - 1 / 2 < 2 ^ 53 := lt_of_mul_lt_mul_right (h.low.trans_lt h.lt) hpow.le
  have hm : (m : ℚ) < (2 ^ 53 + 1 : Nat) := by
    push_cast
    linarith
  exact Nat.lt_succ_iff.mp (by exact_mod_cast hm)

theorem le_mantissa : 2 ^ 52 ≤ m ∨ k = 0 := by
  refine h.le.imp_left fun hle ↦ ?_
  have hpow : (0 : ℚ) < 2 ^ (leastExponent + k) := zpow_pos two_pos _
  have hlt : (2 : ℚ) ^ 52 ≤ m + 1 / 2 := le_of_mul_le_mul_right (hle.trans h.high) hpow
  have hm : ((2 ^ 52 : Nat) : ℚ) < (m + 1 : Nat) := by
    push_cast
    linarith
  exact Nat.lt_succ_iff.mp (by exact_mod_cast hm)

/-- The bits of the mantissa stand for it, also if it is the first of the next power of two. -/
theorem number_eq : number (k * hidden + m) = m * 2 ^ (leastExponent + k) := by
  have hhidden : hidden = 2 ^ 52 := rfl
  have hle := h.mantissa_le
  have hge := h.le_mantissa
  by_cases hcarry : m = 2 ^ 53
  · have hk : doublings (k * hidden + m) = k + 1 := by
      unfold doublings
      rw [hhidden]
      omega
    have hmantissa : k * hidden + m - (k + 1) * hidden = 2 ^ 52 := by
      rw [hhidden]
      omega
    rw [number_of_doublings hk, hmantissa, hcarry, Nat.cast_add, Nat.cast_one, ← add_assoc,
      zpow_add_one₀ two_ne_zero]
    push_cast
    ring
  · have hk : doublings (k * hidden + m) = k := by
      unfold doublings
      rw [hhidden]
      omega
    rw [number_of_doublings hk, Nat.add_sub_cancel_left]

/-- The midpoint below the result does not lie beyond the number, and if the mantissa is odd it is
not the number either. Below the first mantissa of a power of two the spacing is half of that
above. -/
theorem midpoint_below_le {below : Nat} (hbelow : k * hidden + m = below + 1) :
    midpoint below ≤ q ∧ (m % 2 = 1 → midpoint below < q) := by
  have hhidden : hidden = 2 ^ 52 := rfl
  have hpow : (0 : ℚ) < 2 ^ (leastExponent + k) := zpow_pos two_pos _
  have hle := h.mantissa_le
  have hge := h.le_mantissa
  have hmidpoint := midpoint_eq_sub below
  rw [← hbelow, h.number_eq] at hmidpoint
  by_cases hfirst : m = 2 ^ 52 ∧ k ≠ 0
  · obtain ⟨rfl, hk⟩ := hfirst
    have hlt : midpoint below < q := by
      have hspacing := spacing_pos below
      have hlow := h.le.resolve_right hk
      push_cast at hmidpoint
      linarith
    exact ⟨hlt.le, fun _ ↦ hlt⟩
  · have hk : doublings below = k := by
      unfold doublings
      rw [hhidden] at hbelow ⊢
      omega
    rw [spacing_of_doublings hk] at hmidpoint
    have hlow := h.low
    exact ⟨by linarith, fun ho ↦ by linarith [(h.odd ho).1]⟩

/-- The midpoint above the result does not lie below the number, and if the mantissa is odd it is
not the number either. -/
theorem le_midpoint : q ≤ midpoint (k * hidden + m) ∧
    (m % 2 = 1 → q < midpoint (k * hidden + m)) := by
  have hhidden : hidden = 2 ^ 52 := rfl
  have hle := h.mantissa_le
  have hge := h.le_mantissa
  unfold midpoint
  rw [h.number_eq]
  by_cases hcarry : m = 2 ^ 53
  · have hlt : q < m * 2 ^ (leastExponent + k) + spacing (k * hidden + m) / 2 := by
      have hspacing := spacing_pos (k * hidden + m)
      have hq := h.lt
      have hm : (m : ℚ) = 2 ^ 53 := by exact_mod_cast hcarry
      rw [hm]
      linarith
    exact ⟨hlt.le, fun _ ↦ hlt⟩
  · have hk : doublings (k * hidden + m) = k := by
      unfold doublings
      rw [hhidden]
      omega
    rw [spacing_of_doublings hk]
    have hhigh := h.high
    exact ⟨by linarith, fun ho ↦ by linarith [(h.odd ho).2]⟩

/-- Both midpoints put together, with infinity for what is too large. -/
theorem rounds : Rounds q (min (k * hidden + m) infinityBits) := by
  have hparity : (k * hidden + m) % 2 = m % 2 := by
    have hhidden : hidden = 2 ^ 52 := rfl
    rw [hhidden]
    omega
  rcases le_or_gt (k * hidden + m) infinityBits with hle | hgt
  · rw [min_eq_left hle]
    exact ⟨hle, fun below hbelow ↦ by rw [hparity]; exact h.midpoint_below_le hbelow,
      fun _ ↦ by rw [hparity]; exact h.le_midpoint⟩
  · rw [min_eq_right hgt.le]
    refine ⟨le_rfl, fun below hbelow ↦ ?_, fun hlt ↦ absurd hlt (lt_irrefl _)⟩
    obtain ⟨last, hlast⟩ : ∃ last, k * hidden + m = last + 1 := ⟨k * hidden + m - 1, by omega⟩
    have hmidpoint : midpoint below < midpoint last := midpoint_strictMono (by omega)
    have hlt := hmidpoint.trans_le (h.midpoint_below_le hlast).1
    exact ⟨hlt.le, fun _ ↦ hlt⟩

end Close

/-- Ratios are rounded to the nearest double. -/
theorem rounds_roundRatio {n d : Nat} (hn : 0 < n) (hd : 0 < d) :
    Rounds (n / d) (roundRatio n d) := by
  obtain ⟨hlog, hlog'⟩ := ratioLog_spec hn hd
  obtain ⟨k, hk⟩ : ∃ k : Nat, max (ratioLog n d - 52) leastExponent = leastExponent + k :=
    ⟨(max (ratioLog n d - 52) leastExponent - leastExponent).toNat, by omega⟩
  have hpow : (0 : ℚ) < 2 ^ (leastExponent + k) := zpow_pos two_pos _
  obtain ⟨hapos, hbpos⟩ := scaled_pos hd (leastExponent + k)
  have hratio : ((n * (scaled d (leastExponent + k)).2 : Nat) : ℚ) /
      ((scaled d (leastExponent + k)).1 : ℚ) = n / d / 2 ^ (leastExponent + k) := by
    have hscaled := scaled_eq d (leastExponent + k)
    have ha : ((scaled d (leastExponent + k)).1 : ℚ) ≠ 0 := by exact_mod_cast hapos.ne'
    have hb : ((scaled d (leastExponent + k)).2 : ℚ) ≠ 0 := by exact_mod_cast hbpos.ne'
    rw [div_div, ← hscaled]
    push_cast
    field_simp
  have hround : roundRatio n d = min (k * hidden +
      roundDiv (n * (scaled d (leastExponent + k)).2) (scaled d (leastExponent + k)).1)
      infinityBits := by
    unfold roundRatio
    rw [if_neg hn.ne', hk]
    dsimp only
    rw [add_sub_cancel_left, Int.toNat_natCast]
  obtain ⟨⟨hlow, hhigh⟩, hodd⟩ := roundDiv_spec (n * (scaled d (leastExponent + k)).2) hapos
  rw [hratio, le_div_iff₀ hpow, div_le_iff₀ hpow, lt_div_iff₀ hpow, div_lt_iff₀ hpow] at *
  rw [hround]
  refine Close.rounds ⟨hlow, hhigh, hodd, ?_, ?_⟩
  · rw [← zpow_natCast, ← zpow_add₀ two_ne_zero]
    refine hlog'.trans_le (zpow_le_zpow_right₀ one_le_two ?_)
    push_cast
    omega
  · rcases Nat.eq_zero_or_pos k with hzero | hpos
    · exact .inr hzero
    · refine .inl ?_
      rw [← zpow_natCast, ← zpow_add₀ two_ne_zero]
      refine le_trans (zpow_le_zpow_right₀ one_le_two ?_) hlog
      push_cast
      omega

/-- Midpoints of doubles are odd multiples of half their spacing. -/
theorem midpoint_eq {bits : Nat} (h : bits < infinityBits) : ∃ m k : Nat, m < 2 ^ 54 ∧ k ≤ 2045 ∧
    midpoint bits = m * 2 ^ (leastExponent - 1 + k) := by
  have hhidden : hidden = 2 ^ 52 := rfl
  have hinfinity : infinityBits = 0x7ff * 2 ^ 52 := rfl
  refine ⟨2 * (bits - doublings bits * hidden) + 1, doublings bits, ?_, ?_, ?_⟩
  · unfold doublings
    rw [hhidden]
    omega
  · unfold doublings
    rw [hhidden]
    omega
  · have hpow : (2 : ℚ) ^ (leastExponent - 1 + doublings bits) = spacing bits / 2 := by
      rw [spacing, sub_add_eq_add_sub, zpow_sub_one₀ two_ne_zero]
      rfl
    rw [hpow, midpoint, number]
    push_cast
    ring

end Binary64

namespace Decimal.Nearest

open Binary64 (Rounds infinityBits leastExponent)

/-! ### Decimal numbers -/

theorem two_pow_1075_le : (2 : ℚ) ^ (1075 : Int) ≤ 10 ^ (330 : Int) := by
  have hpow : ((2 : ℚ) ^ 215) ^ 5 ≤ (10 ^ 66) ^ 5 := pow_le_pow_left₀ (by norm_num) (by norm_num) 5
  rw [← pow_mul, ← pow_mul] at hpow
  exact hpow

theorem two_pow_1024_le : (2 : ℚ) ^ 1024 ≤ 10 ^ 320 := by
  have hpow : ((2 : ℚ) ^ 16) ^ 64 ≤ (10 ^ 5) ^ 64 := pow_le_pow_left₀ (by norm_num) (by norm_num) 64
  rw [← pow_mul, ← pow_mul] at hpow
  exact hpow

/-- Below the least midpoint everything rounds to zero. -/
theorem rounds_zero {q : ℚ} (hq : q ≤ 2 ^ (-1075 : Int)) : Rounds q 0 := by
  have hmidpoint : Binary64.midpoint 0 = 2 ^ (-1075 : Int) := by
    have hnumber : Binary64.number 0 = 0 := by simp [Binary64.number, Binary64.doublings]
    have hspacing : Binary64.spacing 0 = 2 ^ (-1074 : Int) := by
      simp [Binary64.spacing, Binary64.doublings, leastExponent]
    rw [Binary64.midpoint, hnumber, hspacing, show (-1074 : Int) = -1075 + 1 by decide,
      zpow_add_one₀ two_ne_zero]
    ring
  exact ⟨Nat.zero_le _, fun below hbelow ↦ absurd hbelow (by omega),
    fun _ ↦ ⟨hmidpoint ▸ hq, fun hodd ↦ absurd hodd (by decide)⟩⟩

/-- Beyond the doubles everything rounds to infinity. -/
theorem rounds_infinity {q : ℚ} (hq : 2 ^ 1024 ≤ q) : Rounds q infinityBits := by
  refine ⟨le_rfl, fun below hbelow ↦ ?_, fun hlt ↦ absurd hlt (lt_irrefl _)⟩
  have hnumber : Binary64.number (below + 1) = 2 ^ 1024 := by
    have hk : Binary64.doublings (below + 1) = 2046 := by
      rw [← hbelow]
      decide
    rw [Binary64.number_of_doublings hk, ← hbelow, show infinityBits - 2046 * Binary64.hidden =
      2 ^ 52 by decide, show leastExponent + (2046 : Nat) = 972 by decide, Nat.cast_pow,
      Nat.cast_ofNat, ← zpow_natCast, ← zpow_add₀ two_ne_zero, ← zpow_natCast]
    rfl
  have hlt : Binary64.midpoint below < q := by
    rw [Binary64.midpoint_eq_sub, hnumber]
    exact (sub_lt_self _ (half_pos (Binary64.spacing_pos below))).trans_le hq
  exact ⟨hlt.le, fun _ ↦ hlt⟩

/-- Decimal numbers are rounded to the nearest double: very small ones are zero, very large ones
infinite, and only the others are divided out. -/
theorem rounds_roundDecimal (n : Nat) (exponent : Int) :
    Rounds (n * 10 ^ exponent) (roundDecimal n exponent) := by
  unfold roundDecimal
  dsimp only
  rcases Nat.eq_zero_or_pos n with rfl | hn
  · rw [if_pos (.inl rfl), Nat.cast_zero, zero_mul]
    exact rounds_zero (zpow_pos two_pos _).le
  have hhigh := Shortest.decimal_lt_pow n exponent
  have hlow := Shortest.pow_le_decimal hn exponent
  by_cases hsmall : (Nat.toDigits 10 n).length + exponent < -330
  · rw [if_pos (.inr hsmall)]
    refine rounds_zero (hhigh.le.trans ?_)
    calc (10 : ℚ) ^ ((Nat.toDigits 10 n).length + exponent) ≤ 10 ^ (-330 : Int) :=
          zpow_le_zpow_right₀ (by norm_num) hsmall.le
      _ ≤ 2 ^ (-1075 : Int) := by
          rw [zpow_neg, zpow_neg]
          exact inv_anti₀ (by positivity) two_pow_1075_le
  rw [if_neg (by omega)]
  by_cases hlarge : 320 < (Nat.toDigits 10 n).length + exponent
  · rw [if_pos hlarge]
    refine rounds_infinity (le_trans ?_ hlow)
    calc (2 : ℚ) ^ 1024 ≤ 10 ^ 320 := two_pow_1024_le
      _ = 10 ^ (320 : Int) := (zpow_natCast 10 320).symm
      _ ≤ 10 ^ ((Nat.toDigits 10 n).length + exponent - 1) :=
          zpow_le_zpow_right₀ (by norm_num) (by omega)
  rw [if_neg hlarge]
  split_ifs with hexponent
  · obtain ⟨k, rfl⟩ := Int.eq_ofNat_of_zero_le hexponent
    have hrounds := Binary64.rounds_roundRatio (n := n * Nat.pow 10 k)
      (Nat.mul_pos hn (Nat.pow_pos (by decide))) Nat.one_pos
    simpa using hrounds
  · obtain ⟨k, rfl⟩ : ∃ k : Nat, exponent = -(k : Int) := ⟨(-exponent).toNat, by omega⟩
    have hrounds := Binary64.rounds_roundRatio (d := Nat.pow 10 k) hn (Nat.pow_pos (by decide))
    simpa [div_eq_mul_inv] using hrounds

/-! ### Digits that are left out -/

theorem ofDigits_append (front back : List Nat) :
    ofDigits (front ++ back) = ofDigits front * 10 ^ back.length + ofDigits back := by
  induction back using List.reverseRecOn with
  | nil => simp [ofDigits]
  | append_singleton back d ih =>
    rw [← List.append_assoc, ofDigits_concat, ofDigits_concat, ih, List.length_append,
      List.length_singleton, pow_succ]
    ring

theorem ofDigits_eq_zero_iff (digits : List Nat) :
    ofDigits digits = 0 ↔ digits.any (· != 0) = false := by
  induction digits using List.reverseRecOn with
  | nil => simp [ofDigits]
  | append_singleton digits d ih =>
    rw [ofDigits_concat, List.any_append, Bool.or_eq_false_iff, ← ih]
    simp

namespace Significant

variable (s : Significant)

/-- A number by its first digits and the part that they leave out. -/
theorem number_eq (count : Nat) : s.number =
    ((s.leading count s.whole).1 + ofDigits (s.digits.drop count) /
      10 ^ (s.digits.drop count).length) * 10 ^ (s.leading count s.whole).2 := by
  have hdigits := ofDigits_append (s.digits.take count) (s.digits.drop count)
  have hlength : s.digits.length =
      (s.digits.take count).length + (s.digits.drop count).length := by
    rw [← List.length_append, List.take_append_drop]
  rw [List.take_append_drop] at hdigits
  unfold number leading
  dsimp only
  rw [hdigits, hlength, Nat.cast_add ((s.digits.take count).length), ← sub_sub,
    zpow_sub₀ (by norm_num) _ ((s.digits.drop count).length : Int), zpow_natCast]
  push_cast
  field_simp

theorem number_of_not_goesOn {count : Nat} (h : s.goesOn count = false) :
    s.number = (s.leading count s.whole).1 * 10 ^ (s.leading count s.whole).2 := by
  rw [s.number_eq count, (ofDigits_eq_zero_iff _).mpr h]
  simp

variable {s} (hdigits : ∀ d ∈ s.digits, d < 10)
include hdigits

/-- With digits left out, the number lies between what the leading ones stand for and one unit more
of the last. -/
theorem number_of_goesOn {count : Nat} (h : s.goesOn count = true) :
    (s.leading count s.whole).1 * 10 ^ (s.leading count s.whole).2 < s.number ∧
      s.number < ((s.leading count s.whole).1 + 1) * 10 ^ (s.leading count s.whole).2 := by
  have hten : (0 : ℚ) < 10 ^ (s.leading count s.whole).2 := zpow_pos (by norm_num) _
  have hrest : 0 < ofDigits (s.digits.drop count) := by
    refine Nat.pos_of_ne_zero fun hzero ↦ ?_
    rw [goesOn, (ofDigits_eq_zero_iff _).mp hzero] at h
    cases h
  have hlt : ofDigits (s.digits.drop count) < 10 ^ (s.digits.drop count).length :=
    ofDigits_lt fun d hd ↦ hdigits d (List.mem_of_mem_drop hd)
  have hpow : (0 : ℚ) < 10 ^ (s.digits.drop count).length := by positivity
  have hpos : (0 : ℚ) < ofDigits (s.digits.drop count) / 10 ^ (s.digits.drop count).length :=
    div_pos (by exact_mod_cast hrest) hpow
  have hone : (ofDigits (s.digits.drop count) : ℚ) / 10 ^ (s.digits.drop count).length < 1 := by
    rw [div_lt_one hpow]
    exact_mod_cast hlt
  rw [s.number_eq count]
  exact ⟨mul_lt_mul_of_pos_right (by linarith) hten, mul_lt_mul_of_pos_right (by linarith) hten⟩

/-- An estimate is made only where nothing is left out, or where both ends of what is left out are
rounded to the same bits. -/
theorem rounds_of_estimate? {bits : Nat} (h : s.estimate? = some bits) :
    Rounds s.number bits := by
  have hlow := rounds_roundDecimal (s.leading estimated s.whole).1
    (s.leading estimated s.whole).2
  have hhigh := rounds_roundDecimal ((s.leading estimated s.whole).1 + 1)
    (s.leading estimated s.whole).2
  unfold estimate? at h
  dsimp only at h
  split_ifs at h with htest
  obtain rfl := Option.some.inj h
  cases hgoes : s.goesOn estimated with
  | false =>
    rw [s.number_of_not_goesOn hgoes]
    exact hlow
  | true =>
    have hsame : roundDecimal (s.leading estimated s.whole).1 (s.leading estimated s.whole).2 =
        roundDecimal ((s.leading estimated s.whole).1 + 1) (s.leading estimated s.whole).2 := by
      simpa [hgoes] using htest
    obtain ⟨hbelow, habove⟩ := number_of_goesOn hdigits hgoes
    rw [← hsame] at hhigh
    push_cast at hhigh
    exact hlow.between hhigh hbelow.le habove.le

end Significant

theorem five_pow_1075_le : (2 : ℚ) ^ 54 * 5 ^ 1075 ≤ 10 ^ 799 := by
  have hpow : ((5 : ℚ) ^ 215) ^ 5 ≤ (10 ^ 151) ^ 5 := pow_le_pow_left₀ (by norm_num) (by norm_num) 5
  rw [← pow_mul, ← pow_mul] at hpow
  calc (2 : ℚ) ^ 54 * 5 ^ 1075 ≤ 10 ^ 17 * 10 ^ (151 * 5) :=
        mul_le_mul (by norm_num) hpow (by positivity) (by positivity)
    _ = 10 ^ (17 + 151 * 5) := (pow_add 10 17 (151 * 5)).symm
    _ ≤ 10 ^ 799 := pow_le_pow_right₀ (by norm_num) (by decide)

/-- Between two neighbours of eight hundred digits there is no midpoint: whole numbers of so many
digits are beyond the doubles, and below them a midpoint is a multiple of the last place or has
fewer digits. -/
theorem no_midpoint {n : Nat} (hn : (10 : ℚ) ^ 799 ≤ n) (x : Int) {bits : Nat}
    (hbits : bits < infinityBits) :
    Binary64.midpoint bits ≤ n * 10 ^ x ∨ (n + 1) * 10 ^ x ≤ Binary64.midpoint bits := by
  obtain ⟨m, k, hm, hk, hmidpoint⟩ := Binary64.midpoint_eq hbits
  have hleast : leastExponent = -1074 := rfl
  have hmantissa : (m : ℚ) ≤ 2 ^ 54 := by exact_mod_cast hm.le
  by_contra hcon
  obtain ⟨hlow, hhigh⟩ := not_or.mp hcon
  rw [not_le, hmidpoint] at hlow hhigh
  generalize hy : leastExponent - 1 + k = y at hlow hhigh
  rcases le_or_gt 0 x with hx | hx
  · have hlarge : (10 : ℚ) ^ 799 ≤ n * 10 ^ x :=
      hn.trans (le_mul_of_one_le_right (Nat.cast_nonneg n) (one_le_zpow₀ (by norm_num) hx))
    have hsmall : (m : ℚ) * 2 ^ y ≤ 10 ^ 799 := by
      calc (m : ℚ) * 2 ^ y ≤ 2 ^ 54 * 2 ^ (970 : Int) :=
            mul_le_mul hmantissa (zpow_le_zpow_right₀ one_le_two (by omega))
              (zpow_pos two_pos _).le (by positivity)
        _ = 2 ^ 1024 := by
            rw [← zpow_natCast, ← zpow_add₀ two_ne_zero, ← zpow_natCast]
            rfl
        _ ≤ 10 ^ 320 := two_pow_1024_le
        _ ≤ 10 ^ 799 := pow_le_pow_right₀ (by norm_num) (by decide)
    exact absurd (hlow.trans_le (hsmall.trans hlarge)) (lt_irrefl _)
  · obtain ⟨places, rfl⟩ : ∃ places : Nat, x = -(places : Int) := ⟨(-x).toNat, by omega⟩
    have hpow : (0 : ℚ) < 10 ^ places := by positivity
    have hscaled : (m : ℚ) * 2 ^ y * 10 ^ places = m * 5 ^ places * 2 ^ (y + places) := by
      rw [show (10 : ℚ) = 2 * 5 by norm_num, mul_pow, zpow_add₀ two_ne_zero, zpow_natCast]
      ring
    rw [zpow_neg, zpow_natCast, ← div_eq_mul_inv, div_lt_iff₀ hpow, hscaled] at hlow
    rw [zpow_neg, zpow_natCast, ← div_eq_mul_inv, lt_div_iff₀ hpow, hscaled] at hhigh
    rcases le_or_gt 0 (y + places) with hwhole | hpart
    · obtain ⟨j, hj⟩ := Int.eq_ofNat_of_zero_le hwhole
      rw [hj, zpow_natCast] at hlow hhigh
      have hlow' : n < m * 5 ^ places * 2 ^ j := by exact_mod_cast hlow
      have hhigh' : m * 5 ^ places * 2 ^ j < n + 1 := by exact_mod_cast hhigh
      omega
    · have hsmall : (m : ℚ) * 5 ^ places * 2 ^ (y + places) ≤ 10 ^ 799 := by
        calc (m : ℚ) * 5 ^ places * 2 ^ (y + places) ≤ 2 ^ 54 * 5 ^ 1075 * 1 := by
              refine mul_le_mul (mul_le_mul hmantissa ?_ (by positivity) (by positivity)) ?_
                (zpow_pos two_pos _).le (by positivity)
              · exact pow_le_pow_right₀ (by norm_num) (by omega)
              · exact zpow_le_one_of_nonpos₀ one_le_two hpart.le
          _ ≤ 10 ^ 799 := by
              rw [mul_one]
              exact five_pow_1075_le
      exact absurd (hlow.trans_le (hsmall.trans hn)) (lt_irrefl _)

namespace Significant

variable {s : Significant} (hdigits : ∀ d ∈ s.digits, d < 10)
  (hhead : ∀ d ∈ s.digits.head?, d ≠ 0) (hwhole : s.whole ≤ kept)
include hdigits hhead hwhole

omit hdigits hwhole in
/-- Digits that go on after those that are kept start with a number of full length. -/
theorem pow_le_leading (hgoes : s.goesOn kept = true) :
    (10 : ℚ) ^ 799 ≤ (s.leading kept s.whole).1 := by
  have hlength : (s.digits.take kept).length = kept := by
    rw [List.length_take, min_eq_left]
    by_contra hshort
    rw [goesOn, List.drop_eq_nil_of_le (Nat.le_of_not_le hshort)] at hgoes
    cases hgoes
  obtain ⟨first, more, hfirst⟩ : ∃ first more, s.digits.take kept = first :: more :=
    List.exists_cons_of_length_pos (by rw [hlength]; decide)
  have hne : first ≠ 0 := by
    refine hhead first ?_
    have htake := List.head?_take (i := kept) (l := s.digits)
    rw [hfirst, if_neg (by decide)] at htake
    exact htake.symm
  have hmore : more.length = 799 := by
    rw [hfirst, List.length_cons] at hlength
    exact Nat.succ.inj hlength
  have hpow := pow_le_ofDigits_cons hne more
  rw [hmore, ← hfirst] at hpow
  exact_mod_cast hpow

/-- With eight hundred digits looked at, no midpoint is left between them and what the others may
add, so one more digit, whichever, stands for all that follow. -/
theorem rounds_decide : Rounds s.number s.decide := by
  unfold Significant.decide
  rw [min_eq_left hwhole]
  dsimp only
  split_ifs with hgoes
  · obtain ⟨hbelow, habove⟩ := number_of_goesOn hdigits hgoes
    have hpow : (0 : ℚ) < 10 ^ ((s.leading kept s.whole).2 - 1) := zpow_pos (by norm_num) _
    have hten : (10 : ℚ) ^ (s.leading kept s.whole).2 =
        10 ^ ((s.leading kept s.whole).2 - 1) * 10 := by
      rw [← zpow_add_one₀ (by norm_num), sub_add_cancel]
    have hrounds := rounds_roundDecimal ((s.leading kept s.whole).1 * 10 + 1)
      ((s.leading kept s.whole).2 - 1)
    refine hrounds.of_no_midpoint ?_ ?_ hbelow habove fun bits hbits ↦
      no_midpoint (pow_le_leading hhead hgoes) _ hbits
    · rw [hten]
      push_cast
      linarith
    · rw [hten]
      push_cast
      linarith
  · rw [s.number_of_not_goesOn (Bool.eq_false_iff.mpr hgoes)]
    exact rounds_roundDecimal _ _

/-- Numerals are rounded to the nearest double. -/
theorem rounds_bits : Rounds s.number s.bits := by
  unfold bits
  split
  · rename_i bits hestimate
    exact rounds_of_estimate? hdigits hestimate
  · exact rounds_decide hdigits hhead hwhole

end Significant

/-! ### Leading zeros -/

theorem ofDigits_dropWhile (digits : List Nat) :
    ofDigits (digits.dropWhile (· == 0)) = ofDigits digits := by
  induction digits with
  | nil => rfl
  | cons d digits ih =>
    by_cases hd : d = 0
    · subst hd
      rw [List.dropWhile_cons_of_pos rfl, ih]
      rfl
    · rw [List.dropWhile_cons_of_neg (by simpa using hd)]

theorem ne_zero_of_mem_head?_dropWhile {digits : List Nat} {d : Nat}
    (h : d ∈ (digits.dropWhile (· == 0)).head?) : d ≠ 0 := by
  have hhead := List.head?_dropWhile_not (· == 0) digits
  rw [Option.mem_def.mp h] at hhead
  simpa using hhead

namespace Significant

variable (whole fraction : List Nat) (exponent : Int)

/-- Leading zeros are left off, which does not change the number. -/
theorem number_of : (Significant.of whole fraction exponent).number =
    ofDigits (whole ++ fraction) * 10 ^ (exponent - fraction.length) := by
  have hzeros := ofDigits_dropWhile whole
  unfold Significant.of
  split
  · rename_i hnil
    rw [hnil] at hzeros
    have hle : (fraction.dropWhile (· == 0)).length ≤ fraction.length :=
      (List.dropWhile_suffix _).length_le
    rw [ofDigits_append, ← hzeros, ← ofDigits_dropWhile fraction]
    unfold number
    dsimp only
    rw [Nat.cast_sub hle, show ofDigits ([] : List Nat) = 0 from rfl, Nat.zero_mul, Nat.zero_add,
      Nat.cast_zero]
    congr 2
    omega
  · rename_i d rest hcons
    rw [hcons] at hzeros
    rw [ofDigits_append, ← hzeros, ← ofDigits_append]
    unfold number
    dsimp only
    rw [List.length_append, Nat.cast_add]
    congr 2
    omega

variable {whole fraction}

/-- The digits of a numeral round to the nearest double, if its whole part is not too long. -/
theorem rounds_bits_of (hwhole : ∀ d ∈ whole, d < 10) (hfraction : ∀ d ∈ fraction, d < 10)
    (hlength : (whole.dropWhile (· == 0)).length ≤ kept) :
    Rounds (ofDigits (whole ++ fraction) * 10 ^ (exponent - fraction.length))
      (Significant.of whole fraction exponent).bits := by
  rw [← number_of]
  have hdrop : ∀ digits : List Nat, (∀ d ∈ digits, d < 10) →
      ∀ d ∈ digits.dropWhile (· == 0), d < 10 :=
    fun digits hdigits d hd ↦ hdigits d ((List.dropWhile_suffix _).mem hd)
  have hzeros := hdrop whole hwhole
  refine rounds_bits ?_ ?_ ?_
  · unfold Significant.of
    split
    · exact hdrop fraction hfraction
    · rename_i d rest hcons
      rw [hcons] at hzeros
      exact fun x hx ↦ (List.mem_append.mp hx).elim (hzeros x) (hfraction x)
  · unfold Significant.of
    split
    · exact fun d hd ↦ ne_zero_of_mem_head?_dropWhile hd
    · rename_i d rest hcons
      intro x hx
      have hfirst : x ∈ (whole.dropWhile (· == 0)).head? := by
        rw [hcons]
        exact hx
      exact ne_zero_of_mem_head?_dropWhile hfirst
  · unfold Significant.of
    split
    · exact Nat.zero_le _
    · rename_i d rest hcons
      rwa [hcons] at hlength

end Significant

end Decimal.Nearest

end TokenLang

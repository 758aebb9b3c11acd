import Mathlib.Data.Set.Function
import Mathlib.Tactic
import TokenLang.Generator

/-!
Draws from a range. The bounds are signed and their distance is not, since it may be too wide for a
signed integer; the result is the lower bound and an offset below the distance. Of the source of
draws only what it promises is used (`Draws.Bounded`), which the generator keeps
(`Generator.bounded_draws`). Main statement: `Draws.between_exact`.
-/

set_option autoImplicit false
set_option relaxedAutoImplicit false

namespace TokenLang

namespace Draws

/-! ### Distances -/

/-- The bits of an integer, read without a sign. -/
theorem toNat_toUInt64 (x : Int64) : (x.toUInt64.toNat : Int) = x.toInt % 18446744073709551616 := by
  have hbits : x.toInt = (x.toUInt64.toNat : Int).bmod 18446744073709551616 :=
    BitVec.toInt_eq_toNat_bmod x.toBitVec
  have hlt := UInt64.toNat_lt x.toUInt64
  rw [hbits, Int.bmod_def]
  split_ifs <;> omega

/-- Bits, read with a sign. -/
theorem toInt_toInt64 (bits : UInt64) :
    bits.toInt64.toInt = (bits.toNat : Int).bmod 18446744073709551616 :=
  BitVec.toInt_eq_toNat_bmod bits.toBitVec

variable {lo hi : Int64}

/-- The unsigned difference is the distance. -/
theorem toNat_span (h : lo < hi) : ((span lo hi).toNat : Int) = hi.toInt - lo.toInt := by
  have hlt := Int64.lt_iff_toInt_lt.mp h
  have hlo := toNat_toUInt64 lo
  have hhi := toNat_toUInt64 hi
  have hlow := Int64.le_toInt lo
  have hhigh := Int64.toInt_lt hi
  rw [span, UInt64.toNat_sub]
  omega

/-- What lies below a distance can be added without leaving the range. -/
theorem toInt_above (h : lo < hi) {bits : UInt64} (hbits : bits < span lo hi) :
    (above lo bits).toInt = lo.toInt + bits.toNat := by
  have hspan := toNat_span h
  have hlt := UInt64.lt_iff_toNat_lt.mp hbits
  have hlo := toNat_toUInt64 lo
  have hlow := Int64.le_toInt lo
  have hhigh := Int64.toInt_lt hi
  rw [above, toInt_toInt64, UInt64.toNat_add, Int.bmod_def]
  split_ifs <;> omega

/-- A distance that a signed bound can say is said by it. -/
theorem toInt_span (h : lo < hi) (hnarrow : span lo hi ≤ Int64.maxValue.toUInt64) :
    (span lo hi).toInt64.toInt = hi.toInt - lo.toInt := by
  have hle : (span lo hi).toNat ≤ 9223372036854775807 := UInt64.le_iff_toNat_le.mp hnarrow
  rw [toInt_toInt64, Int.bmod_def, ← toNat_span h]
  split_ifs <;> omega

/-- Nor is the range left by a signed addition. -/
theorem toInt_add_offset (h : lo < hi) (hnarrow : span lo hi ≤ Int64.maxValue.toUInt64)
    {offset : Int64} (hoffset : 0 ≤ offset ∧ offset < (span lo hi).toInt64) :
    (lo + offset).toInt = lo.toInt + offset.toInt := by
  have hnonneg : 0 ≤ offset.toInt := Int64.le_iff_toInt_le.mp hoffset.1
  have hlt := Int64.lt_iff_toInt_lt.mp hoffset.2
  have hspan := toInt_span h hnarrow
  have hlow := Int64.le_toInt lo
  have hhigh := Int64.toInt_lt hi
  rw [Int64.toInt_add, Int.bmod_def]
  split_ifs <;> omega

/-! ### Offsets and integers -/

/-- An addition that never leaves the range takes the offsets below the distance to the integers
from `lo` to just below `hi`, each to one of its own. -/
theorem bijOn_of_toInt {α : Type} {offsets : Set α} (size : α → Int) {add : α → Int64}
    (hsize : Set.BijOn size offsets {n | 0 ≤ n ∧ n < hi.toInt - lo.toInt})
    (hadd : ∀ a ∈ offsets, (add a).toInt = lo.toInt + size a) :
    Set.BijOn add offsets {v | lo ≤ v ∧ v < hi} := by
  refine ⟨fun a ha ↦ ?_, fun a ha b hb heq ↦ ?_, fun v hv ↦ ?_⟩
  · obtain ⟨hnonneg, hlt⟩ := hsize.mapsTo ha
    have hv := hadd a ha
    exact ⟨Int64.le_iff_toInt_le.mpr (by omega), Int64.lt_iff_toInt_lt.mpr (by omega)⟩
  · have ha' := hadd a ha
    have hb' := hadd b hb
    rw [heq] at ha'
    exact hsize.injOn ha hb (by omega)
  · have hle := Int64.le_iff_toInt_le.mp hv.1
    have hlt := Int64.lt_iff_toInt_lt.mp hv.2
    obtain ⟨a, ha, hsizeof⟩ := hsize.surjOn
      (show v.toInt - lo.toInt ∈ {n | 0 ≤ n ∧ n < hi.toInt - lo.toInt} from ⟨by omega, by omega⟩)
    refine ⟨a, ha, Int64.toInt_inj.mp ?_⟩
    have hv' := hadd a ha
    omega

theorem bijOn_above (h : lo < hi) :
    Set.BijOn (above lo) {bits | bits < span lo hi} {v | lo ≤ v ∧ v < hi} := by
  refine bijOn_of_toInt (fun bits ↦ (bits.toNat : Int)) ?_ fun bits ↦ toInt_above h
  have hspan := toNat_span h
  refine ⟨fun bits hbits ↦ ?_, fun a _ b _ heq ↦ ?_, fun n hn ↦ ?_⟩
  · have hlt := UInt64.lt_iff_toNat_lt.mp hbits
    show 0 ≤ (bits.toNat : Int) ∧ (bits.toNat : Int) < _
    omega
  · exact UInt64.toNat_inj.mp (Int.ofNat.inj heq)
  · obtain ⟨hnonneg, hlt⟩ := hn
    have hwide := UInt64.toNat_lt (span lo hi)
    have hbits : (UInt64.ofNat n.toNat).toNat = n.toNat :=
      UInt64.toNat_ofNat_of_lt' (show n.toNat < 18446744073709551616 by omega)
    refine ⟨UInt64.ofNat n.toNat, UInt64.lt_iff_toNat_lt.mpr (by omega), ?_⟩
    show ((UInt64.ofNat n.toNat).toNat : Int) = n
    omega

theorem bijOn_add (h : lo < hi) (hnarrow : span lo hi ≤ Int64.maxValue.toUInt64) :
    Set.BijOn (lo + ·) {offset | 0 ≤ offset ∧ offset < (span lo hi).toInt64}
      {v | lo ≤ v ∧ v < hi} := by
  refine bijOn_of_toInt Int64.toInt ?_ fun offset ↦ toInt_add_offset h hnarrow
  have hspan := toInt_span h hnarrow
  refine ⟨fun offset hoffset ↦ ?_, fun a _ b _ heq ↦ Int64.toInt_inj.mp heq, fun n hn ↦ ?_⟩
  · have hlt := Int64.lt_iff_toInt_lt.mp hoffset.2
    exact ⟨Int64.le_iff_toInt_le.mp hoffset.1, by omega⟩
  · obtain ⟨hnonneg, hlt⟩ := hn
    have hhigh := Int64.toInt_lt (span lo hi).toInt64
    have hoffset : (Int64.ofInt n).toInt = n :=
      Int64.toInt_ofInt_of_le (by omega) (by omega)
    refine ⟨Int64.ofInt n, ⟨Int64.le_iff_toInt_le.mpr ?_, Int64.lt_iff_toInt_lt.mpr ?_⟩, hoffset⟩
    · rwa [hoffset]
    · omega

/-! ### Draws -/

variable {σ : Type} {d : Draws σ}

/-- What is relied on: a draw below a positive bound is at least zero and below the bound. Of the
bits of a draw nothing is said. -/
def Bounded (d : Draws σ) : Prop :=
  ∀ bound g, 0 < bound → 0 ≤ (d.below bound g).1 ∧ (d.below bound g).1 < bound

/-- A draw that is not rejected is one that was made, and below the bound. -/
theorem lt_of_reject {bound bits : UInt64} {fuel : Nat} {g g' : σ}
    (h : d.reject bound fuel g = some (bits, g')) :
    bits < bound ∧ ∃ g₀, d.bits g₀ = (bits, g') := by
  induction fuel generalizing g with
  | zero => cases h
  | succ fuel ih =>
    rw [reject] at h
    rcases hdrawn : d.bits g with ⟨drawn, next⟩
    rw [hdrawn] at h
    dsimp only at h
    split_ifs at h with hlt
    · cases h
      exact ⟨hlt, g, hdrawn⟩
    · exact ih h

section Narrow

variable (hnarrow : span lo hi ≤ Int64.maxValue.toUInt64)
include hnarrow

theorem toInt64_span_pos (h : lo < hi) : 0 < (span lo hi).toInt64 := by
  have hlt := Int64.lt_iff_toInt_lt.mp h
  have hspan := toInt_span h hnarrow
  exact Int64.lt_iff_toInt_lt.mpr (show 0 < (span lo hi).toInt64.toInt by omega)

/-- Where the distance can be a signed bound, one draw below it decides. -/
theorem between_eq_add (hd : d.Bounded) (h : lo < hi) (fuel : Nat) (g : σ) :
    ∃ offset g', (0 ≤ offset ∧ offset < (span lo hi).toInt64) ∧
      d.below (span lo hi).toInt64 g = (offset, g') ∧
      d.between fuel lo hi g = some (lo + offset, g') := by
  refine ⟨_, _, hd _ g (toInt64_span_pos hnarrow h), rfl, ?_⟩
  rw [between]
  dsimp only
  rw [if_pos hnarrow]

end Narrow

section Wide

variable (hwide : Int64.maxValue.toUInt64 < span lo hi)
include hwide

theorem between_eq_map_reject (fuel : Nat) (g : σ) : d.between fuel lo hi g =
    (d.reject (span lo hi) fuel g).map fun answer ↦ (above lo answer.1, answer.2) := by
  rw [between]
  dsimp only
  rw [if_neg (UInt64.not_le.mpr hwide)]

/-- Otherwise bits below the distance decide as soon as they are drawn, -/
theorem between_of_lt (fuel : Nat) {g : σ} (hbits : (d.bits g).1 < span lo hi) :
    d.between (fuel + 1) lo hi g = some (above lo (d.bits g).1, (d.bits g).2) := by
  rw [between_eq_map_reject hwide, reject]
  dsimp only
  rw [if_pos hbits, Option.map_some]

/-- and nothing else does. -/
theorem exists_of_between {fuel : Nat} {g g' : σ} {v : Int64}
    (hv : d.between fuel lo hi g = some (v, g')) :
    ∃ bits < span lo hi, (∃ g₀, d.bits g₀ = (bits, g')) ∧ v = above lo bits := by
  rw [between_eq_map_reject hwide] at hv
  obtain ⟨⟨bits, g''⟩, hreject, heq⟩ := Option.map_eq_some_iff.mp hv
  cases heq
  obtain ⟨hlt, hdrawn⟩ := lt_of_reject hreject
  exact ⟨bits, hlt, hdrawn, rfl⟩

end Wide

end Draws

/-- The generator is a source of this kind. -/
theorem Generator.bounded_draws : draws.Bounded := by
  intro bound g hbound
  have hpos : 0 < bound.toInt := Int64.lt_iff_toInt_lt.mp hbound
  have hbits := Draws.toNat_toUInt64 bound
  have hhigh := Int64.toInt_lt bound
  have hbelow : (draws.below bound g).1 = (g.next.1 % bound.toUInt64).toInt64 := rfl
  have hmod : (g.next.1 % bound.toUInt64).toNat < bound.toUInt64.toNat := by
    rw [UInt64.toNat_mod]
    exact Nat.mod_lt _ (by omega)
  have hsize : (draws.below bound g).1.toInt = (g.next.1 % bound.toUInt64).toNat := by
    rw [hbelow, Draws.toInt_toInt64, Int.bmod_def]
    split_ifs <;> omega
  exact ⟨Int64.le_iff_toInt_le.mpr (show 0 ≤ (draws.below bound g).1.toInt by omega),
    Int64.lt_iff_toInt_lt.mpr (by omega)⟩

namespace Draws

variable {σ : Type} {d : Draws σ} {lo hi : Int64}

/-- A draw from a range stays in the range, whatever the source. The unsigned difference of the
bounds is their distance. If that can be a signed bound, it is a positive one, the draw below it is
added to `lo` without leaving the signed range, and each integer of the range is the sum for one
draw and no other. If it is wider, the same holds of the unsigned sum for bits below the distance;
such bits decide as soon as they are drawn, and nothing else is given out. -/
theorem between_exact (hd : d.Bounded) (h : lo < hi) :
    ((span lo hi).toNat : Int) = hi.toInt - lo.toInt ∧
    (span lo hi ≤ Int64.maxValue.toUInt64 →
      0 < (span lo hi).toInt64 ∧
      (∀ offset, 0 ≤ offset ∧ offset < (span lo hi).toInt64 →
        (lo + offset).toInt = lo.toInt + offset.toInt) ∧
      Set.BijOn (lo + ·) {offset | 0 ≤ offset ∧ offset < (span lo hi).toInt64}
        {v | lo ≤ v ∧ v < hi} ∧
      ∀ fuel g, ∃ offset g', (0 ≤ offset ∧ offset < (span lo hi).toInt64) ∧
        d.below (span lo hi).toInt64 g = (offset, g') ∧
        d.between fuel lo hi g = some (lo + offset, g')) ∧
    (Int64.maxValue.toUInt64 < span lo hi →
      (∀ bits < span lo hi, (above lo bits).toInt = lo.toInt + bits.toNat) ∧
      Set.BijOn (above lo) {bits | bits < span lo hi} {v | lo ≤ v ∧ v < hi} ∧
      (∀ fuel g, (d.bits g).1 < span lo hi →
        d.between (fuel + 1) lo hi g = some (above lo (d.bits g).1, (d.bits g).2)) ∧
      ∀ fuel g v g', d.between fuel lo hi g = some (v, g') →
        ∃ bits < span lo hi, (∃ g₀, d.bits g₀ = (bits, g')) ∧ v = above lo bits) ∧
    ∀ fuel g v g', d.between fuel lo hi g = some (v, g') → lo ≤ v ∧ v < hi := by
  refine ⟨toNat_span h, fun hnarrow ↦ ⟨toInt64_span_pos hnarrow h,
    fun offset ↦ toInt_add_offset h hnarrow, bijOn_add h hnarrow, between_eq_add hnarrow hd h⟩,
    fun hwide ↦ ⟨fun bits ↦ toInt_above h, bijOn_above h,
      fun fuel g ↦ between_of_lt hwide fuel, fun fuel g v g' ↦ exists_of_between hwide⟩,
    fun fuel g v g' hv ↦ ?_⟩
  rcases UInt64.le_or_lt (span lo hi) Int64.maxValue.toUInt64 with hnarrow | hwide
  · obtain ⟨offset, g'', hoffset, -, heq⟩ := between_eq_add hnarrow hd h fuel g
    cases hv.symm.trans heq
    exact (bijOn_add h hnarrow).mapsTo hoffset
  · obtain ⟨bits, hbits, -, rfl⟩ := exists_of_between hwide hv
    exact (bijOn_above h).mapsTo hbits

/-- The widest range: its width is no signed integer, so bits are drawn, and those of the first draw
from this seed already decide. -/
theorem between_exact_widest :
    Generator.draws.Bounded ∧ Int64.minValue < Int64.maxValue ∧
      Int64.maxValue.toUInt64 < span Int64.minValue Int64.maxValue ∧
      ∃ v g, Generator.draws.between 1 Int64.minValue Int64.maxValue (.ofSeed 1) = some (v, g) ∧
        Int64.minValue ≤ v ∧ v < Int64.maxValue := by
  have h : Int64.minValue < Int64.maxValue := by decide
  have hwide : Int64.maxValue.toUInt64 < span Int64.minValue Int64.maxValue := by decide
  obtain ⟨-, -, hunsigned, hmem⟩ := between_exact Generator.bounded_draws h
  have hv := (hunsigned hwide).2.2.1 0 (.ofSeed 1) (by decide)
  exact ⟨Generator.bounded_draws, h, hwide, _, _, hv, hmem _ _ _ _ hv⟩

end Draws

end TokenLang

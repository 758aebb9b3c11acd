import Mathlib.Algebra.BigOperators.Intervals
import Mathlib.Tactic
import TokenLang.StackMap.Fenwick

/-!
A tree of partial counts answers for the counts it was built from. An entry `t` covers the
places from `t - lowBit t` to just below `t`, and `Counts` says that it holds their sum. Adding
to the count of a place walks exactly the entries that cover it, because no entry strictly
between `t` and `t + lowBit t` reaches back below `t` (`le_sub_lowBit`), so the tree counts the
changed counts (`Counts.add`). Descending by halves, from a size that is a power of two, ends at
the first place where the running sum of counts that are not negative reaches its bound
(`Counts.select_spec`).
-/

set_option autoImplicit false
set_option relaxedAutoImplicit false

namespace TokenLang.Fenwick

/-! ### The lowest set bit -/

theorem lowBit_double_succ (n : Nat) : lowBit (2 * n + 1) = 1 := by
  have hland : (2 * n + 1) &&& (2 * n) = 2 * n := by
    refine Nat.eq_of_testBit_eq fun i ↦ ?_
    cases i with
    | zero => simp
    | succ i =>
      have hhalf : (2 * n + 1) / 2 = n := by omega
      rw [Nat.testBit_and]
      simp only [Nat.testBit_succ, hhalf, Nat.mul_div_cancel_left n two_pos, Bool.and_self]
  rw [lowBit, Nat.add_sub_cancel, hland]
  omega

theorem lowBit_double (n : Nat) : lowBit (2 * n) = 2 * lowBit n := by
  rcases Nat.eq_zero_or_pos n with rfl | hn
  · rfl
  have hland : (2 * n) &&& (2 * n - 1) = 2 * (n &&& (n - 1)) := by
    refine Nat.eq_of_testBit_eq fun i ↦ ?_
    cases i with
    | zero => simp
    | succ i =>
      have hhalf : (2 * n - 1) / 2 = n - 1 := by omega
      rw [Nat.testBit_and]
      simp only [Nat.testBit_succ, hhalf, Nat.mul_div_cancel_left _ two_pos, Nat.testBit_and]
  rw [lowBit, lowBit, hland, Nat.mul_sub]

theorem lowBit_pos {n : Nat} (hn : 0 < n) : 0 < lowBit n := by
  induction n using Nat.strong_induction_on with
  | _ n ih =>
    obtain ⟨m, rfl | rfl⟩ := Nat.even_or_odd' n
    · rw [lowBit_double]
      have := ih m (by omega) (by omega)
      omega
    · rw [lowBit_double_succ]
      exact Nat.one_pos

theorem lowBit_le (n : Nat) : lowBit n ≤ n := Nat.sub_le _ _

/-- The entries strictly between `t` and `t + lowBit t` cover no place below `t`. -/
theorem le_sub_lowBit {t u : Nat} (hlow : t < u) (hhigh : u < t + lowBit t) :
    t ≤ u - lowBit u := by
  induction t using Nat.strong_induction_on generalizing u with
  | _ t ih =>
    obtain ⟨a, rfl | rfl⟩ := Nat.even_or_odd' t
    · rw [lowBit_double] at hhigh
      obtain ⟨v, rfl | rfl⟩ := Nat.even_or_odd' u
      · have hpos : 0 < a := by
          rcases Nat.eq_zero_or_pos a with rfl | ha
          · simp [lowBit] at hhigh
          · exact ha
        have := ih a (by omega) (u := v) (by omega) (by omega)
        rw [lowBit_double]
        omega
      · rw [lowBit_double_succ]
        omega
    · rw [lowBit_double_succ] at hhigh
      omega

/-- The entry `t + lowBit t` reaches back at least as far as `t` does. -/
theorem sub_lowBit_next_le {t : Nat} (ht : 0 < t) :
    t + lowBit t - lowBit (t + lowBit t) ≤ t - lowBit t := by
  induction t using Nat.strong_induction_on with
  | _ t ih =>
    obtain ⟨a, rfl | rfl⟩ := Nat.even_or_odd' t
    · have := ih a (by omega) (by omega)
      rw [lowBit_double, ← Nat.mul_add, lowBit_double]
      omega
    · have hnext : 2 * a + 1 + 1 = 2 * (a + 1) := by ring
      have := lowBit_pos (n := a + 1) (by omega)
      rw [lowBit_double_succ, hnext, lowBit_double]
      omega

theorem lowBit_add_two_pow (level q : Nat) :
    lowBit (2 ^ (level + 1) * q + 2 ^ level) = 2 ^ level := by
  induction level with
  | zero => simpa using lowBit_double_succ q
  | succ level ih =>
    have hsplit : 2 ^ (level + 1 + 1) * q + 2 ^ (level + 1) =
        2 * (2 ^ (level + 1) * q + 2 ^ level) := by ring
    rw [hsplit, lowBit_double, ih, pow_succ, Nat.mul_comm]

/-! ### What the entries hold -/

/-- The entry `t` covers the place `i`. -/
def Covers (t i : Nat) : Prop := t - lowBit t ≤ i ∧ i < t

theorem covers_succ (i : Nat) : Covers (i + 1) i := by
  have := lowBit_pos (n := i + 1) (by omega)
  exact ⟨by omega, by omega⟩

theorem Covers.next {t i : Nat} (h : Covers t i) : Covers (t + lowBit t) i := by
  have hpos : 0 < t := by have := h.2; omega
  have := sub_lowBit_next_le hpos
  exact ⟨this.trans h.1, by have := h.2; omega⟩

/-- After `t`, the next entry that covers a place which `t` covers is `t + lowBit t`. -/
theorem Covers.le_iff {t u i : Nat} (h : Covers t i) (hu : Covers u i) :
    t ≤ u ↔ t = u ∨ t + lowBit t ≤ u := by
  constructor
  · intro hle
    rcases Nat.eq_or_lt_of_le hle with heq | hlt
    · exact Or.inl heq
    · refine Or.inr (Nat.le_of_not_lt fun hbetween ↦ ?_)
      have := le_sub_lowBit hlt hbetween
      have := h.2
      have := hu.1
      omega
  · rintro (rfl | hle) <;> omega

instance (t i : Nat) : Decidable (Covers t i) := inferInstanceAs (Decidable (_ ∧ _))

/-- The sum of the counts of the first `n` places. -/
def running (c : Nat → Int) (n : Nat) : Int := ∑ j ∈ Finset.range n, c j

@[simp] theorem running_zero (c : Nat → Int) : running c 0 = 0 := by simp [running]

theorem running_succ (c : Nat → Int) (n : Nat) : running c (n + 1) = running c n + c n :=
  Finset.sum_range_succ c n

theorem running_mono {c : Nat → Int} (hc : ∀ i, 0 ≤ c i) {m n : Nat} (hle : m ≤ n) :
    running c m ≤ running c n := by
  induction n, hle using Nat.le_induction with
  | base => exact le_refl _
  | succ n _ ih =>
    have := hc n
    rw [running_succ]
    omega

theorem running_update (c : Nat → Int) (i : Nat) (delta : Int) (n : Nat) :
    running (Function.update c i (c i + delta)) n =
      running c n + if i < n then delta else 0 := by
  induction n with
  | zero => simp
  | succ n ih =>
    rw [running_succ, running_succ, ih]
    by_cases hn : n = i
    · subst hn
      simp
      ring
    · rw [Function.update_of_ne hn]
      split_ifs <;> omega

/-- Every entry of the tree holds the sum of the counts of the places it covers. -/
def Counts (f : Fenwick) (c : Nat → Int) : Prop :=
  ∀ t, 0 < t → t < f.tree.size → f.tree[t]? = some (running c t - running c (t - lowBit t))

theorem counts_new (size : Nat) : Counts (new size) fun _ ↦ 0 := by
  intro t _ ht
  have hsize : t < size + 1 := by simpa [new] using ht
  simp [new, running, hsize]

@[simp] theorem size_new (n : Nat) : (new n).size = n := by simp [new, size]

/-! ### Adding -/

theorem size_addFrom (delta : Int) (fuel : Nat) (tree : Array Int) (t : Nat) :
    (addFrom delta fuel tree t).size = tree.size := by
  induction fuel generalizing tree t with
  | zero => rfl
  | succ fuel ih =>
    rw [addFrom]
    split_ifs
    · rw [ih, Array.size_modify]
    · rfl

@[simp] theorem size_add (f : Fenwick) (i : Nat) (delta : Int) : (f.add i delta).size = f.size := by
  simp [size, add, size_addFrom]

/-- The walk from an entry that covers a place adds to that entry and to every later one that
covers the place, and to no other. Assumes: enough steps to leave the tree. -/
theorem getElem?_addFrom {delta : Int} {i : Nat} (fuel : Nat) (tree : Array Int) (t : Nat)
    (ht : Covers t i) (hfuel : tree.size ≤ t + fuel) (u : Nat) :
    (addFrom delta fuel tree t)[u]? =
      tree[u]?.map (· + if t ≤ u ∧ Covers u i then delta else 0) := by
  induction fuel generalizing tree t with
  | zero =>
    rw [addFrom]
    by_cases hu : u < tree.size
    · have hle : ¬ t ≤ u := by omega
      simp [hle]
    · simp [Array.getElem?_eq_none (Nat.le_of_not_lt hu)]
  | succ fuel ih =>
    rw [addFrom]
    by_cases hbound : t < tree.size
    · have hpos := lowBit_pos (n := t) (by have := ht.2; omega)
      rw [if_pos hbound, ih _ _ ht.next (by rw [Array.size_modify]; omega), Array.getElem?_modify]
      by_cases htu : t = u
      · subst htu
        have hnot : ¬ t + lowBit t ≤ t := by omega
        simp [hnot, ht, Function.comp_def]
      · rw [if_neg htu]
        by_cases hu : Covers u i
        · simp only [hu, and_true, ht.le_iff hu, htu, false_or]
        · simp [hu]
    · rw [if_neg hbound]
      by_cases hu : u < tree.size
      · have hle : ¬ t ≤ u := by omega
        simp [hle]
      · simp [Array.getElem?_eq_none (Nat.le_of_not_lt hu)]

/-- Adding to one entry keeps every node in step with the range it covers: the nodes on the way up
from the entry are those that cover it. -/
theorem Counts.add {f : Fenwick} {c : Nat → Int} (h : Counts f c) (i : Nat) (delta : Int) :
    Counts (f.add i delta) (Function.update c i (c i + delta)) := by
  intro t ht hsize
  have htree : (f.add i delta).tree = addFrom delta f.tree.size f.tree (i + 1) := rfl
  rw [htree, size_addFrom] at hsize
  rw [htree, getElem?_addFrom _ _ _ (covers_succ i) (by omega), h t ht hsize, Option.map_some,
    running_update, running_update]
  have hlow := lowBit_pos ht
  have hle := lowBit_le t
  by_cases hcover : Covers t i
  · have hfirst : i + 1 ≤ t := hcover.2
    have hbefore : ¬ i < t - lowBit t := Nat.not_lt.mpr hcover.1
    rw [if_pos ⟨hfirst, hcover⟩, if_pos hcover.2, if_neg hbefore]
    congr 1
    ring
  · rw [if_neg fun hboth ↦ hcover hboth.2]
    by_cases hit : i < t
    · have hbefore : i < t - lowBit t := Nat.lt_of_not_le fun hback ↦ hcover ⟨hback, hit⟩
      rw [if_pos hit, if_pos hbefore]
      congr 1
      ring
    · have hbefore : ¬ i < t - lowBit t := by omega
      rw [if_neg hit, if_neg hbefore]
      simp

/-- The tree of the first `n` places counts one for each of these and nothing after them. -/
theorem counts_ones (size n : Nat) : Counts (ones size n) fun i ↦ if i < n then 1 else 0 := by
  induction n with
  | zero => simpa [ones] using counts_new size
  | succ n ih =>
    rw [ones, List.range_succ, List.foldl_append, List.foldl_cons, List.foldl_nil]
    have hadd := ih.add n 1
    have hupdate : (fun i ↦ if i < n + 1 then (1 : Int) else 0) =
        Function.update (fun i ↦ if i < n then (1 : Int) else 0) n
          ((if n < n then 1 else 0) + 1) := by
      funext i
      by_cases hi : i = n
      · subst hi
        simp
      · rw [Function.update_of_ne hi]
        have : i < n + 1 ↔ i < n := by omega
        simp only [this]
    rw [hupdate]
    exact hadd

@[simp] theorem size_ones (size n : Nat) : (ones size n).size = size := by
  induction n with
  | zero => simp [ones]
  | succ n ih =>
    rw [ones, List.range_succ, List.foldl_append, List.foldl_cons, List.foldl_nil, size_add]
    exact ih

/-! ### Finding the place of a running sum -/

/-- The entry that ends a block of the size of its lowest bit holds the sum over the block. -/
theorem Counts.block {f : Fenwick} {c : Nat → Int} (h : Counts f c) {level position : Nat}
    (haligned : 2 ^ (level + 1) ∣ position) (hsize : position + 2 ^ level < f.tree.size) :
    f.tree[position + 2 ^ level]? =
      some (running c (position + 2 ^ level) - running c position) := by
  obtain ⟨q, rfl⟩ := haligned
  have hpos : 0 < 2 ^ level := Nat.two_pow_pos level
  rw [h _ (by omega) hsize, lowBit_add_two_pow, Nat.add_sub_cancel]

/-- Assumes: the position is a multiple of the width of the search, the running sum up to it is
below the bound, and the running sum reaches the bound within the width. The search ends at the
first place where it does. -/
theorem Counts.selectFrom_spec {f : Fenwick} {c : Nat → Int} (h : Counts f c)
    (hc : ∀ i, 0 ≤ c i) (bound : Int) (level position : Nat) (haligned : 2 ^ level ∣ position)
    (hbelow : running c position < bound)
    (hreach : ∃ n, n < f.tree.size ∧ n ≤ position + 2 ^ level ∧ bound ≤ running c n) :
    let place := selectFrom f.tree level position (bound - running c position)
    running c place < bound ∧ bound ≤ running c (place + 1) ∧ place + 1 < f.tree.size := by
  induction level generalizing position with
  | zero =>
    obtain ⟨n, hn, hnle, hbound⟩ := hreach
    have hlt : position < n := by
      by_contra hge
      have := running_mono hc (Nat.le_of_not_lt hge)
      omega
    have hn' : n = position + 1 := by simp at hnle; omega
    subst hn'
    exact ⟨hbelow, hbound, hn⟩
  | succ level ih =>
    have hhalf : 2 ^ (level + 1) = 2 ^ level + 2 ^ level := by ring
    have hweaker : 2 ^ level ∣ position := dvd_trans (pow_dvd_pow 2 (Nat.le_succ level)) haligned
    have hstay : ∀ hnear : ∃ n, n < f.tree.size ∧ n ≤ position + 2 ^ level ∧ bound ≤ running c n,
        let place := selectFrom f.tree level position (bound - running c position)
        running c place < bound ∧ bound ≤ running c (place + 1) ∧ place + 1 < f.tree.size :=
      fun hnear ↦ ih position hweaker hbelow hnear
    simp only [selectFrom, Nat.pow_eq]
    by_cases hsize : position + 2 ^ level < f.tree.size
    · rw [h.block haligned hsize]
      dsimp only
      split_ifs with hsum
      · have hrest : bound - running c position -
            (running c (position + 2 ^ level) - running c position) =
            bound - running c (position + 2 ^ level) := by ring
        rw [hrest]
        refine ih (position + 2 ^ level) (dvd_add hweaker (dvd_refl _)) (by omega) ?_
        obtain ⟨n, hn, hnle, hbound⟩ := hreach
        exact ⟨n, hn, by omega, hbound⟩
      · exact hstay ⟨position + 2 ^ level, hsize, le_refl _, by omega⟩
    · rw [Array.getElem?_eq_none (Nat.le_of_not_lt hsize)]
      obtain ⟨n, hn, _, hbound⟩ := hreach
      exact hstay ⟨n, hn, by omega, hbound⟩

/-- In a tree over a power of two many places, whose counts are not negative, the search finds
the first place up to which the counts add up to `k`. Assumes: `k` is positive and not above the
sum of all counts. -/
theorem Counts.select_spec {f : Fenwick} {c : Nat → Int} (h : Counts f c) (hc : ∀ i, 0 ≤ c i)
    {exponent : Nat} (hsize : f.size = 2 ^ exponent) {k : Nat} (hk : 0 < k)
    (htotal : (k : Int) ≤ running c f.size) :
    running c (f.select k) < k ∧ (k : Int) ≤ running c (f.select k + 1) ∧
      f.select k < f.size := by
  have hpos : 0 < f.size := hsize ▸ Nat.two_pow_pos exponent
  have htree : f.tree.size = f.size + 1 := by
    have : f.size = f.tree.size - 1 := rfl
    omega
  have hlog : Nat.log2 f.size = exponent := by rw [hsize, Nat.log2_two_pow]
  have hspec := h.selectFrom_spec hc k (exponent + 1) 0 (dvd_zero _) (by simpa using hk)
    ⟨f.size, by omega, by rw [hsize, pow_succ]; omega, htotal⟩
  simp only [running_zero, sub_zero] at hspec
  rw [select, hlog]
  obtain ⟨hbelow, hreach, hbound⟩ := hspec
  exact ⟨hbelow, hreach, by omega⟩

end TokenLang.Fenwick

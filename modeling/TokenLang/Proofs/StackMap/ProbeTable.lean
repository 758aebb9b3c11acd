import Mathlib.Tactic
import TokenLang.StackMap.Raw

/-!
Linear probing round a table. A bucket is reached from another one by so many steps
(`distance`), and an entry is settled when no empty bucket lies on the way from its home to its
bucket (`Settled`). A walk that stops at the first bucket of a kind passes only buckets that are
not of it (`walk_spec`); both the search for an empty bucket and the search for a key are such
walks. An entry put into the first empty bucket after its home keeps the table settled
(`Settled.insert`). Emptying a bucket moves later entries back into the hole, and `HoleState` is
what holds while the hole travels: every other entry is settled as long as the hole counts as
filled, and the entries between the hole and the bucket under inspection do not need the hole.
When an empty bucket is reached, no entry at all needs it, also past the end of the table
(`vacate_spec`).
-/

set_option autoImplicit false
set_option relaxedAutoImplicit false

universe u

namespace TokenLang.StackMap.Raw

variable {α : Type u}

/-! ### The way round the table -/

/-- How many steps lead from one bucket of a table of `n` buckets to another. -/
def distance (n a b : Nat) : Nat := if a ≤ b then b - a else b + n - a

theorem after_eq {n b : Nat} (hb : b < n) : after n b = if b + 1 = n then 0 else b + 1 := by
  unfold after
  split_ifs with h
  · rw [h, Nat.mod_self]
  · exact Nat.mod_eq_of_lt (by omega)

theorem after_lt {n b : Nat} (hb : b < n) : after n b < n := Nat.mod_lt _ (by omega)

@[simp] theorem distance_self (n a : Nat) : distance n a a = 0 := by simp [distance]

theorem distance_lt {n a b : Nat} (ha : a < n) (hb : b < n) : distance n a b < n := by
  unfold distance
  split_ifs <;> omega

theorem distance_pos {n a b : Nat} (ha : a < n) (hne : a ≠ b) : 0 < distance n a b := by
  unfold distance
  split_ifs <;> omega

/-- One step brings a walk closer to every bucket but the one it leaves. -/
theorem distance_after {n a b : Nat} (ha : a < n) (hb : b < n) (hne : a ≠ b) :
    distance n (after n a) b + 1 = distance n a b := by
  rw [after_eq ha]
  unfold distance
  split_ifs <;> omega

theorem distance_to_after {n a b : Nat} (ha : a < n) (hb : b < n) (hne : after n b ≠ a) :
    distance n a (after n b) = distance n a b + 1 := by
  rw [after_eq hb] at hne ⊢
  unfold distance
  split_ifs at hne ⊢ <;> omega

/-- A bucket is known by its distance. -/
theorem eq_of_distance_eq {n a b c : Nat} (ha : a < n) (hb : b < n) (hc : c < n)
    (h : distance n a b = distance n a c) : b = c := by
  unfold distance at h
  split_ifs at h <;> omega

/-- In a table of more than one bucket a step leads somewhere else. -/
theorem after_ne {n a b : Nat} (ha : a < n) (hb : b < n) (hne : a ≠ b) : after n b ≠ b := by
  rw [after_eq hb]
  split_ifs <;> omega

/-- A step passes no bucket but the one it leaves. -/
theorem eq_of_closer_than_after {n b x : Nat} (hb : b < n) (hnext : after n b ≠ b)
    (hcloser : distance n b x < distance n b (after n b)) : x = b := by
  rw [distance_to_after hb hb hnext, distance_self] at hcloser
  by_contra hne
  have := distance_pos hb (Ne.symm hne)
  omega

/-- Distances add up along the way. -/
theorem distance_lt_of_between {n a b c d : Nat} (ha : a < n) (hb : b < n) (hc : c < n)
    (hd : d < n) (hfirst : distance n a b < distance n a d)
    (hsecond : distance n b c < distance n b d) : distance n a c < distance n a d := by
  unfold distance at *
  split_ifs at * <;> omega

/-- An entry may move back into the hole exactly when the hole lies on the way from its home. -/
theorem mayMove_iff {n hole bucket home : Nat} (hhole : hole < n) (hbucket : bucket < n)
    (hhome : home < n) :
    mayMove hole bucket home = true ↔ distance n home hole < distance n home bucket := by
  unfold mayMove distance
  split_ifs <;> simp <;> omega

/-! ### Entries -/

/-- What stands at a place of an array, if there is something. -/
abbrev held? {β : Type u} (xs : Array (Option β)) (i : Nat) : Option β := (xs[i]?).join

section Entries

variable {β : Type u} {xs : Array (Option β)}

theorem held?_eq_none_of_le {i : Nat} (h : xs.size ≤ i) : held? xs i = none := by
  simp [held?, Array.getElem?_eq_none h]

theorem lt_size_of_held? {i : Nat} {x : β} (h : held? xs i = some x) : i < xs.size := by
  by_contra hge
  rw [held?_eq_none_of_le (Nat.le_of_not_lt hge)] at h
  exact absurd h (by simp)

theorem getElem?_of_held? {i : Nat} {x : β} (h : held? xs i = some x) :
    xs[i]? = some (some x) :=
  Option.join_eq_some_iff.mp h

theorem getElem_eq_held? {i : Nat} (hi : i < xs.size) : xs[i] = held? xs i := by
  simp [held?, Array.getElem?_eq_getElem hi]

theorem held?_set {i : Nat} (hi : i < xs.size) (x : Option β) (j : Nat) :
    held? (xs.setIfInBounds i x) j = if j = i then x else held? xs j := by
  unfold held?
  rw [Array.getElem?_setIfInBounds]
  by_cases hj : j = i
  · subst hj
    simp [hi]
  · rw [if_neg (Ne.symm hj), if_neg hj]

theorem held?_set_ne_none {i j : Nat} (hi : i < xs.size) (x : β) (h : held? xs j ≠ none) :
    held? (xs.setIfInBounds i (some x)) j ≠ none := by
  rw [held?_set hi]
  split_ifs
  · exact Option.some_ne_none x
  · exact h

theorem held?_push (xs : Array (Option β)) (x : Option β) (j : Nat) :
    held? (xs.push x) j = if j = xs.size then x else held? xs j := by
  unfold held?
  rw [Array.getElem?_push]
  split_ifs <;> rfl

theorem held?_modify (xs : Array (Option β)) (i : Nat) (f : β → β) (j : Nat) :
    held? (xs.modify i (Option.map f)) j =
      if j = i then (held? xs j).map f else held? xs j := by
  unfold held?
  rw [Array.getElem?_modify]
  by_cases hj : j = i
  · subst hj
    rw [if_pos rfl, if_pos rfl]
    cases xs[j]? with
    | none => rfl
    | some x => rfl
  · rw [if_neg (Ne.symm hj), if_neg hj]

@[simp] theorem held?_replicate (n i : Nat) :
    held? (Array.replicate n (none : Option β)) i = none := by
  unfold held?
  rw [Array.getElem?_replicate]
  split_ifs <;> rfl

end Entries

/-- How many buckets are not empty. -/
def filledCount (buckets : Array (Option Nat)) : Nat := buckets.countP Option.isSome

@[simp] theorem filledCount_replicate (n : Nat) : filledCount (Array.replicate n none) = 0 := by
  simp [filledCount, Array.countP_replicate]

theorem filledCount_set_vacant {buckets : Array (Option Nat)} {b : Nat} (hb : b < buckets.size)
    (hempty : held? buckets b = none) (i : Nat) :
    filledCount (buckets.setIfInBounds b (some i)) = filledCount buckets + 1 := by
  rw [filledCount, Array.setIfInBounds_def, dif_pos hb, Array.countP_set, getElem_eq_held? hb,
    hempty]
  simp [filledCount]

theorem filledCount_pos {buckets : Array (Option Nat)} {b : Nat} (hb : b < buckets.size)
    (hfilled : held? buckets b ≠ none) : 0 < filledCount buckets :=
  Array.countP_pos_iff.mpr ⟨buckets[b], Array.getElem_mem hb, by
    rw [getElem_eq_held? hb]
    exact Option.isSome_iff_ne_none.mpr hfilled⟩

theorem filledCount_set_filled {buckets : Array (Option Nat)} {b : Nat} (hb : b < buckets.size)
    (hfilled : held? buckets b ≠ none) (i : Nat) :
    filledCount (buckets.setIfInBounds b (some i)) = filledCount buckets := by
  have hpos := filledCount_pos hb hfilled
  obtain ⟨j, hj⟩ := Option.ne_none_iff_exists'.mp hfilled
  rw [filledCount] at hpos
  rw [filledCount, Array.setIfInBounds_def, dif_pos hb, Array.countP_set, getElem_eq_held? hb, hj]
  simp only [Option.isSome_some, if_true, filledCount]
  omega

theorem filledCount_set_none {buckets : Array (Option Nat)} {b : Nat} (hb : b < buckets.size)
    (hfilled : held? buckets b ≠ none) :
    filledCount (buckets.setIfInBounds b none) + 1 = filledCount buckets := by
  have hpos := filledCount_pos hb hfilled
  obtain ⟨j, hj⟩ := Option.ne_none_iff_exists'.mp hfilled
  rw [filledCount] at hpos
  rw [filledCount, Array.setIfInBounds_def, dif_pos hb, Array.countP_set, getElem_eq_held? hb, hj]
  simp only [Option.isSome_some, if_true, Option.isSome_none, Bool.false_eq_true, if_false,
    filledCount]
  omega

/-- A table with fewer entries than buckets has an empty bucket. -/
theorem exists_empty {buckets : Array (Option Nat)} (h : filledCount buckets < buckets.size) :
    ∃ e, e < buckets.size ∧ held? buckets e = none := by
  by_contra hnone
  push Not at hnone
  have hall : ∀ x ∈ buckets, Option.isSome x = true := by
    intro x hx
    obtain ⟨b, hb, rfl⟩ := Array.mem_iff_getElem.mp hx
    rw [getElem_eq_held? hb]
    exact Option.isSome_iff_ne_none.mpr (hnone b hb)
  have := Array.countP_eq_size.mpr hall
  rw [filledCount] at h
  omega

/-- No empty bucket lies on the way from the home of an entry to its bucket. -/
def Settled (home : Nat → Nat) (buckets : Array (Option Nat)) : Prop :=
  ∀ b i, held? buckets b = some i → ∀ x, x < buckets.size →
    distance buckets.size (home i) x < distance buckets.size (home i) b → held? buckets x ≠ none

/-- No slot stands in two buckets. -/
def Unrepeated (buckets : Array (Option Nat)) : Prop :=
  ∀ b c i, held? buckets b = some i → held? buckets c = some i → b = c

/-! ### Walks -/

/-- A walk round the table up to the first bucket of a kind, of at most `fuel` steps. -/
def walk (stop : Nat → Bool) (n : Nat) : Nat → Nat → Nat
  | 0, b => b
  | fuel + 1, b => if stop b then b else walk stop n fuel (after n b)

/-- Assumes: some bucket of the kind lies within the bound on the steps. The walk ends at one,
and none lies on the way to it. -/
theorem walk_spec {stop : Nat → Bool} {n : Nat} (fuel b : Nat) (hb : b < n)
    (hstop : ∃ e, e < n ∧ stop e = true ∧ distance n b e < fuel) :
    walk stop n fuel b < n ∧ stop (walk stop n fuel b) = true ∧
      ∀ x, x < n → distance n b x < distance n b (walk stop n fuel b) → stop x = false := by
  induction fuel generalizing b with
  | zero =>
    obtain ⟨e, _, _, hlt⟩ := hstop
    exact absurd hlt (Nat.not_lt_zero _)
  | succ fuel ih =>
    rw [walk]
    by_cases hhere : stop b = true
    · rw [if_pos hhere]
      refine ⟨hb, hhere, fun x _ hx ↦ ?_⟩
      rw [distance_self] at hx
      exact absurd hx (Nat.not_lt_zero _)
    · rw [if_neg hhere]
      obtain ⟨e, he, hse, hdist⟩ := hstop
      have hne : b ≠ e := fun h ↦ hhere (h ▸ hse)
      have hstep := distance_after hb he hne
      obtain ⟨hlt, hend, hway⟩ := ih (after n b) (after_lt hb) ⟨e, he, hse, by omega⟩
      refine ⟨hlt, hend, fun x hx hcloser ↦ ?_⟩
      by_cases hxb : b = x
      · exact hxb ▸ Bool.eq_false_iff.mpr hhere
      · have hendne : b ≠ walk stop n fuel (after n b) := fun h ↦ hhere (h ▸ hend)
        have hx' := distance_after hb hx hxb
        have hend' := distance_after hb hlt hendne
        exact hway x hx (by omega)

theorem firstEmpty_eq_walk (buckets : Array (Option Nat)) (fuel b : Nat) :
    firstEmpty buckets fuel b =
      walk (fun x ↦ (held? buckets x).isNone) buckets.size fuel b := by
  induction fuel generalizing b with
  | zero => rfl
  | succ fuel ih =>
    rw [firstEmpty, walk]
    cases hentry : (buckets[b]?).join with
    | none => simp [held?, hentry]
    | some i => simp [held?, hentry, ih]

/-- The search for an empty bucket finds the first one. -/
theorem firstEmpty_spec {buckets : Array (Option Nat)} {home : Nat} (hhome : home < buckets.size)
    (hroom : filledCount buckets < buckets.size) :
    let b := firstEmpty buckets buckets.size home
    b < buckets.size ∧ held? buckets b = none ∧ ∀ x, x < buckets.size →
      distance buckets.size home x < distance buckets.size home b → held? buckets x ≠ none := by
  obtain ⟨e, he, hempty⟩ := exists_empty hroom
  have hstop : ∃ e, e < buckets.size ∧ (held? buckets e).isNone = true ∧
      distance buckets.size home e < buckets.size :=
    ⟨e, he, by simp [hempty], distance_lt hhome he⟩
  have hspec := walk_spec buckets.size home hhome hstop
  rw [← firstEmpty_eq_walk] at hspec
  obtain ⟨hlt, hend, hway⟩ := hspec
  refine ⟨hlt, Option.isNone_iff_eq_none.mp hend, fun x hx hcloser hnone ↦ ?_⟩
  have := hway x hx hcloser
  rw [hnone] at this
  exact absurd this (by simp)

/-! ### Filling a bucket -/

/-- Assumes: a bucket with no empty one before it on the way from the home of a slot, and slots
elsewhere that keep their homes. Putting the slot into the bucket keeps the table settled. -/
theorem Settled.insert {home home' : Nat → Nat} {buckets : Array (Option Nat)}
    (h : Settled home buckets) {b i : Nat} (hb : b < buckets.size)
    (hkeep : ∀ c j, c ≠ b → held? buckets c = some j → home' j = home j)
    (hway : ∀ x, x < buckets.size →
      distance buckets.size (home' i) x < distance buckets.size (home' i) b →
        held? buckets x ≠ none) :
    Settled home' (buckets.setIfInBounds b (some i)) := by
  intro c j hc x hx hcloser
  rw [Array.size_setIfInBounds] at hx hcloser
  refine held?_set_ne_none hb i ?_
  rw [held?_set hb] at hc
  split_ifs at hc with hcb
  · obtain rfl := Option.some.inj hc
    exact hway x hx (hcb ▸ hcloser)
  · rw [hkeep c j hcb hc] at hcloser
    exact h c j hc x hx hcloser

theorem Unrepeated.insert {buckets : Array (Option Nat)} (h : Unrepeated buckets) {b i : Nat}
    (hb : b < buckets.size) (hnew : ∀ c, c ≠ b → held? buckets c ≠ some i) :
    Unrepeated (buckets.setIfInBounds b (some i)) := by
  intro c d j hc hd
  rw [held?_set hb] at hc hd
  split_ifs at hc hd with hcb hdb hdb
  · rw [hcb, hdb]
  · obtain rfl := Option.some.inj hc
    exact absurd hd (hnew d hdb)
  · obtain rfl := Option.some.inj hd
    exact absurd hc (hnew c hcb)
  · exact h c d j hc hd

/-! ### Emptying a bucket -/

/-- What holds while a hole travels through a probe run: `bucket` is inspected next. The hole
still points at a slot, which no longer counts. -/
structure HoleState (home : Nat → Nat) (buckets : Array (Option Nat)) (hole bucket : Nat) :
    Prop where
  hole_lt : hole < buckets.size
  bucket_lt : bucket < buckets.size
  ne : bucket ≠ hole
  hole_filled : held? buckets hole ≠ none
  filled : ∀ x, x < buckets.size →
    distance buckets.size hole x < distance buckets.size hole bucket → held? buckets x ≠ none
  settled : ∀ b i, b ≠ hole → held? buckets b = some i → ∀ x, x < buckets.size →
    distance buckets.size (home i) x < distance buckets.size (home i) b → held? buckets x ≠ none
  apart : ∀ b i, b ≠ hole → held? buckets b = some i →
    distance buckets.size hole b < distance buckets.size hole bucket →
      ¬ distance buckets.size (home i) hole < distance buckets.size (home i) b
  unrepeated : ∀ b c i, b ≠ hole → c ≠ hole → held? buckets b = some i →
    held? buckets c = some i → b = c

/-- The table after a hole has been closed: all entries but the one in the hole. -/
structure Closed (home : Nat → Nat) (buckets : Array (Option Nat)) (hole : Nat)
    (closed : Array (Option Nat)) : Prop where
  size_eq : closed.size = buckets.size
  settled : Settled home closed
  unrepeated : Unrepeated closed
  entries : ∀ i, (∃ b, held? closed b = some i) ↔ ∃ b, b ≠ hole ∧ held? buckets b = some i
  count : filledCount closed + 1 = filledCount buckets

section Closing

variable {home : Nat → Nat} {buckets : Array (Option Nat)} {hole bucket : Nat}

/-- At an empty bucket no entry needs the hole: one that stood past the bucket would have the
bucket on the way from its home. -/
theorem HoleState.not_needed (h : HoleState home buckets hole bucket)
    (hempty : held? buckets bucket = none) {b i : Nat} (hbh : b ≠ hole)
    (hentry : held? buckets b = some i) (hhome : home i < buckets.size) :
    ¬ distance buckets.size (home i) hole < distance buckets.size (home i) b := by
  have hb := lt_size_of_held? hentry
  by_cases hbetween : distance buckets.size hole b < distance buckets.size hole bucket
  · exact h.apart b i hbh hentry hbetween
  · intro hon
    have hne : distance buckets.size hole bucket ≠ distance buckets.size hole b := by
      intro heq
      obtain rfl := eq_of_distance_eq h.hole_lt h.bucket_lt hb heq
      exact absurd (hempty.symm.trans hentry) (by simp)
    have hpast := lt_of_le_of_ne (Nat.le_of_not_lt hbetween) hne
    exact h.settled b i hbh hentry bucket h.bucket_lt
      (distance_lt_of_between hhome h.hole_lt h.bucket_lt hb hon hpast) hempty

/-- At an empty bucket the hole can be emptied. -/
theorem HoleState.finish (h : HoleState home buckets hole bucket)
    (hhome : ∀ b i, held? buckets b = some i → home i < buckets.size)
    (hempty : held? buckets bucket = none) :
    Closed home buckets hole (buckets.setIfInBounds hole none) := by
  have hset := held?_set h.hole_lt none
  have hold : ∀ b i, held? (buckets.setIfInBounds hole none) b = some i →
      b ≠ hole ∧ held? buckets b = some i := by
    intro b i hb
    rw [hset] at hb
    split_ifs at hb with hbh
    exact ⟨hbh, hb⟩
  constructor
  case size_eq => exact Array.size_setIfInBounds
  case settled =>
    intro b i hb x hx hcloser
    rw [Array.size_setIfInBounds] at hx hcloser
    obtain ⟨hbh, hbi⟩ := hold b i hb
    have hxh : x ≠ hole := by
      rintro rfl
      exact h.not_needed hempty hbh hbi (hhome b i hbi) hcloser
    rw [hset, if_neg hxh]
    exact h.settled b i hbh hbi x hx hcloser
  case unrepeated =>
    intro b c i hb hc
    obtain ⟨hbh, hbi⟩ := hold b i hb
    obtain ⟨hch, hci⟩ := hold c i hc
    exact h.unrepeated b c i hbh hch hbi hci
  case entries =>
    intro i
    constructor
    · rintro ⟨b, hb⟩
      exact ⟨b, hold b i hb⟩
    · rintro ⟨b, hbh, hb⟩
      exact ⟨b, by rw [hset, if_neg hbh, hb]⟩
  case count => exact filledCount_set_none h.hole_lt h.hole_filled

/-- The bucket under inspection never comes round to the hole. -/
theorem HoleState.next_ne (h : HoleState home buckets hole bucket) {e : Nat}
    (he : e < buckets.size) (hempty : held? buckets e = none)
    (hfilled : held? buckets bucket ≠ none) : after buckets.size bucket ≠ hole := by
  intro hround
  have heh : e ≠ hole := fun heq ↦ h.hole_filled (heq ▸ hempty)
  have heb : e ≠ bucket := fun heq ↦ hfilled (heq ▸ hempty)
  refine h.filled e he ?_ hempty
  have hh := h.hole_lt
  have hb := h.bucket_lt
  rw [after_eq hb] at hround
  unfold distance
  split_ifs at hround ⊢ <;> omega

/-- An entry that does not need the hole stays where it is, and the way from the hole grows by its
bucket. -/
theorem HoleState.keep (h : HoleState home buckets hole bucket) {i e : Nat}
    (he : e < buckets.size) (hempty : held? buckets e = none)
    (hentry : held? buckets bucket = some i)
    (hstay : ¬ distance buckets.size (home i) hole < distance buckets.size (home i) bucket) :
    HoleState home buckets hole (after buckets.size bucket) := by
  have hfilled : held? buckets bucket ≠ none := by rw [hentry]; exact Option.some_ne_none i
  have hnext := h.next_ne he hempty hfilled
  have hway : ∀ x, x < buckets.size →
      distance buckets.size hole x < distance buckets.size hole (after buckets.size bucket) →
        distance buckets.size hole x < distance buckets.size hole bucket ∨ x = bucket := by
    intro x hx hcloser
    rw [distance_to_after h.hole_lt h.bucket_lt hnext] at hcloser
    exact (Nat.lt_or_eq_of_le (Nat.le_of_lt_succ hcloser)).imp_right
      (eq_of_distance_eq h.hole_lt hx h.bucket_lt)
  refine ⟨h.hole_lt, after_lt h.bucket_lt, hnext, h.hole_filled, ?filled, h.settled, ?apart,
    h.unrepeated⟩
  case filled =>
    intro x hx hcloser
    rcases hway x hx hcloser with hlt | rfl
    · exact h.filled x hx hlt
    · exact hfilled
  case apart =>
    intro b j hbh hbj hcloser
    rcases hway b (lt_size_of_held? hbj) hcloser with hlt | rfl
    · exact h.apart b j hbh hbj hlt
    · obtain rfl := Option.some.inj (hentry.symm.trans hbj)
      exact hstay

/-- An entry that needs the hole moves into it and leaves the hole behind. Its way to the hole is a
part of the way it had before. -/
theorem HoleState.move (h : HoleState home buckets hole bucket) {i : Nat}
    (hentry : held? buckets bucket = some i)
    (hmove : distance buckets.size (home i) hole < distance buckets.size (home i) bucket) :
    HoleState home (buckets.setIfInBounds hole (some i)) bucket (after buckets.size bucket) := by
  have hset := held?_set h.hole_lt (some i)
  have hkeep : ∀ x, held? buckets x ≠ none →
      held? (buckets.setIfInBounds hole (some i)) x ≠ none :=
    fun _ hx ↦ held?_set_ne_none h.hole_lt i hx
  have hfilled : held? buckets bucket ≠ none := by rw [hentry]; exact Option.some_ne_none i
  have hnext := after_ne h.hole_lt h.bucket_lt h.ne.symm
  constructor
  case hole_lt =>
    rw [Array.size_setIfInBounds]
    exact h.bucket_lt
  case bucket_lt =>
    rw [Array.size_setIfInBounds]
    exact after_lt h.bucket_lt
  case ne => exact hnext
  case hole_filled => exact hkeep bucket hfilled
  case filled =>
    intro x hx hcloser
    rw [Array.size_setIfInBounds] at hcloser
    exact hkeep x (eq_of_closer_than_after h.bucket_lt hnext hcloser ▸ hfilled)
  case settled =>
    intro b j hbb hbj x hx hcloser
    rw [Array.size_setIfInBounds] at hx hcloser
    refine hkeep x ?_
    rw [hset] at hbj
    split_ifs at hbj with hbh
    · obtain rfl := Option.some.inj hbj
      exact h.settled bucket i h.ne hentry x hx (lt_trans (hbh ▸ hcloser) hmove)
    · exact h.settled b j hbh hbj x hx hcloser
  case apart =>
    intro b j hbb hbj hcloser
    rw [Array.size_setIfInBounds] at hcloser
    exact absurd (eq_of_closer_than_after h.bucket_lt hnext hcloser) hbb
  case unrepeated =>
    intro b c j hbb hcb hbj hcj
    rw [hset] at hbj hcj
    split_ifs at hbj hcj with hbh hch hch
    · rw [hbh, hch]
    · obtain rfl := Option.some.inj hbj
      exact absurd (h.unrepeated c bucket i hch h.ne hcj hentry) hcb
    · obtain rfl := Option.some.inj hcj
      exact absurd (h.unrepeated b bucket i hbh h.ne hbj hentry) hbb
    · exact h.unrepeated b c j hbh hch hbj hcj

/-- Closing the hole that a move leaves behind closes the hole that was there before. -/
theorem Closed.of_move {closed : Array (Option Nat)} {i : Nat}
    (hclosed : Closed home (buckets.setIfInBounds hole (some i)) bucket closed)
    (h : HoleState home buckets hole bucket) (hentry : held? buckets bucket = some i) :
    Closed home buckets hole closed := by
  have hset := held?_set h.hole_lt (some i)
  refine ⟨hclosed.size_eq.trans Array.size_setIfInBounds, hclosed.settled, hclosed.unrepeated,
    fun j ↦ (hclosed.entries j).trans ?_,
    hclosed.count.trans (filledCount_set_filled h.hole_lt h.hole_filled i)⟩
  constructor
  · rintro ⟨b, hbb, hb⟩
    rw [hset] at hb
    split_ifs at hb with hbh
    · exact ⟨bucket, h.ne, hentry.trans hb⟩
    · exact ⟨b, hbh, hb⟩
  · rintro ⟨b, hbh, hb⟩
    by_cases hbb : b = bucket
    · subst hbb
      exact ⟨hole, h.ne.symm, by rw [hset, if_pos rfl, ← hentry, hb]⟩
    · exact ⟨b, hbb, by rw [hset, if_neg hbh, hb]⟩

end Closing

/-- Assumes: an empty bucket within the bound on the steps. Closing the hole leaves a settled table
of all other entries. Whether an entry moves or not, the next bucket is closer to the empty one. -/
theorem closeHole_spec (slots : Array (Option (Slot α))) (n fuel : Nat)
    (buckets : Array (Option Nat)) (hole bucket : Nat) (hsize : buckets.size = n)
    (h : HoleState (homeOf slots n) buckets hole bucket)
    (hhome : ∀ b i, held? buckets b = some i → homeOf slots n i < n)
    (hroom : ∃ e, e < n ∧ held? buckets e = none ∧ distance n bucket e < fuel) :
    Closed (homeOf slots n) buckets hole (closeHole slots fuel buckets hole bucket) := by
  induction fuel generalizing buckets hole bucket with
  | zero =>
    obtain ⟨e, _, _, hlt⟩ := hroom
    exact absurd hlt (Nat.not_lt_zero _)
  | succ fuel ih =>
    subst hsize
    obtain ⟨e, he, hempty, hdist⟩ := hroom
    rw [closeHole]
    cases hentry : (buckets[bucket]?).join with
    | none => exact h.finish hhome hentry
    | some i =>
      have hbe : bucket ≠ e := by
        rintro rfl
        exact absurd (hentry.symm.trans hempty) (by simp)
      have hstep := distance_after h.bucket_lt he hbe
      have hmay := mayMove_iff h.hole_lt h.bucket_lt (hhome bucket i hentry)
      by_cases hmove : mayMove hole bucket (homeOf slots buckets.size i) = true
      · have hset := held?_set h.hole_lt (some i)
        have hstate := h.move hentry (hmay.mp hmove)
        have heh : e ≠ hole := fun heq ↦ h.hole_filled (heq ▸ hempty)
        have hclosed := ih (buckets.setIfInBounds hole (some i)) bucket (after buckets.size bucket)
          Array.size_setIfInBounds hstate (fun b j hbj ↦ by
            rw [hset] at hbj
            split_ifs at hbj with hbh
            · obtain rfl := Option.some.inj hbj
              exact hhome bucket i hentry
            · exact hhome b j hbj)
          ⟨e, he, by rw [hset, if_neg heh, hempty], by omega⟩
        simp only [if_pos hmove]
        exact hclosed.of_move h hentry
      · simp only [if_neg hmove]
        exact ih buckets hole (after buckets.size bucket) rfl
          (h.keep he hempty hentry (mt hmay.mpr hmove)) hhome ⟨e, he, hempty, by omega⟩

/-- Emptying a bucket leaves a settled table of all other entries, wherever the probe runs that
pass through the bucket end. -/
theorem vacate_spec (slots : Array (Option (Slot α))) {buckets : Array (Option Nat)} {b i : Nat}
    (hsettled : Settled (homeOf slots buckets.size) buckets) (hunrepeated : Unrepeated buckets)
    (hhome : ∀ c j, held? buckets c = some j → homeOf slots buckets.size j < buckets.size)
    (hroom : filledCount buckets < buckets.size) (hentry : held? buckets b = some i) :
    Closed (homeOf slots buckets.size) buckets b (vacate slots buckets b) := by
  obtain ⟨e, he, hempty⟩ := exists_empty hroom
  have hb := lt_size_of_held? hentry
  have heb : e ≠ b := by
    rintro rfl
    exact absurd (hentry.symm.trans hempty) (by simp)
  have hfilled : held? buckets b ≠ none := by rw [hentry]; exact Option.some_ne_none i
  have hnext := after_ne he hb heb
  have hstate : HoleState (homeOf slots buckets.size) buckets b (after buckets.size b) :=
    { hole_lt := hb
      bucket_lt := after_lt hb
      ne := hnext
      hole_filled := hfilled
      filled := fun x _ hcloser ↦ eq_of_closer_than_after hb hnext hcloser ▸ hfilled
      settled := fun c j _ hc ↦ hsettled c j hc
      apart := fun c j hcb _ hcloser ↦ absurd (eq_of_closer_than_after hb hnext hcloser) hcb
      unrepeated := fun c d j _ _ hc hd ↦ hunrepeated c d j hc hd }
  exact closeHole_spec slots buckets.size buckets.size buckets b _ rfl hstate hhome
    ⟨e, he, hempty, distance_lt (after_lt hb) he⟩

/-! ### Rebuilding the table -/

theorem homeOf_lt (slots : Array (Option (Slot α))) {n : Nat} (hn : 0 < n) (i : Nat) :
    homeOf slots n i < n := by
  unfold homeOf
  split
  · exact Nat.mod_lt _ hn
  · exact hn

theorem homeOf_of_slot? {m : Raw α} {i : Nat} {s : Slot α} (h : m.slot? i = some s) (n : Nat) :
    homeOf m.slots n i = home n s.hash := by
  unfold slot? at h
  simp [homeOf, h]

/-- The slots that the buckets of a table point at, in the order of the buckets. -/
abbrev entries (buckets : Array (Option Nat)) : List Nat := buckets.toList.filterMap id

theorem mem_entries {buckets : Array (Option Nat)} {i : Nat} :
    i ∈ entries buckets ↔ ∃ b, held? buckets b = some i := by
  rw [entries, List.mem_filterMap]
  constructor
  · rintro ⟨x, hx, rfl⟩
    obtain ⟨b, hb⟩ := List.mem_iff_getElem?.mp hx
    exact ⟨b, by simp [held?, ← Array.getElem?_toList, hb]⟩
  · rintro ⟨b, hb⟩
    have hlt := lt_size_of_held? hb
    rw [← getElem_eq_held? hlt] at hb
    exact ⟨some i, hb ▸ Array.getElem_mem_toList hlt, rfl⟩

theorem length_entries (buckets : Array (Option Nat)) :
    (entries buckets).length = filledCount buckets := by
  rw [entries, List.length_filterMap_eq_countP, filledCount, ← Array.countP_toList]
  rfl

theorem Unrepeated.nodup_entries {buckets : Array (Option Nat)} (h : Unrepeated buckets) :
    (entries buckets).Nodup := by
  rw [entries, List.Nodup, List.pairwise_filterMap, List.pairwise_iff_getElem]
  intro b c hb hc hlt i hi j hj hij
  subst hij
  have hbi : held? buckets b = some i := by
    rw [← getElem_eq_held? (by simpa using hb)]
    simpa using hi
  have hci : held? buckets c = some i := by
    rw [← getElem_eq_held? (by simpa using hc)]
    simpa using hj
  have := h b c i hbi hci
  omega

/-- What is known of a table that slots have been placed in. -/
structure Placed (home : Nat → Nat) (buckets : Array (Option Nat)) (placed : List Nat) :
    Prop where
  settled : Settled home buckets
  unrepeated : Unrepeated buckets
  holds : ∀ i, (∃ b, held? buckets b = some i) ↔ i ∈ placed
  count : filledCount buckets = placed.length

theorem placed_replicate (home : Nat → Nat) (n : Nat) :
    Placed home (Array.replicate n none) [] := by
  refine ⟨fun b i hb ↦ ?_, fun b c i hb ↦ ?_, fun i ↦ ?_, by simp⟩
  · exact absurd hb (by simp)
  · exact absurd hb (by simp)
  · simp

/-- One slot more. Assumes: the table has room and does not hold the slot. -/
theorem Placed.place {m : Raw α} {buckets : Array (Option Nat)} {placed : List Nat}
    (h : Placed (homeOf m.slots buckets.size) buckets placed) {i : Nat} (hnew : i ∉ placed)
    (hroom : placed.length < buckets.size) :
    Placed (homeOf m.slots buckets.size) (m.place buckets i) (i :: placed) := by
  obtain ⟨hlt, hempty, hway⟩ := firstEmpty_spec
    (homeOf_lt m.slots (Nat.lt_of_le_of_lt (Nat.zero_le _) hroom) i) (h.count ▸ hroom)
  have hset := held?_set hlt (some i)
  refine ⟨h.settled.insert hlt (fun _ _ _ _ ↦ rfl) hway,
    h.unrepeated.insert hlt fun c _ hc ↦ ?_, fun j ↦ ?_, ?_⟩
  · exact hnew ((h.holds i).mp ⟨c, hc⟩)
  · rw [List.mem_cons, ← h.holds j]
    constructor
    · rintro ⟨b, hb⟩
      rw [Raw.place, hset] at hb
      split_ifs at hb with hbe
      · exact Or.inl (Option.some.inj hb).symm
      · exact Or.inr ⟨b, hb⟩
    · rintro (rfl | ⟨b, hb⟩)
      · exact ⟨_, by rw [Raw.place, hset, if_pos rfl]⟩
      · refine ⟨b, ?_⟩
        rw [Raw.place, hset, if_neg, hb]
        rintro rfl
        rw [hempty] at hb
        exact absurd hb (by simp)
  · rw [Raw.place, filledCount_set_vacant hlt hempty, h.count, List.length_cons]

theorem size_place (m : Raw α) (buckets : Array (Option Nat)) (i : Nat) :
    (m.place buckets i).size = buckets.size := by
  simp [place]

/-- Slots placed one after another. -/
theorem Placed.foldl_place {m : Raw α} (more : List Nat) (buckets : Array (Option Nat))
    (placed : List Nat) (h : Placed (homeOf m.slots buckets.size) buckets placed)
    (hnodup : more.Nodup) (hnew : ∀ i ∈ more, i ∉ placed)
    (hroom : placed.length + more.length ≤ buckets.size) :
    (more.foldl m.place buckets).size = buckets.size ∧
      Placed (homeOf m.slots buckets.size) (more.foldl m.place buckets)
        (more.reverse ++ placed) := by
  induction more generalizing buckets placed with
  | nil => exact ⟨rfl, h⟩
  | cons i more ih =>
    rw [List.length_cons] at hroom
    have hsize := size_place m buckets i
    have hstep := h.place (hnew i (by simp)) (by omega)
    obtain ⟨hi, hnodup⟩ := List.nodup_cons.mp hnodup
    have hrest := ih (m.place buckets i) (i :: placed) (hsize.symm ▸ hstep) hnodup
      (fun j hj hmem ↦ by
        rcases List.mem_cons.mp hmem with rfl | hmem
        · exact hi hj
        · exact hnew j (by simp [hj]) hmem)
      (by rw [hsize, List.length_cons]; omega)
    rw [hsize] at hrest
    rw [List.foldl_cons, List.reverse_cons, List.append_assoc]
    exact hrest

/-- The doubled table holds the same slots, each settled from its new home. -/
theorem enlarge_spec {m : Raw α} (h : Unrepeated m.buckets) :
    m.enlarge.buckets.size = m.buckets.size * 2 ∧
      Settled (homeOf m.slots (m.buckets.size * 2)) m.enlarge.buckets ∧
      Unrepeated m.enlarge.buckets ∧
      (∀ i, (∃ b, held? m.enlarge.buckets b = some i) ↔ ∃ b, held? m.buckets b = some i) ∧
      filledCount m.enlarge.buckets = filledCount m.buckets := by
  have hcount : filledCount m.buckets ≤ m.buckets.size := Array.countP_le_size
  have hlength := length_entries m.buckets
  have hsize : (Array.replicate (m.buckets.size * 2) (none : Option Nat)).size =
      m.buckets.size * 2 := Array.size_replicate
  obtain ⟨hplacedSize, hplaced⟩ := Placed.foldl_place (m := m) (entries m.buckets)
    (Array.replicate (m.buckets.size * 2) none) [] (placed_replicate _ _) h.nodup_entries
    (fun _ _ ↦ by simp) (by rw [hsize, List.length_nil]; omega)
  rw [hsize] at hplacedSize hplaced
  refine ⟨hplacedSize, hplaced.settled, hplaced.unrepeated, fun i ↦ ?_, ?_⟩
  · exact (hplaced.holds i).trans
      (by rw [List.append_nil, List.mem_reverse, @mem_entries m.buckets])
  · rw [← hlength]
    exact hplaced.count.trans (by simp)

/-! ### Searching for a key -/

/-- Whether a slot is there and has the key and hash of a search. -/
def isAt (m : Raw α) (key : String) (hash : UInt64) (i : Nat) : Bool :=
  (m.slot? i).any fun s ↦ s.hash == hash && s.key == key

/-- Whether a search ends at a bucket. -/
def endsSearch (m : Raw α) (key : String) (hash : UInt64) (b : Nat) : Bool :=
  (held? m.buckets b).all (m.isAt key hash)

/-- What a search that ends at a bucket answers. -/
def answerAt (m : Raw α) (key : String) (hash : UInt64) (b : Nat) : Place :=
  match held? m.buckets b with
  | none => .vacant b
  | some i => if m.isAt key hash i then .taken b i else .vacant b

/-- One step of a search: it answers at a bucket that ends it and goes on after any other. -/
theorem probe_succ (m : Raw α) (key : String) (hash : UInt64) (fuel b : Nat) :
    m.probe key hash (fuel + 1) b =
      if m.endsSearch key hash b then m.answerAt key hash b
      else m.probe key hash fuel (after m.buckets.size b) := by
  rw [probe]
  cases hentry : (m.buckets[b]?).join with
  | none => simp [endsSearch, answerAt, held?, hentry]
  | some i =>
    cases hslot : m.slot? i with
    | none => simp [endsSearch, held?, hentry, isAt, hslot]
    | some s => by_cases hmatch : (s.hash == hash && s.key == key) = true <;>
        simp only [endsSearch, answerAt, held?, hentry, isAt, hslot, Option.all_some,
          Option.any_some, hmatch, if_true, if_false, Bool.false_eq_true]

/-- Assumes: some bucket ends the search within the bound on the steps. -/
theorem probe_eq_walk (m : Raw α) (key : String) (hash : UInt64) (fuel b : Nat)
    (hb : b < m.buckets.size)
    (hstop : ∃ e, e < m.buckets.size ∧ m.endsSearch key hash e = true ∧
      distance m.buckets.size b e < fuel) :
    m.probe key hash fuel b =
      m.answerAt key hash (walk (m.endsSearch key hash) m.buckets.size fuel b) := by
  induction fuel generalizing b with
  | zero =>
    obtain ⟨e, _, _, hlt⟩ := hstop
    exact absurd hlt (Nat.not_lt_zero _)
  | succ fuel ih =>
    rw [probe_succ, walk]
    by_cases hhere : m.endsSearch key hash b = true
    · rw [if_pos hhere, if_pos hhere]
    · rw [if_neg hhere, if_neg hhere]
      obtain ⟨e, he, hse, hdist⟩ := hstop
      have hne : b ≠ e := fun h ↦ hhere (h ▸ hse)
      have hstep := distance_after hb he hne
      exact ih _ (after_lt hb) ⟨e, he, hse, by omega⟩

/-- What the search for a key finds: the bucket of a slot with that key, or else the bucket where
the key would go, and then no bucket holds it. -/
def Found (m : Raw α) (key : String) : Place → Prop
  | .taken b i => held? m.buckets b = some i ∧ ∃ s, m.slot? i = some s ∧ s.key = key
  | .vacant b => b < m.buckets.size ∧ held? m.buckets b = none ∧
      (∀ x, x < m.buckets.size → distance m.buckets.size (home m.buckets.size (m.hash key)) x <
        distance m.buckets.size (home m.buckets.size (m.hash key)) b →
          held? m.buckets x ≠ none) ∧
      ∀ c i s, held? m.buckets c = some i → m.slot? i = some s → s.key ≠ key

/-- Assumes: a settled table whose slots carry the hash of their key, and a search that has come
to an empty bucket. The key is in no bucket: not before the empty one, where the search would have
ended, and not beyond it, since its slot would not be settled there. -/
theorem found_vacant {m : Raw α} {key : String} {b : Nat}
    (hsettled : Settled (homeOf m.slots m.buckets.size) m.buckets)
    (hhash : ∀ b i, held? m.buckets b = some i → ∃ s, m.slot? i = some s ∧
      s.hash = m.hash s.key)
    (hb : b < m.buckets.size) (hempty : held? m.buckets b = none)
    (hway : ∀ x, x < m.buckets.size →
      distance m.buckets.size (home m.buckets.size (m.hash key)) x <
        distance m.buckets.size (home m.buckets.size (m.hash key)) b →
          m.endsSearch key (m.hash key) x = false) : m.Found key (.vacant b) := by
  have hpos : 0 < m.buckets.size := Nat.lt_of_le_of_lt (Nat.zero_le _) hb
  have hhome : home m.buckets.size (m.hash key) < m.buckets.size := Nat.mod_lt _ hpos
  have hpassed : ∀ x, x < m.buckets.size →
      distance m.buckets.size (home m.buckets.size (m.hash key)) x <
        distance m.buckets.size (home m.buckets.size (m.hash key)) b →
          held? m.buckets x ≠ none := by
    intro x hx hcloser hnone
    have := hway x hx hcloser
    simp [endsSearch, hnone] at this
  refine ⟨hb, hempty, hpassed, fun c i s hc hs hkey ↦ ?_⟩
  obtain ⟨s', hs', hhs⟩ := hhash c i hc
  obtain rfl := Option.some.inj (hs.symm.trans hs')
  have hci : homeOf m.slots m.buckets.size i = home m.buckets.size (m.hash key) := by
    rw [homeOf_of_slot? hs, hhs, hkey]
  have hclt := lt_size_of_held? hc
  rcases Nat.lt_trichotomy (distance m.buckets.size (home m.buckets.size (m.hash key)) c)
    (distance m.buckets.size (home m.buckets.size (m.hash key)) b) with hcloser | heq | hfarther
  · have hstopped := hway c hclt hcloser
    simp [endsSearch, hc, isAt, hs, hkey, hhs] at hstopped
  · obtain rfl := eq_of_distance_eq hhome hclt hb heq
    exact absurd (hempty.symm.trans hc) (by simp)
  · rw [← hci] at hfarther
    exact hsettled c i hc b hb hfarther hempty

/-- Assumes: a settled table that is not full and whose slots carry the hash of their key. -/
theorem found_find {m : Raw α} (key : String)
    (hsettled : Settled (homeOf m.slots m.buckets.size) m.buckets)
    (hroom : filledCount m.buckets < m.buckets.size)
    (hhash : ∀ b i, held? m.buckets b = some i → ∃ s, m.slot? i = some s ∧
      s.hash = m.hash s.key) : m.Found key (m.find key) := by
  have hpos : 0 < m.buckets.size := Nat.lt_of_le_of_lt (Nat.zero_le _) hroom
  have hhome : home m.buckets.size (m.hash key) < m.buckets.size := Nat.mod_lt _ hpos
  obtain ⟨e, he, hempty⟩ := exists_empty hroom
  have hstop : ∃ e, e < m.buckets.size ∧ m.endsSearch key (m.hash key) e = true ∧
      distance m.buckets.size (home m.buckets.size (m.hash key)) e < m.buckets.size :=
    ⟨e, he, by simp [endsSearch, hempty], distance_lt hhome he⟩
  obtain ⟨hlt, hend, hway⟩ := walk_spec _ _ hhome hstop
  rw [find, locate, probe_eq_walk m key _ _ _ hhome hstop]
  generalize walk (m.endsSearch key (m.hash key)) m.buckets.size m.buckets.size
    (home m.buckets.size (m.hash key)) = b at hlt hend hway
  unfold answerAt
  cases hentry : held? m.buckets b with
  | some i =>
    have hat : m.isAt key (m.hash key) i = true := by
      simpa only [endsSearch, hentry, Option.all_some] using hend
    simp only [hat, if_true]
    obtain ⟨s, hs, hmatch⟩ := (Option.any_eq_true _ _).mp hat
    exact ⟨hentry, s, hs, by simpa using (Bool.and_eq_true_iff.mp hmatch).2⟩
  | none => exact found_vacant hsettled hhash hlt hentry hway

end TokenLang.StackMap.Raw

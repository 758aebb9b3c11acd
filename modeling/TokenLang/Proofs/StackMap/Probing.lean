import TokenLang.Proofs.StackMap.Refinement

/-!
The table of a stack map between any two commands. Every bound key has one bucket, every bucket
that is not empty points at the top slot of one bound key, and the buckets on the way round from
the home of a key to its bucket are taken (`Indexes`); the table is a power of two, at least
sixteen, and never more than five eighths full. Emptying any bucket leaves such a table of the
other keys. The loops of searching, emptying and doubling are written down without a bound on their
steps (`Searches`, `Closes`, `Refills`), each of them ends, and it ends with what the bounded
functions compute, because a table that is not full has an empty bucket. `ProbeTable` puts this
together, and it holds of every map of every session (`probeTable_throughout`).
-/

set_option autoImplicit false
set_option relaxedAutoImplicit false

universe u

namespace TokenLang.StackMap.Raw

variable {α : Type u}

/-! ### The loops without bounds -/

/-- The search for a key from a bucket on, up to the key or an empty bucket. -/
inductive Searches (m : Raw α) (key : String) (hash : UInt64) : Nat → Place → Prop
  | vacant {b : Nat} (hb : m.buckets[b]? = some none) : Searches m key hash b (.vacant b)
  | taken {b i : Nat} {s : Slot α} (hb : m.buckets[b]? = some (some i)) (hs : m.slot? i = some s)
      (hit : s.hash = hash ∧ s.key = key) : Searches m key hash b (.taken b i)
  | next {b i : Nat} {s : Slot α} {place : Place} (hb : m.buckets[b]? = some (some i))
      (hs : m.slot? i = some s) (miss : ¬ (s.hash = hash ∧ s.key = key))
      (rest : Searches m key hash (after m.buckets.size b) place) : Searches m key hash b place

/-- The search for an empty bucket. -/
inductive ReachesEmpty (buckets : Array (Option Nat)) : Nat → Nat → Prop
  | here {b : Nat} (hb : buckets[b]? = some none) : ReachesEmpty buckets b b
  | next {b i e : Nat} (hb : buckets[b]? = some (some i))
      (rest : ReachesEmpty buckets (after buckets.size b) e) : ReachesEmpty buckets b e

/-- Slots put one after the other into a table, each into the first empty bucket from its home
on. -/
inductive Refills (slots : Array (Option (Slot α))) :
    List Nat → Array (Option Nat) → Array (Option Nat) → Prop
  | done {buckets : Array (Option Nat)} : Refills slots [] buckets buckets
  | place {i b : Nat} {more : List Nat} {buckets filled : Array (Option Nat)}
      (hb : ReachesEmpty buckets (homeOf slots buckets.size i) b)
      (rest : Refills slots more (buckets.setIfInBounds b (some i)) filled) :
      Refills slots (i :: more) buckets filled

/-- The closing of a hole, with the bucket that is inspected next. -/
inductive Closes (slots : Array (Option (Slot α))) :
    Array (Option Nat) → Nat → Nat → Array (Option Nat) → Prop
  | stop {buckets : Array (Option Nat)} {hole bucket : Nat} (hhole : hole < buckets.size)
      (hb : buckets[bucket]? = some none) :
      Closes slots buckets hole bucket (buckets.setIfInBounds hole none)
  | move {buckets closed : Array (Option Nat)} {hole bucket i : Nat}
      (hb : buckets[bucket]? = some (some i))
      (h : mayMove hole bucket (homeOf slots buckets.size i) = true)
      (rest : Closes slots (buckets.setIfInBounds hole (some i)) bucket
        (after buckets.size bucket) closed) : Closes slots buckets hole bucket closed
  | keep {buckets closed : Array (Option Nat)} {hole bucket i : Nat}
      (hb : buckets[bucket]? = some (some i))
      (h : mayMove hole bucket (homeOf slots buckets.size i) = false)
      (rest : Closes slots buckets hole (after buckets.size bucket) closed) :
      Closes slots buckets hole bucket closed

/-! ### An empty bucket ahead -/

/-- An empty bucket is reached from a bucket in fewer than so many steps. -/
def EmptyWithin (buckets : Array (Option Nat)) (bound b : Nat) : Prop :=
  ∃ e, e < buckets.size ∧ held? buckets e = none ∧ distance buckets.size b e < bound

section Ahead

variable {buckets : Array (Option Nat)} {bound b : Nat}

theorem not_emptyWithin_zero : ¬ EmptyWithin buckets 0 b := by
  rintro ⟨e, -, -, hlt⟩
  exact Nat.not_lt_zero _ hlt

/-- A table that is not full has an empty bucket ahead of every bucket. -/
theorem emptyWithin_size (hroom : filledCount buckets < buckets.size) (hb : b < buckets.size) :
    EmptyWithin buckets buckets.size b := by
  obtain ⟨e, he, hempty⟩ := exists_empty hroom
  exact ⟨e, he, hempty, distance_lt hb he⟩

/-- Past a bucket that is taken it is one step less. -/
theorem EmptyWithin.after (h : EmptyWithin buckets (bound + 1) b) (hb : b < buckets.size)
    (htaken : held? buckets b ≠ none) : EmptyWithin buckets bound (after buckets.size b) := by
  obtain ⟨e, he, hempty, hdist⟩ := h
  have hne : b ≠ e := fun heq ↦ htaken (heq ▸ hempty)
  have hstep := distance_after hb he hne
  exact ⟨e, he, hempty, by omega⟩

/-- What is put into a bucket that is taken leaves the empty one where it is. -/
theorem EmptyWithin.set (h : EmptyWithin buckets bound b) {hole : Nat}
    (htaken : held? buckets hole ≠ none) (hhole : hole < buckets.size) (i : Nat) :
    EmptyWithin (buckets.setIfInBounds hole (some i)) bound b := by
  obtain ⟨e, he, hempty, hdist⟩ := h
  have hne : e ≠ hole := fun heq ↦ htaken (heq ▸ hempty)
  refine ⟨e, ?_, by rw [held?_set hhole, if_neg hne, hempty], ?_⟩
  · rwa [Array.size_setIfInBounds]
  · rwa [Array.size_setIfInBounds]

theorem getElem?_eq_some_held? (hb : b < buckets.size) :
    buckets[b]? = some (held? buckets b) := by
  rw [Array.getElem?_eq_getElem hb, getElem_eq_held? hb]

end Ahead

/-- Assumes: every bucket points at a slot, and an empty one lies within the bound on the steps. -/
theorem searches_probe {m : Raw α} {key : String} {hash : UInt64}
    (hslots : ∀ b i, held? m.buckets b = some i → ∃ s, m.slot? i = some s) (fuel b : Nat)
    (hb : b < m.buckets.size) (hroom : EmptyWithin m.buckets fuel b) :
    m.Searches key hash b (m.probe key hash fuel b) := by
  induction fuel generalizing b with
  | zero => exact absurd hroom not_emptyWithin_zero
  | succ fuel ih =>
    have hread := getElem?_eq_some_held? hb
    rw [probe]
    cases hentry : (m.buckets[b]?).join with
    | none => exact .vacant (hread.trans (congrArg some hentry))
    | some i =>
      have htaken : m.buckets[b]? = some (some i) := hread.trans (congrArg some hentry)
      obtain ⟨s, hs⟩ := hslots b i hentry
      have hrest := ih _ (after_lt hb)
        (hroom.after hb (ne_of_eq_of_ne hentry (Option.some_ne_none i)))
      dsimp only
      rw [hs]
      dsimp only
      split_ifs with hmatch
      · exact .taken htaken hs (by simpa using hmatch)
      · exact .next htaken hs (by simpa using hmatch) hrest

theorem reachesEmpty_firstEmpty {buckets : Array (Option Nat)} (fuel b : Nat)
    (hb : b < buckets.size) (hroom : EmptyWithin buckets fuel b) :
    ReachesEmpty buckets b (firstEmpty buckets fuel b) := by
  induction fuel generalizing b with
  | zero => exact absurd hroom not_emptyWithin_zero
  | succ fuel ih =>
    have hread := getElem?_eq_some_held? hb
    rw [firstEmpty]
    cases hentry : (buckets[b]?).join with
    | none => exact .here (hread.trans (congrArg some hentry))
    | some i =>
      exact .next (hread.trans (congrArg some hentry)) (ih _ (after_lt hb)
        (hroom.after hb (ne_of_eq_of_ne hentry (Option.some_ne_none i))))

/-- Assumes: a bucket for each of the slots. -/
theorem refills_foldl_place (m : Raw α) (more : List Nat) (buckets : Array (Option Nat))
    (hroom : filledCount buckets + more.length ≤ buckets.size) :
    Refills m.slots more buckets (more.foldl m.place buckets) := by
  induction more generalizing buckets with
  | nil => exact .done
  | cons i more ih =>
    rw [List.length_cons] at hroom
    have hspare : filledCount buckets < buckets.size := by omega
    have hhome : homeOf m.slots buckets.size i < buckets.size :=
      homeOf_lt m.slots (Nat.lt_of_le_of_lt (Nat.zero_le _) hspare) i
    obtain ⟨hlt, hvacant, -⟩ := firstEmpty_spec hhome hspare
    refine .place (reachesEmpty_firstEmpty _ _ hhome (emptyWithin_size hspare hhome)) (ih _ ?_)
    rw [Array.size_setIfInBounds, filledCount_set_vacant hlt hvacant]
    omega

/-- Assumes: the hole is taken, and an empty bucket lies within the bound on the steps. The hole
moves only to buckets that are taken, so the empty bucket stays. -/
theorem closes_closeHole (slots : Array (Option (Slot α))) (fuel : Nat)
    (buckets : Array (Option Nat)) (hole bucket : Nat) (hhole : held? buckets hole ≠ none)
    (hbucket : bucket < buckets.size) (hroom : EmptyWithin buckets fuel bucket) :
    Closes slots buckets hole bucket (closeHole slots fuel buckets hole bucket) := by
  induction fuel generalizing buckets hole bucket with
  | zero => exact absurd hroom not_emptyWithin_zero
  | succ fuel ih =>
    obtain ⟨j, hj⟩ := Option.ne_none_iff_exists'.mp hhole
    have hholeLt := lt_size_of_held? hj
    have hread := getElem?_eq_some_held? hbucket
    rw [closeHole]
    cases hentry : (buckets[bucket]?).join with
    | none => exact .stop hholeLt (hread.trans (congrArg some hentry))
    | some i =>
      have htaken : buckets[bucket]? = some (some i) := hread.trans (congrArg some hentry)
      have hfilled : held? buckets bucket ≠ none := ne_of_eq_of_ne hentry (Option.some_ne_none i)
      have hrest := hroom.after hbucket hfilled
      dsimp only
      split_ifs with hmove
      · refine .move htaken hmove (ih _ _ _ ?_ ?_ (hrest.set hhole hholeLt i))
        · rw [held?_set hholeLt]
          split_ifs
          · exact Option.some_ne_none i
          · exact hfilled
        · rw [Array.size_setIfInBounds]
          exact after_lt hbucket
      · exact .keep htaken (Bool.eq_false_iff.mpr hmove) (ih _ _ _ hhole (after_lt hbucket) hrest)

/-! ### Going round -/

theorem add_distance_mod {n a b : Nat} (ha : a < n) (hb : b < n) :
    (a + distance n a b) % n = b := by
  unfold distance
  split_ifs with hle
  · rw [Nat.add_sub_cancel' hle, Nat.mod_eq_of_lt hb]
  · have hround : a + (b + n - a) = b + n := by omega
    rw [hround, Nat.add_mod_right, Nat.mod_eq_of_lt hb]

theorem distance_add_mod {n a k : Nat} (ha : a < n) (hk : k < n) :
    distance n a ((a + k) % n) = k := by
  unfold distance
  by_cases hlt : a + k < n
  · rw [Nat.mod_eq_of_lt hlt, if_pos (Nat.le_add_right a k), Nat.add_sub_cancel_left]
  · have hround : (a + k) % n = a + k - n := by
      rw [Nat.mod_eq_sub_mod (Nat.le_of_not_lt hlt), Nat.mod_eq_of_lt (by omega)]
    rw [hround, if_neg (by omega)]
    omega

/-- In a table whose size is a power of two the search begins at the masked hash. -/
theorem home_eq_land {n exponent : Nat} (hn : n = 2 ^ exponent) (hash : UInt64) :
    home n hash = hash.toNat &&& (n - 1) := by
  rw [home, hn, Nat.and_two_pow_sub_one_eq_mod]

/-! ### What a table points at -/

/-- A bucket points at the top slot of a key. -/
def Shows (m : Raw α) (buckets : Array (Option Nat)) (key : String) (b : Nat) : Prop :=
  ∃ i, m.top key = some i ∧ held? buckets b = some i

/-- A table of some of the bound keys of a map. -/
structure Indexes (m : Raw α) (buckets : Array (Option Nat)) (bound : String → Prop) : Prop where
  /-- Each bucket that is not empty belongs to one key. -/
  key : ∀ b, held? buckets b ≠ none → ∃! key, bound key ∧ m.Shows buckets key b
  /-- Each key has one bucket. -/
  bucket : ∀ key, bound key → ∃! b, m.Shows buckets key b
  /-- Going round from the masked hash of a key, all buckets up to the one of the key are taken. -/
  way : ∀ key b, bound key → m.Shows buckets key b →
    ∃ steps, steps < buckets.size ∧
      b = (((m.hash key).toNat &&& (buckets.size - 1)) + steps) % buckets.size ∧
      ∀ k ≤ steps,
        held? buckets ((((m.hash key).toNat &&& (buckets.size - 1)) + k) % buckets.size) ≠ none

section Tables

variable {m : Raw α} (h : Sound m)
include h

/-- Assumes: a settled table of the top slots of some bound keys, each slot in one bucket. -/
theorem Sound.indexes {buckets : Array (Option Nat)} {bound : String → Prop}
    (hpow : ∃ exponent, buckets.size = 2 ^ exponent)
    (hsettled : Settled (homeOf m.slots buckets.size) buckets) (hunrepeated : Unrepeated buckets)
    (hbound : ∀ key, bound key → ∃ i, m.top key = some i)
    (hholds : ∀ i, (∃ b, held? buckets b = some i) ↔ ∃ key, bound key ∧ m.top key = some i) :
    m.Indexes buckets bound := by
  refine ⟨fun b hb ↦ ?_, fun key hkey ↦ ?_, ?_⟩
  · obtain ⟨i, hi⟩ := Option.ne_none_iff_exists'.mp hb
    obtain ⟨key, hkey, htop⟩ := (hholds i).mp ⟨b, hi⟩
    refine ⟨key, ⟨hkey, i, htop, hi⟩, fun other hother ↦ ?_⟩
    obtain ⟨-, j, htop', hj⟩ := hother
    obtain rfl := Option.some.inj (hi.symm.trans hj)
    exact eq_of_top htop' htop
  · obtain ⟨i, htop⟩ := hbound key hkey
    obtain ⟨b, hb⟩ := (hholds i).mpr ⟨key, hkey, htop⟩
    refine ⟨b, ⟨i, htop, hb⟩, fun c hc ↦ ?_⟩
    obtain ⟨j, htop', hj⟩ := hc
    obtain rfl := Option.some.inj (htop.symm.trans htop')
    exact hunrepeated c b i hj hb
  · rintro key b - ⟨i, htop, hi⟩
    obtain ⟨exponent, hsize⟩ := hpow
    have hlt := lt_size_of_held? hi
    have hhome : homeOf m.slots buckets.size i = home buckets.size (m.hash key) :=
      h.homeOf_top htop buckets.size
    have hstart : home buckets.size (m.hash key) < buckets.size := Nat.mod_lt _ (by omega)
    rw [← home_eq_land hsize]
    refine ⟨distance buckets.size (home buckets.size (m.hash key)) b, distance_lt hstart hlt,
      (add_distance_mod hstart hlt).symm, fun k hk ↦ ?_⟩
    rcases Nat.lt_or_eq_of_le hk with hcloser | rfl
    · have hkn : k < buckets.size := hcloser.trans (distance_lt hstart hlt)
      refine hsettled b i hi _ (Nat.mod_lt _ (by omega)) ?_
      rwa [hhome, distance_add_mod hstart hkn]
    · rw [add_distance_mod hstart hlt, hi]
      exact Option.some_ne_none i

theorem Sound.indexes_buckets : m.Indexes m.buckets (· ∈ m.keys) := by
  obtain ⟨exponent, -, hsize⟩ := h.buckets
  refine h.indexes ⟨exponent, hsize⟩ h.indexed.settled h.indexed.unrepeated
    (fun key hkey ↦ (h.mem_keys_iff key).mp hkey) fun i ↦ (h.indexed.holds i).trans ?_
  exact exists_congr fun key ↦
    ⟨fun htop ↦ ⟨(h.mem_keys_iff key).mpr ⟨i, htop⟩, htop⟩, And.right⟩

/-- Emptying the bucket of a key leaves a table of all other keys. -/
theorem Sound.indexes_vacate {b : Nat} {key : String} (hshows : m.Shows m.buckets key b) :
    (vacate m.slots m.buckets b).size = m.buckets.size ∧
      m.Indexes (vacate m.slots m.buckets b) fun other ↦ other ∈ m.keys ∧ other ≠ key := by
  obtain ⟨i, htop, hi⟩ := hshows
  obtain ⟨exponent, -, hpow⟩ := h.buckets
  have hclosed := vacate_spec m.slots h.indexed.settled h.indexed.unrepeated
    (fun _ j _ ↦ homeOf_lt m.slots h.buckets_pos j) h.room hi
  refine ⟨hclosed.size_eq, h.indexes ⟨exponent, hclosed.size_eq.trans hpow⟩
    (hclosed.size_eq.symm ▸ hclosed.settled) hclosed.unrepeated
    (fun other hother ↦ (h.mem_keys_iff other).mp hother.1) fun j ↦
      (hclosed.entries j).trans ⟨?_, ?_⟩⟩
  · rintro ⟨c, hcb, hc⟩
    obtain ⟨other, hother⟩ := (h.indexed.holds j).mp ⟨c, hc⟩
    refine ⟨other, ⟨(h.mem_keys_iff other).mpr ⟨j, hother⟩, ?_⟩, hother⟩
    rintro rfl
    obtain rfl := Option.some.inj (htop.symm.trans hother)
    exact hcb (h.indexed.unrepeated c b i hc hi)
  · rintro ⟨other, ⟨-, hne⟩, hother⟩
    obtain ⟨c, hc⟩ := (h.indexed.holds j).mpr ⟨other, hother⟩
    refine ⟨c, ?_, hc⟩
    rintro rfl
    obtain rfl := Option.some.inj (hi.symm.trans hc)
    exact hne (eq_of_top hother htop)

/-- The keys that are counted are the bound ones. -/
theorem Sound.keyCount_eq : m.keyCount = m.keys.length := by
  have hnodup : m.keys.Nodup := keys_eq m ▸ nodup_eraseDups _
  have hperm : (m.keys.map m.top).Perm ((entries m.buckets).map some) := by
    refine (List.perm_ext_iff_of_nodup ?_ ?_).mpr fun found ↦ ?_
    · refine (List.nodup_map_iff_inj_on hnodup).mpr fun key hkey other _ heq ↦ ?_
      obtain ⟨i, htop⟩ := (h.mem_keys_iff key).mp hkey
      exact eq_of_top htop (heq.symm.trans htop)
    · exact (List.nodup_map_iff (Option.some_injective _)).mpr h.indexed.unrepeated.nodup_entries
    · simp only [List.mem_map, mem_entries, h.indexed.holds]
      constructor
      · rintro ⟨key, hkey, rfl⟩
        obtain ⟨i, htop⟩ := (h.mem_keys_iff key).mp hkey
        exact ⟨i, ⟨key, htop⟩, htop.symm⟩
      · rintro ⟨i, ⟨key, htop⟩, rfl⟩
        exact ⟨key, (h.mem_keys_iff key).mpr ⟨i, htop⟩, htop⟩
  have hlength := hperm.length_eq
  rw [List.length_map, List.length_map, length_entries] at hlength
  rw [h.keys, hlength]

/-! ### The loops end -/

theorem Sound.searches_find (key : String) : m.Searches key (m.hash key)
    (home m.buckets.size (m.hash key)) (m.find key) := by
  have hstart : home m.buckets.size (m.hash key) < m.buckets.size := Nat.mod_lt _ h.buckets_pos
  refine searches_probe (fun b i hb ↦ ?_) _ _ hstart (emptyWithin_size h.room hstart)
  obtain ⟨other, htop⟩ := (h.indexed.holds i).mp ⟨b, hb⟩
  obtain ⟨s, hs, -⟩ := slot?_of_top htop
  exact ⟨s, hs⟩

theorem Sound.closes_vacate {b : Nat} (hb : held? m.buckets b ≠ none) :
    Closes m.slots m.buckets b (after m.buckets.size b) (vacate m.slots m.buckets b) := by
  obtain ⟨i, hi⟩ := Option.ne_none_iff_exists'.mp hb
  have hnext := after_lt (lt_size_of_held? hi)
  exact closes_closeHole m.slots _ _ _ _ hb hnext (emptyWithin_size h.room hnext)

omit h in
theorem refills_enlarge (m : Raw α) : Refills m.slots (entries m.buckets)
    (Array.replicate (m.buckets.size * 2) none) m.enlarge.buckets := by
  refine refills_foldl_place m _ _ ?_
  have hcount : filledCount m.buckets ≤ m.buckets.size := Array.countP_le_size
  rw [filledCount_replicate, length_entries, Array.size_replicate]
  omega

end Tables

/-! ### The invariant of the table -/

/-- What holds of the table of a map between two commands. -/
structure ProbeTable (m : Raw α) : Prop where
  two_pow : ∃ exponent, m.buckets.size = 2 ^ exponent
  least : 16 ≤ m.buckets.size
  keyCount : m.keyCount = m.keys.length
  load : m.keyCount * 8 ≤ m.buckets.size * 5
  room : ∃ b : Nat, m.buckets[b]? = some none
  indexes : m.Indexes m.buckets (· ∈ m.keys)
  /-- Emptying the bucket of any key leaves a table of the other keys. -/
  emptied : ∀ b key, m.Shows m.buckets key b →
    (vacate m.slots m.buckets b).size = m.buckets.size ∧
      m.Indexes (vacate m.slots m.buckets b) fun other ↦ other ∈ m.keys ∧ other ≠ key
  find_ends : ∀ key, m.Searches key (m.hash key)
    ((m.hash key).toNat &&& (m.buckets.size - 1)) (m.find key)
  vacate_ends : ∀ b, held? m.buckets b ≠ none →
    Closes m.slots m.buckets b (after m.buckets.size b) (vacate m.slots m.buckets b)
  /-- Where pushing a new key may double the table, the doubling ends. -/
  enlarge_ends : ∀ key value, ∃ b,
    (key ∉ m.keys → m.push key value = (m.entered key value b).addKey) ∧
      Refills (m.entered key value b).slots (entries (m.entered key value b).buckets)
        (Array.replicate (m.buckets.size * 2) none) (m.entered key value b).enlarge.buckets

/-- All that is said of the table of a sound map, put together. -/
theorem Sound.probeTable {m : Raw α} (h : Sound m) : ProbeTable m := by
  obtain ⟨exponent, hleast, hsize⟩ := h.buckets
  obtain ⟨e, he, hempty⟩ := exists_empty h.room
  have hsixteen : 2 ^ 4 ≤ m.buckets.size := hsize ▸ Nat.pow_le_pow_right (by omega) hleast
  refine ⟨⟨exponent, hsize⟩, hsixteen, h.keyCount_eq, h.load,
    ⟨e, (getElem?_eq_some_held? he).trans (congrArg some hempty)⟩, h.indexes_buckets,
    fun b key ↦ h.indexes_vacate, fun key ↦ home_eq_land hsize (m.hash key) ▸ h.searches_find key,
    fun b ↦ h.closes_vacate, fun key value ↦ ?_⟩
  obtain ⟨b, -, hpush⟩ := h.push_eq key value
  refine ⟨b, fun hkey ↦ ?_, ?_⟩
  · have htop : m.top key = none := by
      cases htop : m.top key with
      | none => rfl
      | some i => exact absurd ((h.mem_keys_iff key).mpr ⟨i, htop⟩) hkey
    rw [hpush, htop]
    rfl
  · have hrefills := refills_enlarge (m.entered key value b)
    have hentered : (m.entered key value b).buckets.size = m.buckets.size := by
      rw [(entered_buckets m key value b).1, Array.size_setIfInBounds]
    rwa [hentered] at hrefills

/-- Every map that a session comes to, copies included, has the hash of the first one and a table
in order: whatever the hash, the initial capacity and the commands. -/
theorem probeTable_throughout (hash : String → UInt64) (capacity : Int)
    (session : List (Nat × Command α)) (m : Raw α)
    (hm : m ∈ operations.run [.new hash capacity] session) : m.hash = hash ∧ m.ProbeTable := by
  obtain ⟨hsound, hhash⟩ := sound_of_mem_run hm
  exact ⟨hhash, hsound.probeTable⟩

/-- The probe run that begins in the last bucket of sixteen goes on in the first ones. When its
first key is removed, both others move back, one of them round the end. -/
theorem probeTable_throughout_wraps :
    ∃ m ∈ operations.run [.new (fun _ ↦ 15) 0]
      [(0, .push "a" 1), (0, .push "b" 2), (0, .push "c" 3), (0, .clone), (1, .pop "a")],
      m.ProbeTable ∧ held? m.buckets 15 = some 1 ∧ held? m.buckets 0 = some 2 ∧
        held? m.buckets 1 = none := by
  have hmem : ((((new (fun _ ↦ 15) 0).push "a" 1).push "b" 2).push "c" 3 |>.pop "a").2 ∈
      operations.run [.new (fun _ ↦ 15) 0] [(0, .push "a" 1), (0, .push "b" 2),
        (0, .push "c" 3), (0, .clone), (1, .pop "a")] :=
    List.mem_cons_of_mem _ (List.mem_cons_self ..)
  exact ⟨_, hmem, (probeTable_throughout _ _ _ _ hmem).2, by decide, by decide, by decide⟩

end TokenLang.StackMap.Raw

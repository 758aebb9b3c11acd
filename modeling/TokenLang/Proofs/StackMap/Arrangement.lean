import TokenLang.Proofs.StackMap.Refinement

/-!
How the slots of a stack map are arranged, between two commands and in the middle of a push. The
free list and the slots of the live bindings are all slots, each once; a slot knows its place in the
order array and the order array holds nothing else; the links from the slot that the search for a
key finds lead through all slots of the key, the newest first, and end there; and the tree counts
the places that are taken. `Arranged` says this of a map of which one slot may be pending, that is,
filled but not yet numbered. It follows from the invariant of the arena (`Arena.arranged`), so it
holds of every map of every session, also in the middle of a push, where numbering the slots again
keeps it and the order of the bindings (`arranged_throughout`).
-/

set_option autoImplicit false
set_option relaxedAutoImplicit false

universe u

namespace TokenLang.StackMap.Raw

variable {α : Type u}

/-- The slot that a search found. -/
def Place.index? : Place → Option Nat
  | .taken _ i => some i
  | .vacant _ => none

/-- The slots that are visited from one of them on, going down the links to what each shadows. -/
inductive Follows (m : Raw α) : Option Nat → List Nat → Prop
  | bottom : Follows m none []
  | down {i : Nat} {s : Slot α} {visited : List Nat} (hs : m.slot? i = some s)
      (rest : Follows m s.below visited) : Follows m (some i) (i :: visited)

/-- The slots of the live bindings of a key, the newest first. -/
def stack (m : Raw α) (key : String) : List Nat := (m.ledger.filter (m.hasKey key)).reverse

/-- A slot has a smaller number than another one. -/
def Precedes (m : Raw α) (i j : Nat) : Prop :=
  ∃ s t, m.slot? i = some s ∧ m.slot? j = some t ∧ s.sequence < t.sequence

/-- The slots of a map and their order, where a pending slot is filled but has no number. -/
structure Arranged (pending : Option Nat) (m : Raw α) : Prop where
  /-- Each slot is free, live or pending, and only once one of them. -/
  slots : (m.free ++ (m.ledger ++ pending.toList)).Perm (List.range m.slots.size)
  filled : ∀ i, (m.slot? i).isSome ↔ i ∈ m.ledger ∨ pending = some i
  /-- The order array holds the live slots, each at the place of its number, and no others. -/
  number : ∀ q i, m.order[q]? = some (some i) ↔
    pending ≠ some i ∧ ∃ s, m.slot? i = some s ∧ s.sequence = q
  /-- The links from the top slot of a key visit the live slots of the key and end. -/
  links : ∀ key, m.Follows (m.find key).index? (m.stack key)
  falling : ∀ key, (m.stack key).Pairwise fun i j ↦ m.Precedes j i
  counts : m.live.Counts fun q ↦ if (held? m.order q).isSome then 1 else 0
  two_pow : ∃ exponent, m.live.size = 2 ^ exponent
  room : m.order.size ≤ m.live.size
  size : m.size = m.ledger.length

/-! ### The order array -/

theorem unrepeated_of_nodup_entries {xs : Array (Option Nat)} (h : (entries xs).Nodup) :
    Unrepeated xs := by
  rw [entries, List.Nodup, List.pairwise_filterMap, List.pairwise_iff_getElem] at h
  have hlater : ∀ b c i, held? xs b = some i → held? xs c = some i → ¬ b < c := by
    intro b c i hb hc hlt
    have hbs := lt_size_of_held? hb
    have hcs := lt_size_of_held? hc
    rw [← getElem_eq_held? hbs] at hb
    rw [← getElem_eq_held? hcs] at hc
    exact h b c (by simpa using hbs) (by simpa using hcs) hlt i (by simpa using hb) i
      (by simpa using hc) rfl
  intro b c i hb hc
  exact Nat.le_antisymm (Nat.le_of_not_lt (hlater c b i hc hb))
    (Nat.le_of_not_lt (hlater b c i hb hc))

section Arena

variable {pending : Option Nat} {m : Raw α} (h : Arena pending m)
include h

theorem Arena.order_eq_some_iff (q i : Nat) : m.order[q]? = some (some i) ↔
    pending ≠ some i ∧ ∃ s, m.slot? i = some s ∧ s.sequence = q := by
  constructor
  · intro hq
    have hentry : held? m.order q = some i := by simp [held?, hq]
    have hmem : i ∈ m.ledger := mem_entries.mpr ⟨q, hentry⟩
    obtain ⟨hsome, hne⟩ := (h.mem_ledger i).mp hmem
    obtain ⟨s, hs⟩ := Option.isSome_iff_exists.mp hsome
    have hplace : held? m.order s.sequence = some i := by simp [held?, h.sequence i s hs hne]
    exact ⟨hne, s, hs, unrepeated_of_nodup_entries h.nodup _ _ i hplace hentry⟩
  · rintro ⟨hne, s, hs, rfl⟩
    exact h.sequence i s hs hne

/-- The numbers grow along the ledger. -/
theorem Arena.pairwise_ledger : m.ledger.Pairwise m.Precedes := by
  rw [ledger, List.pairwise_filterMap, List.pairwise_iff_getElem]
  intro p q hp hq hlt i hi j hj
  have hat : ∀ {place index : Nat} (hplace : place < m.order.toList.length),
      id m.order.toList[place] = some index → ∃ s, m.slot? index = some s ∧ s.sequence = place := by
    intro place index hplace hindex
    refine ((h.order_eq_some_iff place index).mp ?_).2
    rw [← Array.getElem?_toList, List.getElem?_eq_getElem hplace]
    exact congrArg some hindex
  obtain ⟨s, hs, rfl⟩ := hat hp hi
  obtain ⟨t, ht, rfl⟩ := hat hq hj
  exact ⟨s, t, hs, ht, hlt⟩

theorem Arena.pairwise_stack (key : String) :
    (m.stack key).Pairwise fun i j ↦ m.Precedes j i :=
  List.pairwise_reverse.mpr (h.pairwise_ledger.filter _)

/-- From the last slot with a key in a first part of the ledger the links lead through all slots
with the key in that part. By induction on the part, taken from its end. -/
theorem Arena.follows_lastWith (key : String) (front back : List Nat)
    (hsplit : m.ledger = front ++ back) :
    m.Follows (m.lastWith key front) (front.filter (m.hasKey key)).reverse := by
  induction front using List.reverseRecOn generalizing back with
  | nil => exact .bottom
  | append_singleton front i ih =>
    have hrest := ih (i :: back) (by rw [hsplit, List.append_assoc, List.singleton_append])
    rw [lastWith_append_singleton, List.filter_append]
    by_cases hkey : m.hasKey key i = true
    · obtain ⟨s, hs, rfl⟩ := hasKey_iff.mp hkey
      have hbelow := h.below front i back s
        (by rw [hsplit, List.append_assoc, List.singleton_append]) hs
      rw [if_pos hkey, List.filter_singleton, hkey, cond_true, List.reverse_append,
        List.reverse_singleton, List.singleton_append]
      exact .down hs (hbelow ▸ hrest)
    · rw [if_neg hkey, List.filter_singleton, Bool.eq_false_iff.mpr hkey, cond_false,
        List.append_nil]
      exact hrest

theorem Arena.follows_stack (key : String) : m.Follows (m.top key) (m.stack key) :=
  h.follows_lastWith key m.ledger [] (List.append_nil _).symm

/-- Assumes: the pending slot is filled. -/
theorem Arena.perm_range (hpending : ∀ i, pending = some i → (m.slot? i).isSome) :
    (m.free ++ (m.ledger ++ pending.toList)).Perm (List.range m.slots.size) := by
  have hfilled : ∀ i ∈ m.ledger ++ pending.toList, (m.slot? i).isSome := by
    intro i hi
    rcases List.mem_append.mp hi with hmem | hmem
    · exact ((h.mem_ledger i).mp hmem).1
    · exact hpending i (Option.mem_toList.mp hmem)
  refine (List.perm_ext_iff_of_nodup ?_ List.nodup_range).mpr fun i ↦ ?_
  · refine List.nodup_append.mpr ⟨h.free_nodup, List.nodup_append.mpr ⟨h.nodup, ?_, ?_⟩, ?_⟩
    · cases pending <;> simp
    · rintro i hi j hj rfl
      exact ((h.mem_ledger i).mp hi).2 (Option.mem_toList.mp hj)
    · rintro i hi j hj rfl
      have hsome := hfilled i hj
      rw [((h.mem_free i).mp hi).2] at hsome
      exact absurd hsome (by simp)
  · rw [List.mem_append, List.mem_range, h.mem_free]
    constructor
    · rintro (⟨hlt, -⟩ | hmem)
      · exact hlt
      · obtain ⟨s, hs⟩ := Option.isSome_iff_exists.mp (hfilled i hmem)
        exact lt_size_of_held? hs
    · intro hlt
      by_cases hnone : m.slot? i = none
      · exact .inl ⟨hlt, hnone⟩
      · have hsome : (m.slot? i).isSome := Option.isSome_iff_ne_none.mpr hnone
        by_cases hpend : pending = some i
        · exact .inr (List.mem_append_right _ (Option.mem_toList.mpr hpend))
        · exact .inr (List.mem_append_left _ ((h.mem_ledger i).mpr ⟨hsome, hpend⟩))

/-- Assumes: the pending slot is filled, and the search for a key finds its last slot. -/
theorem Arena.arranged (hpending : ∀ i, pending = some i → (m.slot? i).isSome)
    (hfind : ∀ key, (m.find key).index? = m.top key) (hsize : m.size = m.ledger.length) :
    Arranged pending m where
  slots := h.perm_range hpending
  filled i := by
    rw [h.mem_ledger]
    by_cases hpend : pending = some i
    · simp [hpend, hpending i hpend]
    · simp [hpend]
  number := h.order_eq_some_iff
  links key := hfind key ▸ h.follows_stack key
  falling := h.pairwise_stack
  counts := h.counts
  two_pow := h.two_pow
  room := h.room
  size := hsize

end Arena

/-! ### What a search looks at -/

/-- A search looks at the buckets and at the keys and hashes of the slots they point at. -/
theorem find_congr {m m' : Raw α} (hhash : m'.hash = m.hash) (hbuckets : m'.buckets = m.buckets)
    (hslots : ∀ b i, held? m.buckets b = some i →
      (m'.slot? i).map (fun s ↦ (s.key, s.hash)) = (m.slot? i).map fun s ↦ (s.key, s.hash))
    (key : String) : m'.find key = m.find key := by
  have hprobe : ∀ hash fuel b, m'.probe key hash fuel b = m.probe key hash fuel b := by
    intro hash fuel
    induction fuel with
    | zero => exact fun _ ↦ rfl
    | succ fuel ih =>
      intro b
      rw [probe, probe, hbuckets]
      cases hentry : (m.buckets[b]?).join with
      | none => rfl
      | some i =>
        have hsame := hslots b i hentry
        dsimp only
        cases hs : m.slot? i with
        | none =>
          rw [hs, Option.map_none, Option.map_eq_none_iff] at hsame
          rw [hsame]
          exact ih _
        | some s =>
          rw [hs, Option.map_some] at hsame
          obtain ⟨t, ht, heq⟩ := Option.map_eq_some_iff.mp hsame
          rw [Prod.mk.injEq] at heq
          rw [ht]
          dsimp only
          rw [heq.1, heq.2, ih]
  rw [find, find, locate, locate, hprobe, hhash, hbuckets]

theorem Sound.index?_find {m : Raw α} (h : Sound m) (key : String) :
    (m.find key).index? = m.top key := by
  obtain ⟨b, -, hfind⟩ := h.find key
  rw [hfind]
  cases m.top key <;> rfl

theorem Sound.arranged {m : Raw α} (h : Sound m) : Arranged none m :=
  h.arena.arranged (fun i hi ↦ absurd hi (by simp)) h.index?_find h.size

/-! ### Numbering the slots again -/

theorem map_slot?_renumber {β : Type*} {f : Slot α → β}
    (hf : ∀ s q, f { s with sequence := q } = f s) (m : Raw α) (i : Nat) :
    (m.renumber.slot? i).map f = (m.slot? i).map f :=
  map_held?_numbered hf m.slots m.ledger 0 i

theorem bindings_renumber (m : Raw α) : m.renumber.bindings = m.bindings := by
  rw [bindings, bindings, ledger_renumber]
  exact List.filterMap_congr fun i _ ↦ map_slot?_renumber (fun _ _ ↦ rfl) m i

/-- Assumes: the pending slot is filled, and the search for a key finds its last slot. Numbering
the slots again keeps the arrangement. -/
theorem Arena.arranged_renumber {pending : Option Nat} {m : Raw α} (h : Arena pending m)
    (hpending : ∀ i, pending = some i → (m.slot? i).isSome)
    (hfind : ∀ key, (m.find key).index? = m.top key) (hsize : m.size = m.ledger.length) :
    Arranged pending m.renumber := by
  have hlinks := sameLinks_renumber m
  refine h.renumber.1.arranged (fun i hi ↦ (hlinks.slot?_isSome i).trans (hpending i hi))
    (fun key ↦ ?_) (hsize.trans (congrArg List.length (ledger_renumber m)).symm)
  have hhash : m.renumber.hash = m.hash := rfl
  have hbuckets : m.renumber.buckets = m.buckets := rfl
  have hsame : m.renumber.find key = m.find key :=
    find_congr hhash hbuckets (fun _ i _ ↦ map_slot?_renumber (fun _ _ ↦ rfl) m i) key
  rw [hsame, hfind, top, top, hlinks.lastWith, ledger_renumber]

/-! ### In the middle of a push -/

/-- A map in the middle of a push: the slot of the new binding is filled and has no number yet. -/
def filled (m : Raw α) (key : String) (value : α) : Raw α := (m.occupy (m.newSlot key value)).1

section Middle

variable {m : Raw α} (h : Sound m) (key : String) (value : α)

theorem ledger_filled (m : Raw α) : (m.filled key value).ledger = m.ledger := ledger_occupy m _

include h

theorem Sound.isSome_slot?_newIndex (i : Nat) (hi : some (m.newIndex key value) = some i) :
    ((m.filled key value).slot? i).isSome := by
  obtain rfl := Option.some.inj hi
  have hnew := h.slot?_filled key value (m.newIndex key value)
  rw [if_pos rfl] at hnew
  exact Option.isSome_iff_exists.mpr ⟨_, hnew⟩

theorem Sound.slot?_filled_eq {i : Nat} (hi : i ∈ m.ledger) :
    (m.filled key value).slot? i = m.slot? i :=
  h.slot?_filled_of_mem key value hi

theorem Sound.bindings_filled : (m.filled key value).bindings = m.bindings := by
  rw [bindings, bindings, ledger_filled]
  exact List.filterMap_congr fun i hi ↦ by
    rw [binding?, binding?, h.slot?_filled_eq key value hi]

/-- The new slot is not in the table yet, so a search finds what it found before. -/
theorem Sound.index?_find_filled (other : String) :
    ((m.filled key value).find other).index? = (m.filled key value).top other := by
  have hhash : (m.filled key value).hash = m.hash := hash_occupy m _
  have hbuckets : (m.filled key value).buckets = m.buckets := (occupy_buckets m _).1
  have hfind : (m.filled key value).find other = m.find other := by
    refine find_congr hhash hbuckets (fun b i hb ↦ ?_) other
    obtain ⟨shown, htop⟩ := (h.indexed.holds i).mp ⟨b, hb⟩
    rw [h.slot?_filled_eq key value (mem_ledger_of_top htop)]
  have htop : (m.filled key value).top other = m.top other := by
    rw [top, ledger_filled]
    exact lastWith_congr fun i hi ↦ by
      rw [hasKey, hasKey, h.slot?_filled_eq key value hi]
  rw [hfind, htop, h.index?_find]

theorem Sound.size_filled : (m.filled key value).size = (m.filled key value).ledger.length := by
  rw [ledger_filled, ← h.size]
  exact (occupy_buckets m _).2.2

theorem Sound.arranged_filled : Arranged (some (m.newIndex key value)) (m.filled key value) ∧
    Arranged (some (m.newIndex key value)) (m.filled key value).renumber := by
  have harena : Arena (some (m.newIndex key value)) (m.filled key value) := h.arena.occupy rfl
  exact ⟨harena.arranged (h.isSome_slot?_newIndex key value) (h.index?_find_filled key value)
      (h.size_filled key value),
    harena.arranged_renumber (h.isSome_slot?_newIndex key value)
      (h.index?_find_filled key value) (h.size_filled key value)⟩

end Middle

/-- The slots of every map that a session comes to, copies included, are arranged: whatever the
hash, the initial capacity and the commands. A push fills a slot and then numbers it; in between
the slots are arranged apart from the new one, and numbering them again keeps them so and keeps the
order of the bindings. -/
theorem arranged_throughout (hash : String → UInt64) (capacity : Int)
    (session : List (Nat × Command α)) (m : Raw α)
    (hm : m ∈ operations.run [.new hash capacity] session) :
    m.Arranged none ∧ ∀ key value,
      let filled := m.filled key value
      let i := m.newIndex key value
      (∃ b, m.push key value = if key ∈ m.keys then (filled.enroll i).link b i
        else ((filled.enroll i).link b i).addKey) ∧
      filled.Arranged (some i) ∧ filled.renumber.Arranged (some i) ∧
      filled.renumber.ledger = m.ledger ∧ filled.renumber.bindings = m.bindings := by
  obtain ⟨hsound, -⟩ := sound_of_mem_run hm
  refine ⟨hsound.arranged, fun key value ↦ ?_⟩
  obtain ⟨harranged, hrenumbered⟩ := hsound.arranged_filled key value
  refine ⟨?_, harranged, hrenumbered, ?_, ?_⟩
  · obtain ⟨b, -, hpush⟩ := hsound.push_eq key value
    refine ⟨b, hpush.trans ?_⟩
    have hbound : key ∈ m.keys ↔ (m.top key).isSome = true :=
      (hsound.mem_keys_iff key).trans Option.isSome_iff_exists.symm
    simp only [hbound]
    rfl
  · rw [ledger_renumber, ledger_filled]
  · rw [bindings_renumber, hsound.bindings_filled]

/-- Two bindings and a removal, eight times. -/
def eightRounds : List (Nat × Command Nat) :=
  (List.replicate 8 [(0, .push "a" 1), (0, .push "b" 2), (0, .pop "a")]).flatten

/-- After eight rounds sixteen numbers are given out and eight slots are live, all of one key and
in one probe run, so the next push numbers them again. -/
theorem arranged_throughout_full :
    ∃ m ∈ operations.run [.new (fun _ ↦ 0) 0] eightRounds,
      m.Arranged none ∧ m.order.size = m.live.size ∧
        (m.filled "a" 3).renumber.Arranged (some (m.newIndex "a" 3)) ∧
        (m.filled "a" 3).renumber.ledger.length = 8 := by
  have hmem : (operations.run [.new (fun _ ↦ 0) 0] eightRounds).head (by decide) ∈
      operations.run [.new (fun _ ↦ 0) 0] eightRounds := List.head_mem _
  obtain ⟨harranged, hpush⟩ := arranged_throughout _ _ _ _ hmem
  obtain ⟨-, -, hrenumbered, -, -⟩ := hpush "a" 3
  exact ⟨_, hmem, harranged, by decide, hrenumbered, by decide⟩

end TokenLang.StackMap.Raw

import TokenLang.Proofs.StackMap.Fenwick
import TokenLang.Proofs.StackMap.ProbeTable

/-!
The slots of a stack map and their order. The ledger is the list of the slots of all live
bindings in the order of insertion, read off the order array. `Arena` says how the ledger, the
slots, the free list and the tree of counts fit together: each slot is in the ledger or free,
a slot knows its place in the order array, it points at the last earlier slot with its key, and
the tree counts the places that are still taken. Between filling a slot and giving it a number
one slot is in neither; it is called pending. Filling a slot (`Arena.occupy`), numbering it
(`Arena.enroll`, with the renumbering of `Arena.renumber` in between when the numbers have run
out), removing the last slot of a key (`Arena.remove`) and changing a value (`Arena.setValue`)
keep the arena in order, and each comes with what it does to the ledger.
-/

set_option autoImplicit false
set_option relaxedAutoImplicit false

universe u

namespace TokenLang.StackMap.Raw

variable {α : Type u}

/-- The slots of the live bindings in the order of insertion. -/
def ledger (m : Raw α) : List Nat := m.order.toList.filterMap id

/-- Whether a slot holds a binding of a key. -/
def hasKey (m : Raw α) (key : String) (i : Nat) : Bool := (m.slot? i).any fun s ↦ s.key == key

/-- The last of several slots that holds a binding of a key. -/
def lastWith (m : Raw α) (key : String) (indices : List Nat) : Option Nat :=
  indices.reverse.find? (m.hasKey key)

/-- The arena in order, apart from the pending slot. -/
structure Arena (pending : Option Nat) (m : Raw α) : Prop where
  mem_ledger : ∀ i, i ∈ m.ledger ↔ (m.slot? i).isSome ∧ pending ≠ some i
  nodup : m.ledger.Nodup
  sequence : ∀ i s, m.slot? i = some s → pending ≠ some i → m.order[s.sequence]? = some (some i)
  hash : ∀ i s, m.slot? i = some s → s.hash = m.hash s.key
  below : ∀ front i back s, m.ledger = front ++ i :: back → m.slot? i = some s →
    s.below = m.lastWith s.key front
  free_nodup : m.free.Nodup
  mem_free : ∀ i, i ∈ m.free ↔ i < m.slots.size ∧ m.slot? i = none
  counts : m.live.Counts fun i ↦ if (held? m.order i).isSome then 1 else 0
  room : m.order.size ≤ m.live.size
  two_pow : ∃ k, m.live.size = 2 ^ k

/-- A slot stands in the ledger once. -/
theorem Arena.not_mem_of_split {pending : Option Nat} {m : Raw α} (h : Arena pending m)
    {front back : List Nat} {i : Nat} (hsplit : m.ledger = front ++ i :: back) :
    i ∉ front ++ back := by
  have hnodup := h.nodup
  rw [hsplit] at hnodup
  exact (List.nodup_cons.mp (List.nodup_middle.mp hnodup)).1

/-! ### The last slot with a key -/

theorem lastWith_append_singleton (m : Raw α) (key : String) (indices : List Nat) (i : Nat) :
    m.lastWith key (indices ++ [i]) =
      if m.hasKey key i then some i else m.lastWith key indices := by
  unfold lastWith
  rw [List.reverse_append, List.reverse_singleton, List.singleton_append, List.find?_cons]
  cases m.hasKey key i <;> rfl

theorem lastWith_eq_some_iff {m : Raw α} {key : String} {indices : List Nat} {i : Nat} :
    m.lastWith key indices = some i ↔ m.hasKey key i = true ∧ ∃ front back,
      indices = front ++ i :: back ∧ ∀ j ∈ back, m.hasKey key j = false := by
  unfold lastWith
  rw [List.find?_eq_some_iff_append]
  refine and_congr_right fun _ ↦ ⟨?_, ?_⟩
  · rintro ⟨after, before, heq, hafter⟩
    refine ⟨before.reverse, after.reverse, ?_, fun j hj ↦ ?_⟩
    · rw [← List.reverse_reverse indices, heq]
      simp
    · simpa using hafter j (List.mem_reverse.mp hj)
  · rintro ⟨front, back, rfl, hback⟩
    refine ⟨back.reverse, front.reverse, by simp, fun j hj ↦ ?_⟩
    simp [hback j (List.mem_reverse.mp hj)]

theorem lastWith_eq_none_iff {m : Raw α} {key : String} {indices : List Nat} :
    m.lastWith key indices = none ↔ ∀ i ∈ indices, m.hasKey key i = false := by
  simp [lastWith, List.find?_eq_none]

theorem hasKey_iff {m : Raw α} {key : String} {i : Nat} :
    m.hasKey key i = true ↔ ∃ s, m.slot? i = some s ∧ s.key = key := by
  simp [hasKey, Option.any_eq_true]

theorem hasKey_of_slot? {m : Raw α} {i : Nat} {s : Slot α} (h : m.slot? i = some s)
    (key : String) : m.hasKey key i = (s.key == key) := by
  simp [hasKey, h]

theorem lastWith_congr {m m' : Raw α} {key : String} {indices : List Nat}
    (h : ∀ i ∈ indices, m'.hasKey key i = m.hasKey key i) :
    m'.lastWith key indices = m.lastWith key indices := by
  unfold lastWith
  exact List.find?_congr fun i hi ↦ h i (List.mem_reverse.mp hi)

/-! ### Slots that differ in nothing but their number or value -/

/-- Two maps whose slots agree in key, hash and in what they shadow. -/
def SameLinks (m m' : Raw α) : Prop :=
  ∀ i, (m'.slot? i).map (fun s ↦ (s.key, s.hash, s.below)) =
    (m.slot? i).map fun s ↦ (s.key, s.hash, s.below)

namespace SameLinks

variable {m m' : Raw α}

theorem slot?_isSome (h : SameLinks m m') (i : Nat) :
    (m'.slot? i).isSome = (m.slot? i).isSome := by
  have := congrArg Option.isSome (h i)
  simpa using this

theorem slot?_eq_none_iff (h : SameLinks m m') (i : Nat) :
    m'.slot? i = none ↔ m.slot? i = none := by
  rw [← Option.not_isSome_iff_eq_none, h.slot?_isSome, Option.not_isSome_iff_eq_none]

theorem of_slot? (h : SameLinks m m') {i : Nat} {s' : Slot α} (hs' : m'.slot? i = some s') :
    ∃ s, m.slot? i = some s ∧ s'.key = s.key ∧ s'.hash = s.hash ∧ s'.below = s.below := by
  have hi := h i
  rw [hs', Option.map_some] at hi
  obtain ⟨s, hs, heq⟩ := Option.map_eq_some_iff.mp hi.symm
  simp only [Prod.mk.injEq] at heq
  exact ⟨s, hs, heq.1.symm, heq.2.1.symm, heq.2.2.symm⟩

theorem hasKey (h : SameLinks m m') (key : String) (i : Nat) :
    m'.hasKey key i = m.hasKey key i := by
  have hi := h i
  unfold Raw.hasKey
  cases hs' : m'.slot? i with
  | none => rw [hs'] at hi; simp [Option.map_eq_none_iff.mp hi.symm]
  | some s' =>
    obtain ⟨s, hs, hkey, -⟩ := h.of_slot? hs'
    simp [hs, hkey]

theorem lastWith (h : SameLinks m m') (key : String) (indices : List Nat) :
    m'.lastWith key indices = m.lastWith key indices :=
  lastWith_congr fun i _ ↦ h.hasKey key i

theorem homeOf (h : SameLinks m m') (n i : Nat) :
    homeOf m'.slots n i = homeOf m.slots n i := by
  unfold Raw.homeOf
  have hi := h i
  unfold slot? at hi
  cases hs' : (m'.slots[i]?).join with
  | none => rw [hs'] at hi; simp [Option.map_eq_none_iff.mp hi.symm]
  | some s' =>
    obtain ⟨s, hs, -, hhash, -⟩ := h.of_slot? (i := i) hs'
    unfold slot? at hs
    simp [hs, hhash]

end SameLinks

section Links

variable {pending : Option Nat} {m m' : Raw α} (h : Arena pending m) (hlinks : SameLinks m m')
include h hlinks

theorem Arena.hash_of_sameLinks (hhash : m'.hash = m.hash) {i : Nat} {s : Slot α}
    (hs : m'.slot? i = some s) : s.hash = m'.hash s.key := by
  obtain ⟨t, ht, hkey, hsame, -⟩ := hlinks.of_slot? hs
  rw [hsame, hkey, hhash]
  exact h.hash i t ht

theorem Arena.below_of_sameLinks {front back : List Nat} {i : Nat} {s : Slot α}
    (hsplit : m.ledger = front ++ i :: back) (hs : m'.slot? i = some s) :
    s.below = m'.lastWith s.key front := by
  obtain ⟨t, ht, hkey, -, hbelow⟩ := hlinks.of_slot? hs
  rw [hbelow, hkey, hlinks.lastWith]
  exact h.below front i back t hsplit ht

end Links

/-! ### Filling a slot -/

section Occupy

variable {m : Raw α}

/-- The slot that is filled next was free. -/
theorem slot?_occupy_index (h : Arena none m) (s : Slot α) :
    m.slot? (m.occupy s).2 = none := by
  rcases m with ⟨hash, buckets, slots, free, order, live, keyCount, size⟩
  cases free with
  | nil => exact held?_eq_none_of_le (le_refl _)
  | cons i free => exact ((h.mem_free i).mp (List.mem_cons_self ..)).2

theorem slot?_occupy (h : Arena none m) (s : Slot α) (j : Nat) :
    (m.occupy s).1.slot? j = if j = (m.occupy s).2 then some s else m.slot? j := by
  rcases m with ⟨hash, buckets, slots, free, order, live, keyCount, size⟩
  cases free with
  | nil => exact held?_push slots (some s) j
  | cons i free => exact held?_set ((h.mem_free i).mp (List.mem_cons_self ..)).1 (some s) j

theorem ledger_occupy (m : Raw α) (s : Slot α) : (m.occupy s).1.ledger = m.ledger := by
  rcases m with ⟨hash, buckets, slots, free, order, live, keyCount, size⟩
  cases free <;> rfl

/-- Filling a slot takes one off the free list or adds one to the arena, so the list still holds the
empty slots, each once. -/
theorem mem_free_occupy (h : Arena none m) (s : Slot α) :
    (m.occupy s).1.free.Nodup ∧ ∀ j, j ∈ (m.occupy s).1.free ↔
      j < (m.occupy s).1.slots.size ∧ (m.occupy s).1.slot? j = none := by
  have hslot := slot?_occupy h s
  rcases m with ⟨hash, buckets, slots, free, order, live, keyCount, size⟩
  cases free with
  | nil =>
    have hfull : ∀ j, j < slots.size → (slots[j]?).join ≠ none := fun j hj hnone ↦
      absurd ((h.mem_free j).mpr ⟨hj, hnone⟩) List.not_mem_nil
    refine ⟨List.nodup_nil, fun j ↦ ⟨fun hj ↦ absurd hj List.not_mem_nil, ?_⟩⟩
    rintro ⟨hj, hnone⟩
    have hsize : j < slots.size + 1 := by simpa [occupy] using hj
    have hentry := (held?_push slots (some s) j).symm.trans hnone
    by_cases hlast : j = slots.size
    · rw [if_pos hlast] at hentry
      exact absurd hentry (Option.some_ne_none s)
    · rw [if_neg hlast] at hentry
      exact absurd hentry (hfull j (by omega))
  | cons i free =>
    obtain ⟨hi, hnodup⟩ := List.nodup_cons.mp h.free_nodup
    refine ⟨hnodup, fun j ↦ ?_⟩
    rw [hslot]
    have hmem := h.mem_free j
    simp only [occupy, Array.size_setIfInBounds, List.mem_cons] at hmem ⊢
    by_cases hji : j = i
    · subst hji
      simp [hi]
    · simpa [hji] using hmem

/-- Filling a slot leaves it pending: it is not in the ledger yet, so none of the slots there sees
it. -/
theorem Arena.occupy (h : Arena none m) {s : Slot α} (hhash : s.hash = m.hash s.key) :
    Arena (some (m.occupy s).2) (m.occupy s).1 := by
  have hslot := slot?_occupy h s
  have hindex := slot?_occupy_index h s
  have hledger := ledger_occupy m s
  have hfree := mem_free_occupy h s
  have hfresh : ∀ k ∈ m.ledger, k ≠ (m.occupy s).2 := by
    rintro k hk rfl
    have hfilled := ((h.mem_ledger _).mp hk).1
    rw [hindex] at hfilled
    exact absurd hfilled (by simp)
  obtain ⟨hsameHash, hsameOrder, hsameLive⟩ : (m.occupy s).1.hash = m.hash ∧
      (m.occupy s).1.order = m.order ∧ (m.occupy s).1.live = m.live := by
    rcases m with ⟨hash, buckets, slots, free, order, live, keyCount, size⟩
    cases free <;> exact ⟨rfl, rfl, rfl⟩
  constructor
  case mem_ledger =>
    intro j
    rw [hledger, h.mem_ledger, hslot]
    by_cases hj : j = (m.occupy s).2
    · simp [hj, hindex]
    · simp [hj, Ne.symm hj]
  case nodup =>
    rw [hledger]
    exact h.nodup
  case sequence =>
    intro j t hj hne
    rw [hslot, if_neg fun heq ↦ hne (congrArg some heq.symm)] at hj
    rw [hsameOrder]
    exact h.sequence j t hj (by simp)
  case hash =>
    intro j t hj
    rw [hsameHash]
    rw [hslot] at hj
    split_ifs at hj
    · obtain rfl := Option.some.inj hj
      exact hhash
    · exact h.hash j t hj
  case below =>
    intro front j back t hsplit hj
    rw [hledger] at hsplit
    rw [hslot, if_neg (hfresh j (by simp [hsplit]))] at hj
    rw [h.below front j back t hsplit hj]
    refine (lastWith_congr fun k hk ↦ ?_).symm
    unfold hasKey
    rw [hslot, if_neg (hfresh k (by simp [hsplit, hk]))]
  case free_nodup => exact hfree.1
  case mem_free => exact hfree.2
  case counts =>
    rw [hsameLive, hsameOrder]
    exact h.counts
  case room =>
    rw [hsameLive, hsameOrder]
    exact h.room
  case two_pow =>
    rw [hsameLive]
    exact h.two_pow

end Occupy

/-! ### Numbering slots -/

theorem held?_setSequence (slots : Array (Option (Slot α))) (i sequence j : Nat) :
    held? (setSequence slots i sequence) j = if j = i then
      (held? slots j).map fun s ↦ { s with sequence := sequence } else held? slots j :=
  held?_modify slots i _ j

/-- Numbers given to the slots of a list, from `first` on. -/
def numbered (slots : Array (Option (Slot α))) (indices : List Nat) (first : Nat) :
    Array (Option (Slot α)) :=
  (indices.zipIdx first).foldl (fun slots (i, q) ↦ setSequence slots i q) slots

theorem numbered_cons (slots : Array (Option (Slot α))) (i : Nat) (indices : List Nat)
    (first : Nat) : numbered slots (i :: indices) first =
      numbered (setSequence slots i first) indices (first + 1) := rfl

theorem size_numbered (slots : Array (Option (Slot α))) (indices : List Nat) (first : Nat) :
    (numbered slots indices first).size = slots.size := by
  induction indices generalizing slots first with
  | nil => rfl
  | cons i indices ih =>
    rw [numbered_cons, ih]
    exact Array.size_modify

theorem held?_numbered_of_not_mem (slots : Array (Option (Slot α))) (indices : List Nat)
    (first : Nat) {j : Nat} (hj : j ∉ indices) :
    held? (numbered slots indices first) j = held? slots j := by
  induction indices generalizing slots first with
  | nil => rfl
  | cons i indices ih =>
    rw [List.mem_cons, not_or] at hj
    rw [numbered_cons, ih _ _ hj.2, held?_setSequence, if_neg hj.1]

/-- In a list without repetition each slot gets its place in the list. -/
theorem held?_numbered (slots : Array (Option (Slot α))) (indices : List Nat) (first : Nat)
    (hnodup : indices.Nodup) {j place : Nat} (hj : indices[place]? = some j) :
    held? (numbered slots indices first) j =
      (held? slots j).map fun s ↦ { s with sequence := first + place } := by
  induction indices generalizing slots first place with
  | nil => simp at hj
  | cons i indices ih =>
    obtain ⟨hi, hnodup⟩ := List.nodup_cons.mp hnodup
    rw [numbered_cons]
    cases place with
    | zero =>
      obtain rfl : i = j := by simpa using hj
      rw [held?_numbered_of_not_mem _ _ _ hi, held?_setSequence, if_pos rfl, Nat.add_zero]
    | succ place =>
      have hmem : indices[place]? = some j := by simpa using hj
      have hne : j ≠ i := fun heq ↦ hi (heq ▸ List.mem_of_getElem? hmem)
      rw [ih _ _ hnodup hmem, held?_setSequence, if_neg hne]
      have hplace : first + 1 + place = first + (place + 1) := by omega
      rw [hplace]

/-- What does not look at the number of a slot is not changed by numbering. -/
theorem map_held?_numbered {β : Type*} {f : Slot α → β}
    (hf : ∀ s q, f { s with sequence := q } = f s) (slots : Array (Option (Slot α)))
    (indices : List Nat) (first j : Nat) :
    (held? (numbered slots indices first) j).map f = (held? slots j).map f := by
  induction indices generalizing slots first with
  | nil => rfl
  | cons i indices ih =>
    rw [numbered_cons, ih, held?_setSequence]
    split_ifs
    · simp [Function.comp_def, hf]
    · rfl

theorem renumber_eq (m : Raw α) : m.renumber =
    { m with
      slots := numbered m.slots m.ledger 0
      order := (m.ledger.map some).toArray
      live := Fenwick.ones (roomFor m.ledger.length m.live.size) m.ledger.length } := rfl

theorem sameLinks_renumber (m : Raw α) : SameLinks m m.renumber :=
  map_held?_numbered (fun _ _ ↦ rfl) m.slots m.ledger 0

@[simp] theorem ledger_renumber (m : Raw α) : m.renumber.ledger = m.ledger := by
  rw [renumber_eq]
  simp [ledger, List.filterMap_map]

theorem doubleUntil_eq (enough : Nat → Bool) (fuel n : Nat) :
    ∃ k, doubleUntil enough fuel n = n * 2 ^ k := by
  induction fuel generalizing n with
  | zero => exact ⟨0, by simp [doubleUntil]⟩
  | succ fuel ih =>
    rw [doubleUntil]
    split_ifs
    · exact ⟨0, by simp⟩
    · obtain ⟨k, hk⟩ := ih (n * 2)
      exact ⟨k + 1, by rw [hk, mul_assoc, ← pow_succ']⟩

/-- Doubling reaches a size that is large enough when the last doubling it may make does. -/
theorem doubleUntil_enough (enough : Nat → Bool) (fuel n : Nat)
    (h : enough (n * 2 ^ fuel) = true) : enough (doubleUntil enough fuel n) = true := by
  induction fuel generalizing n with
  | zero => simpa [doubleUntil] using h
  | succ fuel ih =>
    rw [doubleUntil]
    split_ifs with hn
    · exact hn
    · exact ih (n * 2) (by rw [mul_assoc, ← pow_succ']; exact h)

theorem roomFor_spec (count : Nat) {size : Nat} (hsize : 0 < size) :
    2 * (count + 1) ≤ roomFor count size ∧ ∃ k, roomFor count size = size * 2 ^ k := by
  have henough : decide (2 * (count + 1) ≤ size * 2 ^ (2 * (count + 1))) = true := by
    have hpow : 2 * (count + 1) < 2 ^ (2 * (count + 1)) := Nat.lt_two_pow_self
    exact decide_eq_true (hpow.le.trans (Nat.le_mul_of_pos_left _ hsize))
  have hroom := doubleUntil_enough (fun n ↦ 2 * (count + 1) ≤ n) _ size henough
  exact ⟨of_decide_eq_true hroom, doubleUntil_eq _ _ size⟩

theorem held?_order_renumber (m : Raw α) (i : Nat) : held? m.renumber.order i = m.ledger[i]? := by
  have horder : m.renumber.order = (m.ledger.map some).toArray := rfl
  rw [horder, held?, List.getElem?_toArray, List.getElem?_map]
  cases m.ledger[i]? <;> rfl

/-- A slot of the ledger gets its place there as its number. -/
theorem Arena.sequence_renumber {pending : Option Nat} {m : Raw α} (h : Arena pending m) {i : Nat}
    {s : Slot α} (hs : m.renumber.slot? i = some s) (hi : pending ≠ some i) :
    m.renumber.order[s.sequence]? = some (some i) := by
  obtain ⟨t, ht, -⟩ := (sameLinks_renumber m).of_slot? hs
  have hmem : i ∈ m.ledger := (h.mem_ledger i).mpr ⟨by simp [ht], hi⟩
  obtain ⟨place, hplace⟩ := List.mem_iff_getElem?.mp hmem
  have hnumber : m.renumber.slot? i = (m.slot? i).map fun s ↦ { s with sequence := 0 + place } :=
    held?_numbered m.slots m.ledger 0 h.nodup hplace
  rw [hs, ht] at hnumber
  obtain rfl := Option.some.inj hnumber
  refine getElem?_of_held? ?_
  rw [held?_order_renumber, Nat.zero_add, hplace]

/-- Renumbering keeps the arena and leaves room for another number. -/
theorem Arena.renumber {pending : Option Nat} {m : Raw α} (h : Arena pending m) :
    Arena pending m.renumber ∧ m.renumber.order.size < m.renumber.live.size := by
  have hlinks := sameLinks_renumber m
  obtain ⟨k, hk⟩ := h.two_pow
  obtain ⟨hroom, j, hj⟩ := roomFor_spec m.ledger.length (hk ▸ Nat.two_pow_pos k)
  have hlive : m.renumber.live =
      Fenwick.ones (roomFor m.ledger.length m.live.size) m.ledger.length := rfl
  have hsize : m.renumber.order.size = m.ledger.length := by simp [renumber_eq]
  have hless : m.renumber.order.size < m.renumber.live.size := by
    rw [hsize, hlive, Fenwick.size_ones]
    omega
  refine ⟨?_, hless⟩
  constructor
  case mem_ledger =>
    intro i
    rw [ledger_renumber, h.mem_ledger, hlinks.slot?_isSome]
  case nodup =>
    rw [ledger_renumber]
    exact h.nodup
  case sequence => exact fun i s hs hi ↦ h.sequence_renumber hs hi
  case hash => exact fun i s hs ↦ h.hash_of_sameLinks hlinks rfl hs
  case below =>
    intro front i back s hsplit hs
    rw [ledger_renumber] at hsplit
    exact h.below_of_sameLinks hlinks hsplit hs
  case free_nodup => exact h.free_nodup
  case mem_free =>
    intro i
    have hslots : m.renumber.slots.size = m.slots.size := size_numbered _ _ _
    rw [hslots, hlinks.slot?_eq_none_iff]
    exact h.mem_free i
  case counts =>
    have hcounts : (fun i ↦ if (held? m.renumber.order i).isSome then (1 : Int) else 0) =
        fun i ↦ if i < m.ledger.length then 1 else 0 := by
      funext i
      rw [held?_order_renumber]
      simp
    rw [hcounts, hlive]
    exact Fenwick.counts_ones _ _
  case room => exact hless.le
  case two_pow => exact ⟨k + j, by rw [hlive, Fenwick.size_ones, hj, hk, pow_add]⟩

/-! ### The next number -/

/-- A slot with the next number, when there is one. -/
def number (m : Raw α) (i : Nat) : Raw α :=
  { m with
    slots := setSequence m.slots i m.order.size
    order := m.order.push (some i)
    live := m.live.add m.order.size 1 }

theorem enroll_eq (m : Raw α) (i : Nat) :
    m.enroll i = (if m.order.size == m.live.size then m.renumber else m).number i := rfl

theorem slot?_number (m : Raw α) (i j : Nat) : (m.number i).slot? j = if j = i then
    (m.slot? j).map fun s ↦ { s with sequence := m.order.size } else m.slot? j :=
  held?_setSequence m.slots i m.order.size j

theorem ledger_number (m : Raw α) (i : Nat) : (m.number i).ledger = m.ledger ++ [i] := by
  simp [ledger, number]

theorem map_slot?_number {β : Type*} {f : Slot α → β}
    (hf : ∀ s q, f { s with sequence := q } = f s) (m : Raw α) (i j : Nat) :
    ((m.number i).slot? j).map f = (m.slot? j).map f := by
  rw [slot?_number]
  split_ifs
  · simp [Function.comp_def, hf]
  · rfl

theorem map_slot?_enroll {β : Type*} {f : Slot α → β}
    (hf : ∀ s q, f { s with sequence := q } = f s) (m : Raw α) (i j : Nat) :
    ((m.enroll i).slot? j).map f = (m.slot? j).map f := by
  rw [enroll_eq, map_slot?_number hf]
  split_ifs
  · exact map_held?_numbered hf m.slots m.ledger 0 j
  · rfl

theorem sameLinks_enroll (m : Raw α) (i : Nat) : SameLinks m (m.enroll i) :=
  map_slot?_enroll (fun _ _ ↦ rfl) m i

/-- A place of the order array that is filled or emptied is counted in the tree. -/
theorem counts_place {live : Fenwick} {order order' : Array (Option Nat)} {place : Nat}
    {entry : Option Nat} {delta : Int}
    (h : live.Counts fun i ↦ if (held? order i).isSome then 1 else 0)
    (horder : ∀ i, held? order' i = if i = place then entry else held? order i)
    (hdelta : (if entry.isSome then 1 else 0) =
      (if (held? order place).isSome then 1 else 0) + delta) :
    (live.add place delta).Counts fun i ↦ if (held? order' i).isSome then 1 else 0 := by
  have hcounts : (fun i ↦ if (held? order' i).isSome then (1 : Int) else 0) =
      Function.update (fun i ↦ if (held? order i).isSome then 1 else 0) place
        ((if (held? order place).isSome then 1 else 0) + delta) := by
    funext i
    rw [horder, Function.update_apply, ← hdelta]
    by_cases hi : i = place
    · simp [hi]
    · simp [hi]
  rw [hcounts]
  exact h.add place delta

section Number

variable {m : Raw α} {i : Nat}

theorem held?_order_number (m : Raw α) (i j : Nat) :
    held? (m.number i).order j = if j = m.order.size then some i else held? m.order j :=
  held?_push m.order (some i) j

theorem Arena.sequence_number (h : Arena (some i) m) {j : Nat} {s : Slot α}
    (hs : (m.number i).slot? j = some s) : (m.number i).order[s.sequence]? = some (some j) := by
  refine getElem?_of_held? ?_
  rw [held?_order_number]
  rw [slot?_number] at hs
  split_ifs at hs with hj
  · obtain ⟨t, -, rfl⟩ := Option.map_eq_some_iff.mp hs
    rw [hj]
    exact if_pos rfl
  · have hold := h.sequence j s hs fun heq ↦ hj (Option.some.inj heq).symm
    have hentry : held? m.order s.sequence = some j := by simp [held?, hold]
    rw [if_neg (lt_size_of_held? hentry).ne, hentry]

/-- Assumes: a number is left, and the pending slot points at the last slot with its key. -/
theorem Arena.number (h : Arena (some i) m) {t : Slot α}
    (ht : m.slot? i = some t) (hbelow : t.below = m.lastWith t.key m.ledger)
    (hroom : m.order.size < m.live.size) : Arena none (m.number i) := by
  have hlinks : SameLinks m (m.number i) := map_slot?_number (fun _ _ ↦ rfl) m i
  have hledger := ledger_number m i
  have hfresh : i ∉ m.ledger := fun hmem ↦ ((h.mem_ledger i).mp hmem).2 rfl
  have hempty : held? m.order m.order.size = none := held?_eq_none_of_le (le_refl _)
  constructor
  case mem_ledger =>
    intro j
    rw [hledger, List.mem_append, List.mem_singleton, h.mem_ledger, hlinks.slot?_isSome]
    by_cases hj : j = i
    · simp [hj, ht]
    · simp [hj, Ne.symm hj]
  case nodup =>
    rw [hledger, ← List.concat_eq_append]
    exact h.nodup.concat hfresh
  case sequence => exact fun j s hs _ ↦ h.sequence_number hs
  case hash => exact fun j s hs ↦ h.hash_of_sameLinks hlinks rfl hs
  case below =>
    intro front j back s hsplit hs
    rw [hledger] at hsplit
    rcases List.eq_nil_or_concat back with rfl | ⟨back, last, rfl⟩
    · obtain ⟨rfl, hij⟩ := List.append_inj' hsplit rfl
      obtain rfl := (List.cons.inj hij).1
      obtain ⟨r, hr, hkey, -, hsame⟩ := hlinks.of_slot? hs
      obtain rfl := Option.some.inj (ht.symm.trans hr)
      rw [hsame, hkey, hlinks.lastWith]
      exact hbelow
    · have hsplit : m.ledger ++ [i] = (front ++ j :: back) ++ [last] := by simpa using hsplit
      exact h.below_of_sameLinks hlinks (List.append_inj' hsplit rfl).1 hs
  case free_nodup => exact h.free_nodup
  case mem_free =>
    intro j
    have hslots : (m.number i).slots.size = m.slots.size := Array.size_modify
    rw [hslots, hlinks.slot?_eq_none_iff]
    exact h.mem_free j
  case counts => exact counts_place h.counts (held?_order_number m i) (by simp [hempty])
  case room =>
    have hsize : (m.number i).order.size = m.order.size + 1 := Array.size_push ..
    have hlive : (m.number i).live.size = m.live.size := Fenwick.size_add ..
    omega
  case two_pow =>
    obtain ⟨k, hk⟩ := h.two_pow
    exact ⟨k, (Fenwick.size_add ..).trans hk⟩

end Number

/-- Assumes: the pending slot points at the last slot with its key. Numbering it puts it at the
end of the ledger. -/
theorem Arena.enroll {m : Raw α} {i : Nat} (h : Arena (some i) m) {t : Slot α}
    (ht : m.slot? i = some t) (hbelow : t.below = m.lastWith t.key m.ledger) :
    Arena none (m.enroll i) ∧ (m.enroll i).ledger = m.ledger ++ [i] := by
  rw [enroll_eq]
  by_cases hfull : m.order.size = m.live.size
  · rw [if_pos (beq_iff_eq.mpr hfull)]
    have hlinks := sameLinks_renumber m
    obtain ⟨harena, hroom⟩ := h.renumber
    obtain ⟨r, hr⟩ := Option.isSome_iff_exists.mp ((hlinks.slot?_isSome i).trans (by simp [ht]))
    obtain ⟨t', ht', hkey, -, hsame⟩ := hlinks.of_slot? hr
    obtain rfl := Option.some.inj (ht.symm.trans ht')
    have hpoints : r.below = m.renumber.lastWith r.key m.renumber.ledger := by
      rw [hsame, hkey, hlinks.lastWith, ledger_renumber]
      exact hbelow
    refine ⟨harena.number hr hpoints hroom, ?_⟩
    rw [ledger_number, ledger_renumber]
  · rw [if_neg (mt beq_iff_eq.mp hfull)]
    have hroom : m.order.size < m.live.size := lt_of_le_of_ne h.room hfull
    exact ⟨h.number ht hbelow hroom, ledger_number m i⟩

/-! ### Removing the last slot of a key -/

theorem lastWith_append_of_absent {m : Raw α} {key : String} {back : List Nat}
    (hback : ∀ j ∈ back, m.hasKey key j = false) (front : List Nat) :
    m.lastWith key (front ++ back) = m.lastWith key front := by
  have hnone : back.reverse.find? (m.hasKey key) = none :=
    List.find?_eq_none.mpr fun j hj ↦ by simp [hback j (List.mem_reverse.mp hj)]
  simp [lastWith, List.find?_append, hnone]

theorem lastWith_skip {m : Raw α} {key : String} {i : Nat} (hi : m.hasKey key i = false)
    (front back : List Nat) :
    m.lastWith key (front ++ i :: back) = m.lastWith key (front ++ back) := by
  simp [lastWith, List.find?_append, hi]

/-- An element of a list that was put together lies in one of the two parts. -/
theorem append_eq_append_cons {β : Type u} {front back front' back' : List β} {x : β}
    (h : front ++ back = front' ++ x :: back') :
    (∃ mid, front' = front ++ mid ∧ back = mid ++ x :: back') ∨
      ∃ mid, front = front' ++ x :: mid ∧ back' = mid ++ back := by
  rcases List.append_eq_append_iff.mp h with ⟨mid, hfront, hback⟩ | ⟨mid, hfront, hback⟩
  · exact .inl ⟨mid, hfront, hback⟩
  · cases mid with
    | nil => exact .inl ⟨[], by simpa using hfront.symm, by simpa using hback.symm⟩
    | cons y mid =>
      obtain ⟨rfl, hrest⟩ := List.cons.inj hback
      exact .inr ⟨mid, hfront, hrest⟩

/-- A map without a slot, the table apart. -/
def remove (m : Raw α) (i : Nat) (s : Slot α) : Raw α :=
  { m with
    slots := m.slots.setIfInBounds i none
    free := i :: m.free
    order := m.order.setIfInBounds s.sequence none
    live := m.live.add s.sequence (-1) }

section Remove

variable {m : Raw α} {i : Nat} {s : Slot α}

theorem slot?_remove (hs : m.slot? i = some s) (j : Nat) :
    (m.remove i s).slot? j = if j = i then none else m.slot? j :=
  held?_set (lt_size_of_held? hs) none j

theorem hasKey_remove (hs : m.slot? i = some s) (key : String) {j : Nat} (hj : j ≠ i) :
    (m.remove i s).hasKey key j = m.hasKey key j := by
  unfold hasKey
  rw [slot?_remove hs, if_neg hj]

/-- Emptying the place of a slot takes the slot out of the ledger and moves none of the others. -/
theorem ledger_remove (h : Arena none m) (hs : m.slot? i = some s) {front back : List Nat}
    (hsplit : m.ledger = front ++ i :: back) : (m.remove i s).ledger = front ++ back := by
  have hplace := h.sequence i s hs (by simp)
  have hlt : s.sequence < m.order.toList.length := by
    rw [Array.length_toList]
    exact lt_size_of_held? (Option.join_eq_some_iff.mpr hplace)
  obtain ⟨before, later, horder, -, hset⟩ := List.exists_of_set hlt (α := Option Nat)
  have hat : m.order.toList[s.sequence] = some i := by
    rw [← Array.getElem?_toList, List.getElem?_eq_getElem hlt] at hplace
    exact Option.some.inj hplace
  rw [hat] at horder
  have hledger : m.ledger = before.filterMap id ++ i :: later.filterMap id := by
    rw [ledger, horder]
    simp
  have hremove : (m.remove i s).ledger = before.filterMap id ++ later.filterMap id := by
    have htoList : (m.remove i s).order.toList = m.order.toList.set s.sequence none :=
      Array.toList_setIfInBounds ..
    rw [ledger, htoList, hset]
    simp
  have hfront : i ∉ front := fun hmem ↦
    h.not_mem_of_split hsplit (List.mem_append_left _ hmem)
  have hbefore : i ∉ before.filterMap id := fun hmem ↦
    h.not_mem_of_split hledger (List.mem_append_left _ hmem)
  have herase : (before.filterMap id ++ i :: later.filterMap id).erase i =
      (front ++ i :: back).erase i := by rw [← hledger, hsplit]
  rw [List.erase_append_right _ hfront, List.erase_append_right _ hbefore, List.erase_cons_head,
    List.erase_cons_head] at herase
  rw [hremove, herase]

theorem held?_order_remove (h : Arena none m) (hs : m.slot? i = some s) (place : Nat) :
    held? m.order s.sequence = some i ∧
      held? (m.remove i s).order place =
        if place = s.sequence then none else held? m.order place := by
  have hentry : held? m.order s.sequence = some i := by simp [held?, h.sequence i s hs (by simp)]
  exact ⟨hentry, held?_set (lt_size_of_held? hentry) none place⟩

theorem Arena.sequence_remove (h : Arena none m) (hs : m.slot? i = some s) {j : Nat} {r : Slot α}
    (hr : (m.remove i s).slot? j = some r) :
    (m.remove i s).order[r.sequence]? = some (some j) := by
  rw [slot?_remove hs] at hr
  split_ifs at hr with hj
  obtain ⟨hentry, horder⟩ := held?_order_remove h hs r.sequence
  have hold : held? m.order r.sequence = some j := by
    simp [held?, h.sequence j r hr (by simp)]
  have hne : r.sequence ≠ s.sequence := fun heq ↦ by
    rw [heq, hentry] at hold
    exact hj (Option.some.inj hold).symm
  refine getElem?_of_held? ?_
  rw [horder, if_neg hne, hold]

/-- Assumes: the slot is the last one with its key. The slots that are left point where they did. -/
theorem Arena.below_remove (h : Arena none m) (hs : m.slot? i = some s) {front back : List Nat}
    (hsplit : m.ledger = front ++ i :: back) (hback : ∀ j ∈ back, m.hasKey s.key j = false)
    {front' back' : List Nat} {j : Nat} {r : Slot α}
    (hsplit' : (m.remove i s).ledger = front' ++ j :: back')
    (hr : (m.remove i s).slot? j = some r) :
    r.below = (m.remove i s).lastWith r.key front' := by
  rw [ledger_remove h hs hsplit] at hsplit'
  rw [slot?_remove hs] at hr
  split_ifs at hr with hj
  have hkeep : (m.remove i s).lastWith r.key front' = m.lastWith r.key front' := by
    refine lastWith_congr fun k hk ↦ hasKey_remove hs r.key ?_
    rintro rfl
    exact h.not_mem_of_split hsplit (by rw [hsplit']; exact List.mem_append_left _ hk)
  rw [hkeep]
  rcases append_eq_append_cons hsplit' with ⟨x, rfl, hx⟩ | ⟨x, hx, rfl⟩
  · have hother : m.hasKey r.key i = false := by
      have hkey := hback j (by simp [hx])
      rw [hasKey_of_slot? hr] at hkey
      rw [hasKey_of_slot? hs]
      exact beq_eq_false_iff_ne.mpr fun heq ↦ beq_eq_false_iff_ne.mp hkey heq.symm
    rw [← lastWith_skip hother]
    exact h.below (front ++ i :: x) j back' r (by rw [hsplit, hx]; simp) hr
  · exact h.below front' j (x ++ i :: back) r (by rw [hsplit, hx]; simp) hr

/-- Assumes: the slot is the last one with its key, so that no other slot points at it. -/
theorem Arena.remove (h : Arena none m) (hs : m.slot? i = some s)
    (hlast : m.lastWith s.key m.ledger = some i) : Arena none (m.remove i s) := by
  obtain ⟨-, front, back, hsplit, hback⟩ := lastWith_eq_some_iff.mp hlast
  have hledger := ledger_remove h hs hsplit
  have hslot := slot?_remove hs
  constructor
  case mem_ledger =>
    intro j
    have hmem := h.mem_ledger j
    rw [hsplit] at hmem
    rw [hledger, hslot]
    by_cases hj : j = i
    · subst hj
      simpa using h.not_mem_of_split hsplit
    · simpa [hj] using hmem
  case nodup =>
    have hnodup := h.nodup
    rw [hsplit] at hnodup
    rw [hledger]
    exact (List.nodup_cons.mp (List.nodup_middle.mp hnodup)).2
  case sequence => exact fun j r hr _ ↦ h.sequence_remove hs hr
  case hash =>
    intro j r hr
    rw [hslot] at hr
    split_ifs at hr
    exact h.hash j r hr
  case below => exact fun front' j back' r ↦ h.below_remove hs hsplit hback
  case free_nodup =>
    refine List.nodup_cons.mpr ⟨fun hmem ↦ ?_, h.free_nodup⟩
    exact absurd (hs.symm.trans ((h.mem_free i).mp hmem).2) (by simp)
  case mem_free =>
    intro j
    have hsize : (m.remove i s).slots.size = m.slots.size := Array.size_setIfInBounds
    have hfree : j ∈ (m.remove i s).free ↔ j = i ∨ j ∈ m.free := List.mem_cons
    rw [hsize, hslot, hfree, h.mem_free]
    by_cases hj : j = i
    · simpa [hj] using lt_size_of_held? hs
    · simp [hj]
  case counts =>
    have hentry := (held?_order_remove h hs s.sequence).1
    exact counts_place h.counts (fun place ↦ (held?_order_remove h hs place).2) (by simp [hentry])
  case room =>
    have hsize : (m.remove i s).order.size = m.order.size := Array.size_setIfInBounds
    have hlive : (m.remove i s).live.size = m.live.size := Fenwick.size_add ..
    have hroom := h.room
    omega
  case two_pow =>
    obtain ⟨k, hk⟩ := h.two_pow
    exact ⟨k, (Fenwick.size_add ..).trans hk⟩

end Remove

/-! ### Changing a value or the table -/

/-- The arena does not look at the table. -/
theorem Arena.retable {m : Raw α} (h : Arena none m) (buckets : Array (Option Nat))
    (keyCount size : Nat) :
    Arena none { m with buckets := buckets, keyCount := keyCount, size := size } :=
  ⟨h.mem_ledger, h.nodup, h.sequence, h.hash, h.below, h.free_nodup, h.mem_free, h.counts, h.room,
    h.two_pow⟩

/-- Assumes: the slots agree in their links and numbers, and all else but the table is the same. -/
theorem Arena.of_sameLinks {m m' : Raw α} (h : Arena none m) (hlinks : SameLinks m m')
    (hhash : m'.hash = m.hash) (hfree : m'.free = m.free) (horder : m'.order = m.order)
    (hlive : m'.live = m.live) (hsize : m'.slots.size = m.slots.size)
    (hsequence : ∀ i, (m'.slot? i).map (·.sequence) = (m.slot? i).map (·.sequence)) :
    Arena none m' := by
  have hledger : m'.ledger = m.ledger := congrArg (fun order ↦ order.toList.filterMap id) horder
  constructor
  case mem_ledger =>
    intro i
    rw [hledger, hlinks.slot?_isSome]
    exact h.mem_ledger i
  case nodup =>
    rw [hledger]
    exact h.nodup
  case sequence =>
    intro i s hs hne
    obtain ⟨t, ht, heq⟩ : ∃ t, m.slot? i = some t ∧ t.sequence = s.sequence := by
      have hi := hsequence i
      rw [hs, Option.map_some] at hi
      exact Option.map_eq_some_iff.mp hi.symm
    rw [horder, ← heq]
    exact h.sequence i t ht hne
  case hash => exact fun i s hs ↦ h.hash_of_sameLinks hlinks hhash hs
  case below =>
    intro front i back s hsplit hs
    rw [hledger] at hsplit
    exact h.below_of_sameLinks hlinks hsplit hs
  case free_nodup =>
    rw [hfree]
    exact h.free_nodup
  case mem_free =>
    intro i
    rw [hfree, hsize, hlinks.slot?_eq_none_iff]
    exact h.mem_free i
  case counts =>
    rw [hlive, horder]
    exact h.counts
  case room =>
    rw [hlive, horder]
    exact h.room
  case two_pow =>
    rw [hlive]
    exact h.two_pow

theorem slot?_setValue (m : Raw α) (i : Nat) (value : α) (j : Nat) :
    ({ m with slots := setValue m.slots i value } : Raw α).slot? j = if j = i then
      (m.slot? j).map fun s ↦ { s with value := value } else m.slot? j :=
  held?_modify m.slots i _ j

theorem sameLinks_setValue (m : Raw α) (i : Nat) (value : α) :
    SameLinks m { m with slots := setValue m.slots i value } := by
  intro j
  rw [slot?_setValue]
  split_ifs
  · simp [Function.comp_def]
  · rfl

theorem Arena.setValue {m : Raw α} (h : Arena none m) (i : Nat) (value : α) :
    Arena none { m with slots := setValue m.slots i value } := by
  refine h.of_sameLinks (sameLinks_setValue m i value) rfl rfl rfl rfl Array.size_modify fun j ↦ ?_
  rw [slot?_setValue]
  split_ifs
  · simp [Function.comp_def]
  · rfl

end TokenLang.StackMap.Raw

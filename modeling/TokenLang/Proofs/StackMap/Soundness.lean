import TokenLang.Proofs.StackMap.Arena

/-!
The invariant of stack maps. `Sound` joins the arena of slots with the probe table: the table
points at exactly one slot for every bound key, the last one with that key in the ledger, and is
never more than five eighths full. A search then ends at one bucket, which holds the visible
binding of the key or is the empty one where it would go (`Sound.find`). A new map is sound
(`sound_new`), and pushing, popping and setting keep a map sound (`Sound.push`, `Sound.pop`,
`Sound.set`), so every reachable map is (`Reachable.sound`). None of them changes the hash.

The bindings of a map are what its slots hold, in the order of the ledger. With the invariant
each operation says what it does to them: `bindings_push`, `Sound.pop_eq`, `Sound.set_eq`.
-/

set_option autoImplicit false
set_option relaxedAutoImplicit false

universe u

namespace TokenLang.StackMap.Raw

variable {α : Type u}

/-- The slot of the visible binding of a key. -/
def top (m : Raw α) (key : String) : Option Nat := m.lastWith key m.ledger

/-- The table points at the visible bindings, each where a search for its key finds it. -/
structure Indexed (m : Raw α) : Prop where
  settled : Settled (homeOf m.slots m.buckets.size) m.buckets
  unrepeated : Unrepeated m.buckets
  holds : ∀ i, (∃ b, held? m.buckets b = some i) ↔ ∃ key, m.top key = some i

structure Sound (m : Raw α) : Prop where
  arena : Arena none m
  indexed : Indexed m
  keys : m.keyCount = filledCount m.buckets
  load : m.keyCount * 8 ≤ m.buckets.size * 5
  buckets : ∃ k, 4 ≤ k ∧ m.buckets.size = 2 ^ k
  size : m.size = m.ledger.length

/-! ### Searching -/

theorem slot?_of_top {m : Raw α} {key : String} {i : Nat} (h : m.top key = some i) :
    ∃ s, m.slot? i = some s ∧ s.key = key :=
  hasKey_iff.mp (lastWith_eq_some_iff.mp h).1

theorem mem_ledger_of_top {m : Raw α} {key : String} {i : Nat} (h : m.top key = some i) :
    i ∈ m.ledger := by
  obtain ⟨-, front, back, hsplit, -⟩ := lastWith_eq_some_iff.mp h
  rw [hsplit]
  simp

/-- A slot is the visible one of its own key only. -/
theorem eq_of_top {m : Raw α} {key key' : String} {i : Nat} (h : m.top key = some i)
    (h' : m.top key' = some i) : key = key' := by
  obtain ⟨s, hs, hkey⟩ := slot?_of_top h
  obtain ⟨t, ht, hkey'⟩ := slot?_of_top h'
  obtain rfl := Option.some.inj (hs.symm.trans ht)
  exact hkey.symm.trans hkey'

/-- A bucket where the search for a key ends: it holds the visible binding or is empty, and no
bucket on the way to it is empty. -/
structure Ends (m : Raw α) (key : String) (b : Nat) : Prop where
  lt : b < m.buckets.size
  entry : held? m.buckets b = m.top key
  way : ∀ x, x < m.buckets.size →
    distance m.buckets.size (home m.buckets.size (m.hash key)) x <
      distance m.buckets.size (home m.buckets.size (m.hash key)) b → held? m.buckets x ≠ none

section Search

variable {m : Raw α} (h : Sound m)
include h

theorem Sound.buckets_pos : 0 < m.buckets.size := by
  obtain ⟨k, -, hk⟩ := h.buckets
  rw [hk]
  exact Nat.two_pow_pos k

theorem Sound.room : filledCount m.buckets < m.buckets.size := by
  have hpos := h.buckets_pos
  have hload := h.load
  rw [h.keys] at hload
  omega

theorem Sound.homeOf_top {key : String} {i : Nat} (htop : m.top key = some i) (n : Nat) :
    homeOf m.slots n i = home n (m.hash key) := by
  obtain ⟨s, hs, rfl⟩ := slot?_of_top htop
  rw [homeOf_of_slot? hs, h.arena.hash i s hs]

/-- The search for a key ends at one bucket and tells whether the key is bound. -/
theorem Sound.find (key : String) : ∃ b, m.Ends key b ∧ m.find key =
    match m.top key with
    | some i => .taken b i
    | none => .vacant b := by
  have hfound : m.Found key (m.find key) := by
    refine found_find key h.indexed.settled h.room fun b i hb ↦ ?_
    obtain ⟨key', htop⟩ := (h.indexed.holds i).mp ⟨b, hb⟩
    obtain ⟨s, hs, -⟩ := slot?_of_top htop
    exact ⟨s, hs, h.arena.hash i s hs⟩
  cases hfind : m.find key with
  | taken b i =>
    rw [hfind] at hfound
    obtain ⟨hentry, s, hs, hkey⟩ := hfound
    obtain ⟨key', htop⟩ := (h.indexed.holds i).mp ⟨b, hentry⟩
    obtain ⟨t, ht, hkey'⟩ := slot?_of_top htop
    obtain rfl := Option.some.inj (hs.symm.trans ht)
    obtain rfl := hkey.symm.trans hkey'
    refine ⟨b, ⟨lt_size_of_held? hentry, hentry.trans htop.symm, fun x hx hcloser ↦ ?_⟩, ?_⟩
    · rw [← h.homeOf_top htop] at hcloser
      exact h.indexed.settled b i hentry x hx hcloser
    · rw [htop]
  | vacant b =>
    rw [hfind] at hfound
    obtain ⟨hlt, hempty, hway, habsent⟩ := hfound
    have htop : m.top key = none := by
      cases htop : m.top key with
      | none => rfl
      | some i =>
        obtain ⟨c, hc⟩ := (h.indexed.holds i).mpr ⟨key, htop⟩
        obtain ⟨s, hs, hkey⟩ := slot?_of_top htop
        exact absurd hkey (habsent c i s hc hs)
    exact ⟨b, ⟨hlt, hempty.trans htop.symm, hway⟩, by rw [htop]⟩

end Search

/-! ### Changing what the table points at -/

theorem Settled.congr {home home' : Nat → Nat} {buckets : Array (Option Nat)}
    (h : Settled home buckets)
    (hsame : ∀ b i, held? buckets b = some i → home' i = home i) : Settled home' buckets := by
  intro b i hb x hx hcloser
  rw [hsame b i hb] at hcloser
  exact h b i hb x hx hcloser

/-- Assumes: a search that ended at the bucket `b`. The visible binding of another key stands in
another bucket, and the one of the key stands there. -/
theorem Indexed.bucket_ne_iff {m : Raw α} (h : Indexed m) {key key' : String} {b c j : Nat}
    (hends : m.Ends key b) (hc : held? m.buckets c = some j) (htop : m.top key' = some j) :
    c ≠ b ↔ key' ≠ key := by
  refine not_congr ⟨?_, ?_⟩
  · rintro rfl
    exact eq_of_top htop (hends.entry.symm.trans hc)
  · rintro rfl
    exact h.unrepeated c b j hc (hends.entry.trans htop)

/-- Assumes: a slot with the home of a key is put where the search for the key ended, and it is
the visible one of the key from then on. -/
theorem Indexed.redirect {m m' : Raw α} (h : Indexed m) {key : String} {b i : Nat}
    (hends : m.Ends key b) (hbuckets : m'.buckets = m.buckets.setIfInBounds b (some i))
    (hhome : homeOf m'.slots m.buckets.size i = home m.buckets.size (m.hash key))
    (hkeep : ∀ c j, c ≠ b → held? m.buckets c = some j →
      j ≠ i ∧ homeOf m'.slots m.buckets.size j = homeOf m.slots m.buckets.size j)
    (htop : ∀ key', m'.top key' = if key' = key then some i else m.top key') : Indexed m' := by
  have hset := held?_set hends.lt (some i)
  have hsize : m'.buckets.size = m.buckets.size := by rw [hbuckets, Array.size_setIfInBounds]
  constructor
  case settled =>
    rw [hsize, hbuckets]
    refine h.settled.insert hends.lt (fun c j hcb hc ↦ (hkeep c j hcb hc).2) ?_
    rw [hhome]
    exact hends.way
  case unrepeated =>
    rw [hbuckets]
    exact h.unrepeated.insert hends.lt fun c hcb hc ↦ (hkeep c i hcb hc).1 rfl
  case holds =>
    intro j
    rw [hbuckets]
    constructor
    · rintro ⟨c, hc⟩
      rw [hset] at hc
      split_ifs at hc with hcb
      · exact ⟨key, by rw [htop, if_pos rfl, hc]⟩
      · obtain ⟨key', hkey'⟩ := (h.holds j).mp ⟨c, hc⟩
        have hne := (h.bucket_ne_iff hends hc hkey').mp hcb
        exact ⟨key', by rw [htop, if_neg hne, hkey']⟩
    · rintro ⟨key', hkey'⟩
      rw [htop] at hkey'
      split_ifs at hkey' with hkey
      · exact ⟨b, by rw [hset, if_pos rfl, hkey']⟩
      · obtain ⟨c, hc⟩ := (h.holds j).mpr ⟨key', hkey'⟩
        have hcb := (h.bucket_ne_iff hends hc hkey').mpr hkey
        exact ⟨c, by rw [hset, if_neg hcb, hc]⟩

/-- Assumes: the bucket of a key was emptied, and the key is not bound from then on. -/
theorem Indexed.withdraw {m m' : Raw α} (h : Indexed m) {key : String} {b : Nat}
    (hends : m.Ends key b)
    (hclosed : Closed (homeOf m.slots m.buckets.size) m.buckets b m'.buckets)
    (hkeep : ∀ c j, c ≠ b → held? m.buckets c = some j →
      homeOf m'.slots m.buckets.size j = homeOf m.slots m.buckets.size j)
    (htop : ∀ key', m'.top key' = if key' = key then none else m.top key') : Indexed m' := by
  constructor
  case settled =>
    rw [hclosed.size_eq]
    refine hclosed.settled.congr fun c j hc ↦ ?_
    obtain ⟨d, hdb, hd⟩ := (hclosed.entries j).mp ⟨c, hc⟩
    exact hkeep d j hdb hd
  case unrepeated => exact hclosed.unrepeated
  case holds =>
    intro j
    rw [hclosed.entries]
    constructor
    · rintro ⟨c, hcb, hc⟩
      obtain ⟨key', hkey'⟩ := (h.holds j).mp ⟨c, hc⟩
      have hne := (h.bucket_ne_iff hends hc hkey').mp hcb
      exact ⟨key', by rw [htop, if_neg hne, hkey']⟩
    · rintro ⟨key', hkey'⟩
      rw [htop] at hkey'
      split_ifs at hkey' with hkey
      obtain ⟨c, hc⟩ := (h.holds j).mpr ⟨key', hkey'⟩
      exact ⟨c, (h.bucket_ne_iff hends hc hkey').mpr hkey, hc⟩

/-! ### What the bindings are -/

/-- The key and the value that a slot holds. -/
def binding? (m : Raw α) (i : Nat) : Option (String × α) :=
  (m.slot? i).map fun s ↦ (s.key, s.value)

/-- All live bindings in the order of insertion. -/
def bindings (m : Raw α) : List (String × α) := m.ledger.filterMap m.binding?

theorem homeOf_congr {m m' : Raw α} {i : Nat} (h : m'.slot? i = m.slot? i) (n : Nat) :
    homeOf m'.slots n i = homeOf m.slots n i := by
  unfold slot? at h
  unfold homeOf
  rw [h]

/-! ### Pushing -/

/-- The slot of a new binding, before it has a number. -/
def newSlot (m : Raw α) (key : String) (value : α) : Slot α :=
  ⟨key, m.hash key, value, m.top key, 0⟩

/-- Where the slot of a new binding goes. -/
def newIndex (m : Raw α) (key : String) (value : α) : Nat := (m.occupy (m.newSlot key value)).2

/-- A map with one binding more, whose slot is put into a bucket, before the keys are counted. -/
def entered (m : Raw α) (key : String) (value : α) (b : Nat) : Raw α :=
  ((m.occupy (m.newSlot key value)).1.enroll (m.newIndex key value)).link b
    (m.newIndex key value)

theorem Sound.push_eq {m : Raw α} (h : Sound m) (key : String) (value : α) :
    ∃ b, m.Ends key b ∧ m.push key value =
      if (m.top key).isSome then m.entered key value b else (m.entered key value b).addKey := by
  obtain ⟨b, hends, hfind⟩ := h.find key
  refine ⟨b, hends, ?_⟩
  have hlocate : m.locate key (m.hash key) = _ := hfind
  unfold push entered newIndex newSlot
  dsimp only
  rw [hlocate]
  cases m.top key <;> rfl

theorem occupy_buckets (m : Raw α) (s : Slot α) :
    (m.occupy s).1.buckets = m.buckets ∧ (m.occupy s).1.keyCount = m.keyCount ∧
      (m.occupy s).1.size = m.size := by
  rcases m with ⟨hash, buckets, slots, free, order, live, keyCount, size⟩
  cases free <;> exact ⟨rfl, rfl, rfl⟩

theorem enroll_buckets (m : Raw α) (i : Nat) :
    (m.enroll i).buckets = m.buckets ∧ (m.enroll i).keyCount = m.keyCount ∧
      (m.enroll i).size = m.size := by
  rw [enroll_eq]
  split_ifs <;> exact ⟨rfl, rfl, rfl⟩

/-- What entering a binding does to the table and the counts. -/
theorem entered_buckets (m : Raw α) (key : String) (value : α) (b : Nat) :
    (m.entered key value b).buckets =
        m.buckets.setIfInBounds b (some (m.newIndex key value)) ∧
      (m.entered key value b).keyCount = m.keyCount ∧
      (m.entered key value b).size = m.size + 1 := by
  obtain ⟨hbuckets, hkeys, hsize⟩ := occupy_buckets m (m.newSlot key value)
  obtain ⟨hbuckets', hkeys', hsize'⟩ :=
    enroll_buckets (m.occupy (m.newSlot key value)).1 (m.newIndex key value)
  unfold entered link
  simp only [hbuckets', hbuckets, hkeys', hkeys, hsize', hsize, and_self]

section Push

variable {m : Raw α} (h : Sound m) (key : String) (value : α) {b : Nat}
include h

theorem Sound.newIndex_not_mem : m.newIndex key value ∉ m.ledger := by
  intro hmem
  have hsome := ((h.arena.mem_ledger _).mp hmem).1
  have hnone : m.slot? (m.newIndex key value) = none := slot?_occupy_index h.arena _
  rw [hnone] at hsome
  exact absurd hsome (by simp)

theorem Sound.slot?_filled (j : Nat) : (m.occupy (m.newSlot key value)).1.slot? j =
    if j = m.newIndex key value then some (m.newSlot key value) else m.slot? j :=
  slot?_occupy h.arena _ j

theorem Sound.slot?_filled_of_mem {j : Nat} (hj : j ∈ m.ledger) :
    (m.occupy (m.newSlot key value)).1.slot? j = m.slot? j := by
  rw [h.slot?_filled, if_neg]
  rintro rfl
  exact h.newIndex_not_mem key value hj

/-- A map with one binding more keeps its arena, and the binding is the last one. -/
theorem Sound.arena_entered (b : Nat) : Arena none (m.entered key value b) ∧
    (m.entered key value b).ledger = m.ledger ++ [m.newIndex key value] ∧
    (m.entered key value b).bindings = m.bindings ++ [(key, value)] ∧
    ∀ key', (m.entered key value b).top key' =
      if key' = key then some (m.newIndex key value) else m.top key' := by
  set i := m.newIndex key value with hindex
  set filled := (m.occupy (m.newSlot key value)).1 with hfilled
  have hpending : Arena (some i) filled := h.arena.occupy rfl
  have hi : filled.slot? i = some (m.newSlot key value) := by
    rw [hfilled, h.slot?_filled, if_pos rfl]
  have hother : ∀ j ∈ m.ledger, filled.slot? j = m.slot? j := fun j hj ↦
    h.slot?_filled_of_mem key value hj
  have hlast : ∀ key', filled.lastWith key' m.ledger = m.top key' := fun key' ↦
    lastWith_congr fun j hj ↦ by unfold hasKey; rw [hother j hj]
  have hledgerFilled : filled.ledger = m.ledger := ledger_occupy m _
  obtain ⟨harena, hledger⟩ := hpending.enroll hi (by rw [hledgerFilled, hlast]; rfl)
  have hledger' : (m.entered key value b).ledger = m.ledger ++ [i] := by
    rw [← hledgerFilled]
    exact hledger
  refine ⟨harena.retable _ _ _, hledger', ?_, fun key' ↦ ?_⟩
  · have hbinding : ∀ j, (m.entered key value b).binding? j = filled.binding? j :=
      map_slot?_enroll (fun _ _ ↦ rfl) filled i
    have hold : m.ledger.filterMap (m.entered key value b).binding? = m.bindings :=
      List.filterMap_congr fun j hj ↦ by rw [hbinding, binding?, hother j hj, ← binding?]
    have hnew : (m.entered key value b).binding? i = some (key, value) := by
      rw [hbinding, binding?, hi]
      rfl
    rw [bindings, hledger', List.filterMap_append, hold, List.filterMap_cons_some hnew,
      List.filterMap_nil]
  · have hlinks : SameLinks filled (m.entered key value b) := sameLinks_enroll filled i
    rw [top, hledger', lastWith_append_singleton, hlinks.hasKey, hlinks.lastWith, hlast,
      hasKey_of_slot? hi]
    by_cases hkey : key' = key
    · simp [hkey, newSlot]
    · simp [hkey, newSlot, Ne.symm hkey]

theorem Sound.homeOf_entered (b n : Nat) :
    homeOf (m.entered key value b).slots n (m.newIndex key value) = home n (m.hash key) ∧
      ∀ j ∈ m.ledger, homeOf (m.entered key value b).slots n j = homeOf m.slots n j := by
  have hlinks : SameLinks (m.occupy (m.newSlot key value)).1 (m.entered key value b) :=
    sameLinks_enroll _ (m.newIndex key value)
  refine ⟨?_, fun j hj ↦ ?_⟩
  · have hnew := h.slot?_filled key value (m.newIndex key value)
    rw [if_pos rfl] at hnew
    rw [hlinks.homeOf, homeOf_of_slot? hnew]
    rfl
  · rw [hlinks.homeOf, homeOf_congr (h.slot?_filled_of_mem key value hj)]

theorem Sound.indexed_entered (hends : m.Ends key b) : Indexed (m.entered key value b) := by
  obtain ⟨-, -, -, htop⟩ := h.arena_entered key value b
  obtain ⟨hbuckets, -⟩ := entered_buckets m key value b
  obtain ⟨hhome, hkeep⟩ := h.homeOf_entered key value b m.buckets.size
  refine h.indexed.redirect hends hbuckets hhome (fun c j _ hc ↦ ?_) htop
  obtain ⟨key', hkey'⟩ := (h.indexed.holds j).mp ⟨c, hc⟩
  have hmem := mem_ledger_of_top hkey'
  exact ⟨fun heq ↦ h.newIndex_not_mem key value (heq ▸ hmem), hkeep j hmem⟩

end Push

theorem Indexed.enlarge {m : Raw α} (h : Indexed m) : Indexed m.enlarge := by
  obtain ⟨hsize, hsettled, hunrepeated, hholds, -⟩ := enlarge_spec h.unrepeated
  refine ⟨?_, hunrepeated, fun i ↦ (hholds i).trans (h.holds i)⟩
  rw [hsize]
  exact hsettled

theorem bindings_addKey (m : Raw α) : m.addKey.bindings = m.bindings := by
  unfold addKey
  dsimp only
  split_ifs <;> rfl

/-- Assumes: everything is sound but for one key that has not been counted. -/
theorem sound_addKey {m : Raw α} (harena : Arena none m) (hindexed : Indexed m)
    (hkeys : m.keyCount + 1 = filledCount m.buckets)
    (hload : m.keyCount * 8 ≤ m.buckets.size * 5)
    (hbuckets : ∃ k, 4 ≤ k ∧ m.buckets.size = 2 ^ k) (hsize : m.size = m.ledger.length) :
    Sound m.addKey := by
  set counted : Raw α := { m with keyCount := m.keyCount + 1 } with hcounted
  have harena' : Arena none counted := harena.retable m.buckets (m.keyCount + 1) m.size
  have hindexed' : Indexed counted := ⟨hindexed.settled, hindexed.unrepeated, hindexed.holds⟩
  have heq : m.addKey = if counted.buckets.size * 5 < counted.keyCount * 8 then counted.enlarge
      else counted := rfl
  rw [heq]
  split_ifs with hfull
  · obtain ⟨hdouble, -, -, -, hcount⟩ := enlarge_spec hindexed'.unrepeated
    obtain ⟨k, hk, hpow⟩ := hbuckets
    refine ⟨harena'.retable _ _ _, hindexed'.enlarge, hkeys.trans hcount.symm, ?_,
      ⟨k + 1, by omega, ?_⟩, hsize⟩
    · have hleast : 2 ^ 4 ≤ m.buckets.size := hpow ▸ Nat.pow_le_pow_right (by omega) hk
      have hbound : (m.keyCount + 1) * 8 ≤ m.buckets.size * 2 * 5 := by omega
      rw [hdouble]
      exact hbound
    · rw [hdouble, pow_succ]
      exact congrArg (· * 2) hpow
  · exact ⟨harena', hindexed', hkeys, Nat.le_of_not_lt hfull, hbuckets, hsize⟩

/-- Pushing keeps a map sound and appends the binding. A new key fills an empty bucket and is
counted; a key that is bound keeps its bucket. -/
theorem Sound.push {m : Raw α} (h : Sound m) (key : String) (value : α) :
    Sound (m.push key value) ∧ (m.push key value).bindings = m.bindings ++ [(key, value)] := by
  obtain ⟨b, hends, heq⟩ := h.push_eq key value
  obtain ⟨harena, hledger, hbindings, -⟩ := h.arena_entered key value b
  obtain ⟨hbuckets, hkeys, hsize⟩ := entered_buckets m key value b
  have hindexed := h.indexed_entered key value hends
  have hbucketsSize : (m.entered key value b).buckets.size = m.buckets.size := by
    rw [hbuckets, Array.size_setIfInBounds]
  have hload : (m.entered key value b).keyCount * 8 ≤ (m.entered key value b).buckets.size * 5 := by
    rw [hkeys, hbucketsSize]
    exact h.load
  have hpow : ∃ k, 4 ≤ k ∧ (m.entered key value b).buckets.size = 2 ^ k := by
    rw [hbucketsSize]
    exact h.buckets
  have hlength : (m.entered key value b).size = (m.entered key value b).ledger.length := by
    rw [hsize, hledger, h.size, List.length_append, List.length_singleton]
  rw [heq]
  cases htop : m.top key with
  | none =>
    have hcount : (m.entered key value b).keyCount + 1 =
        filledCount (m.entered key value b).buckets := by
      rw [hkeys, hbuckets, filledCount_set_vacant hends.lt (hends.entry.trans htop), h.keys]
    exact ⟨sound_addKey harena hindexed hcount hload hpow hlength,
      (bindings_addKey _).trans hbindings⟩
  | some i =>
    have hfilled : held? m.buckets b ≠ none := by simp [hends.entry, htop]
    have hcount : (m.entered key value b).keyCount =
        filledCount (m.entered key value b).buckets := by
      rw [hkeys, hbuckets, filledCount_set_filled hends.lt hfilled, h.keys]
    exact ⟨⟨harena, hindexed, hcount, hload, hpow, hlength⟩, hbindings⟩

/-! ### Popping and setting -/

/-- A map without a slot whose bucket now holds the slot it shadowed. -/
def withdrawn (m : Raw α) (b i : Nat) (s : Slot α) : Raw α :=
  { m.remove i s with
    buckets := expose m.slots m.buckets b s.below
    keyCount := if s.below.isSome then m.keyCount else m.keyCount - 1
    size := m.size - 1 }

/-- A bound key has a last slot in the ledger. -/
theorem split_of_top {m : Raw α} {key : String} {i : Nat} (htop : m.top key = some i) :
    ∃ front back s, m.ledger = front ++ i :: back ∧ m.slot? i = some s ∧ s.key = key ∧
      ∀ j ∈ back, m.hasKey key j = false := by
  obtain ⟨hkey, front, back, hsplit, hback⟩ := lastWith_eq_some_iff.mp htop
  obtain ⟨s, hs, hkey⟩ := hasKey_iff.mp hkey
  exact ⟨front, back, s, hsplit, hs, hkey, hback⟩

theorem Sound.top_remove {m : Raw α} (h : Sound m) {i : Nat} {s : Slot α}
    (hs : m.slot? i = some s) (htop : m.top s.key = some i) (key : String) :
    (m.remove i s).top key = if key = s.key then s.below else m.top key := by
  obtain ⟨front, back, t, hsplit, ht, -, hback⟩ := split_of_top htop
  obtain rfl := Option.some.inj (hs.symm.trans ht)
  have hi := h.arena.not_mem_of_split hsplit
  have hsame : (m.remove i s).lastWith key (front ++ back) = m.lastWith key (front ++ back) :=
    lastWith_congr fun j hj ↦ hasKey_remove hs key fun heq ↦ hi (heq ▸ hj)
  rw [top, ledger_remove h.arena hs hsplit, hsame]
  split_ifs with hkey
  · rw [hkey, lastWith_append_of_absent hback]
    exact (h.arena.below front i back s hsplit hs).symm
  · rw [top, hsplit, lastWith_skip]
    rw [hasKey_of_slot? hs]
    exact beq_eq_false_iff_ne.mpr (Ne.symm hkey)

section Withdraw

variable {m : Raw α} (h : Sound m) {b i : Nat} {s : Slot α} (hs : m.slot? i = some s)
  (htop : m.top s.key = some i)
include h hs htop

theorem Sound.arena_withdrawn : Arena none (m.withdrawn b i s) :=
  (h.arena.remove hs htop).retable _ _ _

theorem Sound.size_withdrawn : (m.withdrawn b i s).size = (m.withdrawn b i s).ledger.length := by
  obtain ⟨front, back, -, hsplit, -⟩ := split_of_top htop
  have hledger : (m.withdrawn b i s).ledger = front ++ back := ledger_remove h.arena hs hsplit
  have hsize : (m.withdrawn b i s).size = m.ledger.length - 1 := congrArg (· - 1) h.size
  rw [hsize, hledger, hsplit]
  simp

theorem Sound.homeOf_withdrawn (hends : m.Ends s.key b) {c j : Nat} (hcb : c ≠ b)
    (hc : held? m.buckets c = some j) (n : Nat) :
    homeOf (m.withdrawn b i s).slots n j = homeOf m.slots n j := by
  refine homeOf_congr ((slot?_remove hs j).trans (if_neg ?_)) _
  rintro rfl
  exact hcb (h.indexed.unrepeated c b j hc (hends.entry.trans htop))

/-- A slot that is covered by another one has its key, and is not it. -/
theorem Sound.below_spec {below : Nat} (hbelow : s.below = some below) :
    below ≠ i ∧ ∃ r, m.slot? below = some r ∧ r.key = s.key := by
  obtain ⟨front, back, -, hsplit, -⟩ := split_of_top htop
  have hlast : m.lastWith s.key front = some below :=
    (h.arena.below front i back s hsplit hs).symm.trans hbelow
  obtain ⟨hkey, x, y, hfront, -⟩ := lastWith_eq_some_iff.mp hlast
  refine ⟨?_, hasKey_iff.mp hkey⟩
  rintro rfl
  exact h.arena.not_mem_of_split hsplit (by simp [hfront])

/-- The slot that was covered takes the bucket. No bucket pointed at it, as it was not the visible
one of its key. -/
theorem Sound.withdrawn_uncovering (hends : m.Ends s.key b) {below : Nat}
    (hbelow : s.below = some below) : Sound (m.withdrawn b i s) := by
  obtain ⟨hne, r, hr, hkey⟩ := h.below_spec hs htop hbelow
  have hfilled : held? m.buckets b ≠ none := by simp [hends.entry, htop]
  have hbuckets : (m.withdrawn b i s).buckets = m.buckets.setIfInBounds b (some below) := by
    simp [Raw.withdrawn, expose, hbelow]
  have hkeys : (m.withdrawn b i s).keyCount = m.keyCount := by simp [Raw.withdrawn, hbelow]
  have hbucketsSize : (m.withdrawn b i s).buckets.size = m.buckets.size := by
    rw [hbuckets, Array.size_setIfInBounds]
  have hhidden : ∀ c, held? m.buckets c ≠ some below := by
    intro c hc
    obtain ⟨key', hkey'⟩ := (h.indexed.holds below).mp ⟨c, hc⟩
    obtain ⟨r', hr', rfl⟩ := slot?_of_top hkey'
    obtain rfl := Option.some.inj (hr.symm.trans hr')
    rw [hkey, htop] at hkey'
    exact hne (Option.some.inj hkey').symm
  have hhome : homeOf (m.withdrawn b i s).slots m.buckets.size below =
      home m.buckets.size (m.hash s.key) := by
    have hslot : (m.withdrawn b i s).slot? below = some r :=
      (slot?_remove hs below).trans ((if_neg hne).trans hr)
    rw [homeOf_of_slot? hslot, h.arena.hash below r hr, hkey]
  have hkeep : ∀ c j, c ≠ b → held? m.buckets c = some j → j ≠ below ∧
      homeOf (m.withdrawn b i s).slots m.buckets.size j = homeOf m.slots m.buckets.size j :=
    fun c j hcb hc ↦ ⟨fun heq ↦ hhidden c (heq ▸ hc), h.homeOf_withdrawn hs htop hends hcb hc _⟩
  constructor
  case arena => exact h.arena_withdrawn hs htop
  case indexed =>
    refine h.indexed.redirect hends hbuckets hhome hkeep fun key ↦ ?_
    rw [← hbelow]
    exact h.top_remove hs htop key
  case keys => rw [hkeys, hbuckets, filledCount_set_filled hends.lt hfilled, h.keys]
  case load =>
    rw [hkeys, hbucketsSize]
    exact h.load
  case buckets =>
    rw [hbucketsSize]
    exact h.buckets
  case size => exact h.size_withdrawn hs htop

/-- With the only binding of a key its bucket goes. -/
theorem Sound.withdrawn_vacating (hends : m.Ends s.key b) (hbelow : s.below = none) :
    Sound (m.withdrawn b i s) := by
  have hbuckets : (m.withdrawn b i s).buckets = vacate m.slots m.buckets b := by
    simp [Raw.withdrawn, expose, hbelow]
  have hkeys : (m.withdrawn b i s).keyCount = m.keyCount - 1 := by simp [Raw.withdrawn, hbelow]
  have hclosed : Closed (homeOf m.slots m.buckets.size) m.buckets b
      (m.withdrawn b i s).buckets := by
    rw [hbuckets]
    exact vacate_spec m.slots h.indexed.settled h.indexed.unrepeated
      (fun _ j _ ↦ homeOf_lt m.slots h.buckets_pos j) h.room (hends.entry.trans htop)
  have hcount := hclosed.count
  have hold := h.keys
  constructor
  case arena => exact h.arena_withdrawn hs htop
  case indexed =>
    refine h.indexed.withdraw hends hclosed
      (fun c j hcb hc ↦ h.homeOf_withdrawn hs htop hends hcb hc _) fun key ↦ ?_
    rw [← hbelow]
    exact h.top_remove hs htop key
  case keys => omega
  case load =>
    have hload := h.load
    rw [hkeys, hclosed.size_eq]
    omega
  case buckets =>
    rw [hclosed.size_eq]
    exact h.buckets
  case size => exact h.size_withdrawn hs htop

theorem Sound.withdrawn (hends : m.Ends s.key b) : Sound (m.withdrawn b i s) := by
  cases hbelow : s.below with
  | some below => exact h.withdrawn_uncovering hs htop hends hbelow
  | none => exact h.withdrawn_vacating hs htop hends hbelow

end Withdraw

/-- Popping a bound key. -/
theorem Sound.pop_eq {m : Raw α} (h : Sound m) {i : Nat} {s : Slot α}
    (hs : m.slot? i = some s) (htop : m.top s.key = some i) :
    ∃ b, m.Ends s.key b ∧ m.pop s.key = (some s.value, m.withdrawn b i s) := by
  obtain ⟨b, hends, hfind⟩ := h.find s.key
  rw [htop] at hfind
  refine ⟨b, hends, ?_⟩
  unfold pop
  rw [hfind]
  dsimp only
  rw [hs]
  rfl

theorem Sound.get?_eq {m : Raw α} (h : Sound m) (key : String) :
    m.get? key = (m.top key).bind fun i ↦ (m.slot? i).map (·.value) := by
  obtain ⟨b, -, hfind⟩ := h.find key
  unfold get?
  rw [hfind]
  cases m.top key <;> rfl

theorem Sound.set_eq {m : Raw α} (h : Sound m) (key : String) (value : α) : m.set key value =
    match m.top key with
    | some i => (true, { m with slots := setValue m.slots i value })
    | none => (false, m) := by
  obtain ⟨b, -, hfind⟩ := h.find key
  unfold set
  rw [hfind]
  cases m.top key <;> rfl

theorem Sound.pop_of_absent {m : Raw α} (h : Sound m) {key : String} (htop : m.top key = none) :
    m.pop key = (none, m) := by
  obtain ⟨b, -, hfind⟩ := h.find key
  rw [htop] at hfind
  unfold pop
  rw [hfind]

theorem Sound.pop {m : Raw α} (h : Sound m) (key : String) : Sound (m.pop key).2 := by
  cases htop : m.top key with
  | none =>
    rw [h.pop_of_absent htop]
    exact h
  | some i =>
    obtain ⟨s, hs, rfl⟩ := slot?_of_top htop
    obtain ⟨b, hends, heq⟩ := h.pop_eq hs htop
    rw [heq]
    exact h.withdrawn hs htop hends

theorem Sound.setValue {m : Raw α} (h : Sound m) (i : Nat) (value : α) :
    Sound { m with slots := setValue m.slots i value } := by
  have hlinks := sameLinks_setValue m i value
  refine ⟨h.arena.setValue i value, ⟨?_, h.indexed.unrepeated, fun j ↦ ?_⟩, h.keys, h.load,
    h.buckets, h.size⟩
  · exact h.indexed.settled.congr fun b j _ ↦ hlinks.homeOf m.buckets.size j
  · refine (h.indexed.holds j).trans (exists_congr fun key ↦ ?_)
    rw [top, top, hlinks.lastWith]
    rfl

theorem Sound.set {m : Raw α} (h : Sound m) (key : String) (value : α) :
    Sound (m.set key value).2 := by
  rw [h.set_eq]
  cases m.top key with
  | none => exact h
  | some i => exact h.setValue i value

/-! ### Every reachable map -/

theorem bucketsFor_spec (capacity : Int) : ∃ k, 4 ≤ k ∧ bucketsFor capacity = 2 ^ k := by
  obtain ⟨k, hk⟩ := doubleUntil_eq (fun n ↦ capacity * 8 ≤ n * 5) capacity.toNat leastBuckets
  exact ⟨4 + k, by omega, by rw [bucketsFor, hk, pow_add]; rfl⟩

section New

variable (hash : String → UInt64) (capacity : Int)

theorem slot?_new (i : Nat) : (new hash capacity : Raw α).slot? i = none :=
  held?_eq_none_of_le (Nat.zero_le i)

theorem ledger_new : (new hash capacity : Raw α).ledger = [] := rfl

theorem held?_buckets_new (b : Nat) : held? (new hash capacity : Raw α).buckets b = none :=
  held?_replicate _ b

theorem arena_new : Arena none (new hash capacity : Raw α) := by
  have hslot {i : Nat} {s : Slot α} : (new hash capacity : Raw α).slot? i ≠ some s := by
    simp [slot?_new]
  constructor
  case mem_ledger => simp [ledger_new, slot?_new]
  case nodup => exact List.nodup_nil
  case sequence => exact fun i s hs ↦ absurd hs hslot
  case hash => exact fun i s hs ↦ absurd hs hslot
  case below => exact fun front i back s _ hs ↦ absurd hs hslot
  case free_nodup => exact List.nodup_nil
  case mem_free =>
    exact fun i ↦
      ⟨fun hmem ↦ absurd hmem List.not_mem_nil, fun hlt ↦ absurd hlt.1 (Nat.not_lt_zero i)⟩
  case counts => exact Fenwick.counts_new leastSequence
  case room => exact Nat.zero_le _
  case two_pow => exact ⟨4, Fenwick.size_new leastSequence⟩

theorem indexed_new : Indexed (new hash capacity : Raw α) := by
  have hentry {b i : Nat} : held? (new hash capacity : Raw α).buckets b ≠ some i := by
    simp [held?_buckets_new]
  constructor
  case settled => exact fun b i hb ↦ absurd hb hentry
  case unrepeated => exact fun b c i hb ↦ absurd hb hentry
  case holds => simp [held?_buckets_new, top, ledger_new, lastWith]

theorem sound_new : Sound (new hash capacity : Raw α) := by
  obtain ⟨k, hk, hbuckets⟩ := bucketsFor_spec capacity
  have hsize : (new hash capacity : Raw α).buckets.size = bucketsFor capacity :=
    Array.size_replicate
  constructor
  case arena => exact arena_new hash capacity
  case indexed => exact indexed_new hash capacity
  case keys => exact (filledCount_replicate _).symm
  case load => exact Nat.zero_le _
  case buckets => exact ⟨k, hk, hsize.trans hbuckets⟩
  case size => rfl

end New

theorem Reachable.sound {m : Raw α} (h : Reachable m) : Sound m := by
  induction h with
  | new hash capacity => exact sound_new hash capacity
  | push _ key value ih => exact (ih.push key value).1
  | pop _ key ih => exact ih.pop key
  | set _ key value ih => exact ih.set key value

/-! ### The hash is never changed -/

theorem hash_occupy (m : Raw α) (s : Slot α) : (m.occupy s).1.hash = m.hash := by
  rcases m with ⟨hash, buckets, slots, free, order, live, keyCount, size⟩
  cases free <;> rfl

theorem hash_enroll (m : Raw α) (i : Nat) : (m.enroll i).hash = m.hash := by
  rw [enroll_eq]
  split_ifs <;> rfl

theorem hash_link (m : Raw α) (b i : Nat) : (m.link b i).hash = m.hash := rfl

theorem hash_addKey (m : Raw α) : m.addKey.hash = m.hash := by
  unfold addKey
  dsimp only
  split_ifs <;> rfl

theorem hash_push (m : Raw α) (key : String) (value : α) : (m.push key value).hash = m.hash := by
  unfold push
  dsimp only
  split
  · rw [hash_link, hash_enroll, hash_occupy]
  · rw [hash_addKey, hash_link, hash_enroll, hash_occupy]

theorem hash_pop (m : Raw α) (key : String) : (m.pop key).2.hash = m.hash := by
  unfold pop
  split
  · rfl
  · split <;> rfl

theorem hash_set (m : Raw α) (key : String) (value : α) : (m.set key value).2.hash = m.hash := by
  unfold set
  split <;> rfl

/-! ### What the operations do to the bindings -/

/-- Every slot of the ledger holds a binding. -/
theorem Sound.map_some_bindings {m : Raw α} (h : Sound m) :
    m.bindings.map some = m.ledger.map m.binding? := by
  rw [bindings, List.map_filterMap, ← List.filterMap_eq_map]
  refine List.filterMap_congr fun i hi ↦ ?_
  obtain ⟨s, hs⟩ := Option.isSome_iff_exists.mp ((h.arena.mem_ledger i).mp hi).1
  simp [binding?, hs]

theorem Sound.size_eq {m : Raw α} (h : Sound m) : m.size = m.bindings.length := by
  have hlength := congrArg List.length h.map_some_bindings
  rw [List.length_map, List.length_map] at hlength
  rw [h.size, hlength]

theorem keys_eq (m : Raw α) : m.keys = (m.bindings.map (·.1)).eraseDups := by
  unfold keys bindings ledger binding?
  rw [List.map_filterMap, List.filterMap_filterMap]
  congr 1
  refine List.filterMap_congr fun o _ ↦ ?_
  cases o with
  | none => rfl
  | some i => cases hs : m.slot? i <;> simp [hs]

theorem forall_bindings_ne {m : Raw α} {key : String} {indices : List Nat}
    (h : ∀ i ∈ indices, m.hasKey key i = false) :
    ∀ p ∈ indices.filterMap m.binding?, p.1 ≠ key := by
  intro p hp
  obtain ⟨i, hi, hbinding⟩ := List.mem_filterMap.mp hp
  obtain ⟨s, hs, rfl⟩ := Option.map_eq_some_iff.mp hbinding
  have hkey := h i hi
  rw [hasKey_of_slot? hs] at hkey
  exact beq_eq_false_iff_ne.mp hkey

/-- A key that is not bound: no binding has it, and reading, popping and setting it find nothing
and change nothing. -/
theorem Sound.absent {m : Raw α} (h : Sound m) {key : String} (htop : m.top key = none) :
    (∀ p ∈ m.bindings, p.1 ≠ key) ∧ m.get? key = none ∧ m.pop key = (none, m) ∧
      ∀ value, m.set key value = (false, m) := by
  refine ⟨forall_bindings_ne (lastWith_eq_none_iff.mp htop), ?_, h.pop_of_absent htop,
    fun value ↦ ?_⟩
  · rw [h.get?_eq, htop]
    rfl
  · rw [h.set_eq, htop]

theorem filterMap_binding?_congr {m m' : Raw α} {i : Nat} {indices : List Nat}
    (hi : i ∉ indices) (hsame : ∀ j, j ≠ i → m'.slot? j = m.slot? j) :
    indices.filterMap m'.binding? = indices.filterMap m.binding? := by
  refine List.filterMap_congr fun j hj ↦ ?_
  rw [binding?, binding?, hsame j fun heq ↦ hi (heq ▸ hj)]

section Present

variable {m : Raw α} (h : Sound m) {i : Nat} {s : Slot α} (hs : m.slot? i = some s)
  {front back : List Nat} (hsplit : m.ledger = front ++ i :: back)
include h hs hsplit

theorem Sound.bindings_withdrawn (b : Nat) : (m.withdrawn b i s).bindings =
    front.filterMap m.binding? ++ back.filterMap m.binding? := by
  have hi := h.arena.not_mem_of_split hsplit
  rw [List.mem_append, not_or] at hi
  have hledger : (m.withdrawn b i s).ledger = front ++ back := ledger_remove h.arena hs hsplit
  have hslot : ∀ j, j ≠ i → (m.withdrawn b i s).slot? j = m.slot? j := fun j hj ↦
    (slot?_remove hs j).trans (if_neg hj)
  rw [bindings, hledger, List.filterMap_append, filterMap_binding?_congr hi.1 hslot,
    filterMap_binding?_congr hi.2 hslot]

theorem Sound.bindings_setValue (value : α) :
    ({ m with slots := Raw.setValue m.slots i value } : Raw α).bindings =
      front.filterMap m.binding? ++ (s.key, value) :: back.filterMap m.binding? := by
  have hi := h.arena.not_mem_of_split hsplit
  rw [List.mem_append, not_or] at hi
  set changed : Raw α := { m with slots := Raw.setValue m.slots i value } with hchanged
  have hledger : changed.ledger = front ++ i :: back := hsplit
  have hslot : ∀ j, j ≠ i → changed.slot? j = m.slot? j := fun j hj ↦
    (slot?_setValue m i value j).trans (if_neg hj)
  have hnew : changed.binding? i = some (s.key, value) := by
    rw [binding?, hchanged, slot?_setValue, if_pos rfl, hs]
    rfl
  rw [bindings, hledger, List.filterMap_append, List.filterMap_cons_some hnew,
    filterMap_binding?_congr hi.1 hslot, filterMap_binding?_congr hi.2 hslot]

end Present

/-- A bound key: its last binding is what is read, removed and changed. -/
theorem Sound.present {m : Raw α} (h : Sound m) {key : String} {i : Nat}
    (htop : m.top key = some i) : ∃ front value back,
      m.bindings = front ++ (key, value) :: back ∧ (∀ p ∈ back, p.1 ≠ key) ∧
      m.get? key = some value ∧
      (m.pop key).1 = some value ∧ (m.pop key).2.bindings = front ++ back ∧
      ∀ value', (m.set key value').1 = true ∧
        (m.set key value').2.bindings = front ++ (key, value') :: back := by
  obtain ⟨front, back, s, hsplit, hs, rfl, hback⟩ := split_of_top htop
  obtain ⟨b, -, hpop⟩ := h.pop_eq hs htop
  have hbinding : m.binding? i = some (s.key, s.value) := by simp [binding?, hs]
  refine ⟨front.filterMap m.binding?, s.value, back.filterMap m.binding?, ?_,
    forall_bindings_ne hback, ?_, ?_, ?_, fun value' ↦ ?_⟩
  · rw [bindings, hsplit, List.filterMap_append, List.filterMap_cons_some hbinding]
  · rw [h.get?_eq, htop, Option.bind_some, hs, Option.map_some]
  · rw [hpop]
  · rw [hpop]
    exact h.bindings_withdrawn hs hsplit b
  · rw [h.set_eq, htop]
    exact ⟨rfl, h.bindings_setValue hs hsplit value'⟩

theorem Sound.mem_keys_iff {m : Raw α} (h : Sound m) (key : String) :
    key ∈ m.keys ↔ ∃ i, m.top key = some i := by
  rw [keys_eq, List.mem_eraseDups, List.mem_map]
  cases htop : m.top key with
  | none =>
    obtain ⟨habsent, -⟩ := h.absent htop
    simpa using fun value hmem ↦ habsent (key, value) hmem rfl
  | some i =>
    obtain ⟨front, value, back, hbindings, -⟩ := h.present htop
    have hmem : (key, value) ∈ m.bindings := by simp [hbindings]
    exact ⟨fun _ ↦ ⟨i, rfl⟩, fun _ ↦ ⟨(key, value), hmem, rfl⟩⟩

/-! ### Reading by position -/

/-- How many of the first places of a list are taken. -/
theorem running_isSome (order : Array (Option Nat)) (n : Nat) :
    Fenwick.running (fun i ↦ if (held? order i).isSome then 1 else 0) n =
      ((order.toList.take n).filterMap id).length := by
  induction n with
  | zero => simp
  | succ n ih =>
    rw [Fenwick.running_succ, ih, List.take_add_one, Array.getElem?_toList, List.filterMap_append,
      List.length_append]
    unfold held?
    rcases order[n]? with _ | _ | i <;> simp

/-- Assumes: a taken place. In the list without the empty places it stands after those of the
taken places before it. -/
theorem getElem?_filterMap_id {order : Array (Option Nat)} {n i : Nat}
    (h : held? order n = some i) :
    (order.toList.filterMap id)[((order.toList.take n).filterMap id).length]? = some i := by
  have hlt : n < order.toList.length := by simpa using lt_size_of_held? h
  have hsplit : order.toList = order.toList.take n ++ some i :: order.toList.drop (n + 1) := by
    have hn : order.toList[n] = some i := by
      rw [Array.getElem_toList, getElem_eq_held?, h]
    rw [← hn, ← List.drop_eq_getElem_cons hlt, List.take_append_drop]
  have hfilter := congrArg (List.filterMap id) hsplit
  rw [List.filterMap_append, List.filterMap_cons_some (rfl : id (some i) = some i)] at hfilter
  rw [hfilter]
  simp

section Position

variable {m : Raw α} (h : Sound m)
include h

theorem Sound.getElem?_bindings {n index : Nat} (hindex : m.ledger[n]? = some index) :
    m.bindings[n]? = m.binding? index := by
  have hget := congrArg (·[n]?) h.map_some_bindings
  simp only [List.getElem?_map, hindex, Option.map_some] at hget
  obtain ⟨p, hp, heq⟩ := Option.map_eq_some_iff.mp hget
  rw [hp, heq]

/-- The tree of counts finds the place of a live slot: the first one up to which, itself included,
there are `n + 1` live slots. That place is taken, and `n` live slots stand before it. -/
theorem Sound.select_spec {n : Nat} (hn : n < m.ledger.length) : ∃ index,
    held? m.order (m.live.select (n + 1)) = some index ∧ m.ledger[n]? = some index := by
  have htotal : ((n + 1 : Nat) : Int) ≤
      Fenwick.running (fun j ↦ if (held? m.order j).isSome then 1 else 0) m.live.size := by
    rw [running_isSome, List.take_of_length_le (by simpa using h.arena.room)]
    exact Int.ofNat_le.mpr hn
  obtain ⟨k, hk⟩ := h.arena.two_pow
  obtain ⟨hbelow, habove, -⟩ := h.arena.counts.select_spec
    (fun j ↦ by split_ifs <;> simp) hk (Nat.succ_pos _) htotal
  set place := m.live.select (n + 1) with hplace
  rw [Fenwick.running_succ] at habove
  rw [running_isSome] at hbelow habove
  have hsome : (held? m.order place).isSome := by
    by_contra hnone
    rw [if_neg hnone] at habove
    omega
  rw [if_pos hsome] at habove
  obtain ⟨index, hindex⟩ := Option.isSome_iff_exists.mp hsome
  have hcount : ((m.order.toList.take place).filterMap id).length = n := by omega
  exact ⟨index, hindex, hcount ▸ getElem?_filterMap_id hindex⟩

/-- The i-th live binding is found by its position. -/
theorem Sound.at?_eq (i : Int) :
    m.at? i = if 0 ≤ i then m.bindings[i.toNat]? else none := by
  unfold at?
  by_cases hpos : 0 ≤ i
  · rw [if_pos hpos]
    by_cases hlt : i < m.size
    · have hn : i.toNat < m.ledger.length := by
        rw [← h.size]
        omega
      obtain ⟨index, hindex, hledger⟩ := h.select_spec hn
      have hread : (m.order[m.live.select (i.toNat + 1)]?).join = some index := hindex
      rw [if_pos ⟨hpos, hlt⟩, h.getElem?_bindings hledger, hread]
      rfl
    · rw [if_neg fun hand ↦ hlt hand.2, List.getElem?_eq_none]
      rw [← h.size_eq]
      omega
  · rw [if_neg fun hand ↦ hpos hand.1, if_neg hpos]

end Position

end TokenLang.StackMap.Raw

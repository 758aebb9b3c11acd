import TokenLang.StackMap.Fenwick

/-!
The representation of a stack map. Bindings live in slots; the top binding of each
key sits in a probe table, and each slot points at the one it shadows. Slots are
numbered in the order they were filled, with a tree of counts over the numbers that
are still live, so that the i-th live binding is found without a walk.

All loops are bounded by the size of the table. The bounds are never reached,
because the table always keeps an empty bucket.
-/

set_option autoImplicit false
set_option relaxedAutoImplicit false

universe u

namespace TokenLang.StackMap

structure Slot (α : Type u) where
  key : String
  hash : UInt64
  value : α
  /-- The slot this one shadows. -/
  below : Option Nat
  /-- The place of this slot in the order of insertion. -/
  sequence : Nat

structure Raw (α : Type u) where
  hash : String → UInt64
  /-- The slot of the top binding of a key, at or after the home of the key. -/
  buckets : Array (Option Nat)
  slots : Array (Option (Slot α))
  /-- Slots that hold nothing, the one to be used next first. -/
  free : List Nat
  /-- The slot of each sequence number that is still live. -/
  order : Array (Option Nat)
  live : Fenwick
  /-- How many keys are bound. -/
  keyCount : Nat
  /-- How many bindings there are, shadowed ones included. -/
  size : Nat

namespace Raw

variable {α : Type u}

def leastBuckets : Nat := 16

def leastSequence : Nat := 16

/-- Doubles a number, at most `fuel` times, until it is large enough. -/
def doubleUntil (enough : Nat → Bool) : Nat → Nat → Nat
  | 0, n => n
  | fuel + 1, n => if enough n then n else doubleUntil enough fuel (n * 2)

/-- The number of buckets for so many keys: at most five keys for every eight
buckets. The integers are exact. This leaves out capacities of `2 ^ 59` and more, for
which no memory has room, and those below `-2 ^ 60`: there eight times the capacity, or
five times the buckets, does not fit into 64 bits. -/
def bucketsFor (capacity : Int) : Nat :=
  doubleUntil (fun n ↦ capacity * 8 ≤ n * 5) capacity.toNat leastBuckets

def new (hash : String → UInt64) (capacity : Int) : Raw α where
  hash := hash
  buckets := Array.replicate (bucketsFor capacity) none
  slots := #[]
  free := []
  order := #[]
  live := Fenwick.new leastSequence
  keyCount := 0
  size := 0

/-- A representation with arrays of its own: each of the five is copied into a new one. -/
def clone (m : Raw α) : Raw α where
  hash := m.hash
  buckets := #[] ++ m.buckets
  slots := #[] ++ m.slots
  free := [] ++ m.free
  order := #[] ++ m.order
  live := ⟨#[] ++ m.live.tree⟩
  keyCount := m.keyCount
  size := m.size

theorem clone_eq (m : Raw α) : m.clone = m := by
  simp [clone]

def slot? (m : Raw α) (index : Nat) : Option (Slot α) := (m.slots[index]?).join

/-- The bucket where the search for a hash begins, in a table of `n` buckets. -/
def home (n : Nat) (hash : UInt64) : Nat := hash.toNat % n

/-- The bucket where the search for the key of a slot begins. -/
def homeOf (slots : Array (Option (Slot α))) (n index : Nat) : Nat :=
  match (slots[index]?).join with
  | some slot => home n slot.hash
  | none => 0

/-- The bucket after another one, the first after the last. -/
def after (n bucket : Nat) : Nat := (bucket + 1) % n

/-- Where a key is, or the empty bucket where it would go. -/
inductive Place where
  | taken (bucket index : Nat)
  | vacant (bucket : Nat)
deriving DecidableEq, Inhabited

def probe (m : Raw α) (key : String) (hash : UInt64) : Nat → Nat → Place
  | 0, bucket => .vacant bucket
  | fuel + 1, bucket =>
    match (m.buckets[bucket]?).join with
    | none => .vacant bucket
    | some index =>
      match m.slot? index with
      | some slot =>
        if slot.hash == hash && slot.key == key then .taken bucket index
        else m.probe key hash fuel (after m.buckets.size bucket)
      | none => m.probe key hash fuel (after m.buckets.size bucket)

def locate (m : Raw α) (key : String) (hash : UInt64) : Place :=
  m.probe key hash m.buckets.size (home m.buckets.size hash)

def find (m : Raw α) (key : String) : Place := m.locate key (m.hash key)

/-- The value on top of the stack of a key. -/
def get? (m : Raw α) (key : String) : Option α :=
  match m.find key with
  | .taken _ index => (m.slot? index).map (·.value)
  | .vacant _ => none

/-- Puts a binding into a free slot, or a new one, and gives its index. -/
def occupy (m : Raw α) (slot : Slot α) : Raw α × Nat :=
  let ⟨hash, buckets, slots, free, order, live, keyCount, size⟩ := m
  match free with
  | index :: free =>
    (⟨hash, buckets, slots.setIfInBounds index (some slot), free, order, live, keyCount, size⟩,
      index)
  | [] =>
    let index := slots.size
    (⟨hash, buckets, slots.push (some slot), [], order, live, keyCount, size⟩, index)

def setSequence (slots : Array (Option (Slot α))) (index sequence : Nat) :
    Array (Option (Slot α)) :=
  slots.modify index fun s ↦ s.map fun slot ↦ { slot with sequence := sequence }

/-- The least doubling of a size that leaves room for as many again as are live. -/
def roomFor (live size : Nat) : Nat :=
  doubleUntil (fun n ↦ 2 * (live + 1) ≤ n) (2 * (live + 1)) size

/-- Numbers the live slots densely again, dropping the numbers of popped ones. -/
def renumber (m : Raw α) : Raw α :=
  let live := m.order.toList.filterMap id
  let slots := live.zipIdx.foldl (fun slots (index, i) ↦ setSequence slots index i) m.slots
  { m with
    slots := slots
    order := (live.map some).toArray
    live := Fenwick.ones (roomFor live.length m.live.size) live.length }

/-- Gives a slot the next sequence number. -/
def enroll (m : Raw α) (index : Nat) : Raw α :=
  let ⟨hash, buckets, slots, free, order, live, keyCount, size⟩ :=
    if m.order.size == m.live.size then m.renumber else m
  let sequence := order.size
  { hash := hash
    buckets := buckets
    slots := setSequence slots index sequence
    free := free
    order := order.push (some index)
    live := live.add sequence 1
    keyCount := keyCount
    size := size }

/-- Makes a slot the top binding of a bucket. -/
def link (m : Raw α) (bucket index : Nat) : Raw α :=
  let ⟨hash, buckets, slots, free, order, live, keyCount, size⟩ := m
  ⟨hash, buckets.setIfInBounds bucket (some index), slots, free, order, live, keyCount, size + 1⟩

/-- The first empty bucket at or after a given one. -/
def firstEmpty (buckets : Array (Option Nat)) : Nat → Nat → Nat
  | 0, bucket => bucket
  | fuel + 1, bucket =>
    match (buckets[bucket]?).join with
    | none => bucket
    | some _ => firstEmpty buckets fuel (after buckets.size bucket)

/-- Puts a slot into a table that does not hold its key. -/
def place (m : Raw α) (buckets : Array (Option Nat)) (index : Nat) : Array (Option Nat) :=
  let bucket := firstEmpty buckets buckets.size (homeOf m.slots buckets.size index)
  buckets.setIfInBounds bucket (some index)

/-- Doubles the table. -/
def enlarge (m : Raw α) : Raw α :=
  { m with
    buckets := (m.buckets.toList.filterMap id).foldl m.place
      (Array.replicate (m.buckets.size * 2) none) }

/-- Counts one more key, and doubles the table when it gets too full. -/
def addKey (m : Raw α) : Raw α :=
  let m := { m with keyCount := m.keyCount + 1 }
  if m.buckets.size * 5 < m.keyCount * 8 then m.enlarge else m

/-- Binds a key, shadowing any binding it had. -/
def push (m : Raw α) (key : String) (value : α) : Raw α :=
  let hash := m.hash key
  match m.locate key hash with
  | .taken bucket below =>
    let (m, index) := m.occupy ⟨key, hash, value, some below, 0⟩
    (m.enroll index).link bucket index
  | .vacant bucket =>
    let (m, index) := m.occupy ⟨key, hash, value, none, 0⟩
    ((m.enroll index).link bucket index).addKey

/-- Whether an entry at `bucket` whose search begins at `home` may move back into
the hole: the hole does not lie before its home on the way round the table. -/
def mayMove (hole bucket home : Nat) : Bool :=
  if hole < bucket then home ≤ hole || bucket < home else home ≤ hole && bucket < home

/-- Moves later entries of a probe run back into the hole, then leaves it empty. -/
def closeHole (slots : Array (Option (Slot α))) :
    Nat → Array (Option Nat) → Nat → Nat → Array (Option Nat)
  | 0, buckets, hole, _ => buckets.setIfInBounds hole none
  | fuel + 1, buckets, hole, bucket =>
    match (buckets[bucket]?).join with
    | none => buckets.setIfInBounds hole none
    | some index =>
      if mayMove hole bucket (homeOf slots buckets.size index) then
        closeHole slots fuel (buckets.setIfInBounds hole (some index)) bucket
          (after buckets.size bucket)
      else closeHole slots fuel buckets hole (after buckets.size bucket)

/-- Empties a bucket. -/
def vacate (slots : Array (Option (Slot α))) (buckets : Array (Option Nat)) (bucket : Nat) :
    Array (Option Nat) :=
  closeHole slots buckets.size buckets bucket (after buckets.size bucket)

/-- Drops the top binding of a key from its bucket: the binding it shadows takes
its place, or the bucket is emptied. -/
def expose (slots : Array (Option (Slot α))) (buckets : Array (Option Nat)) (bucket : Nat) :
    Option Nat → Array (Option Nat)
  | some below => buckets.setIfInBounds bucket (some below)
  | none => vacate slots buckets bucket

/-- Removes the top binding of a key and gives its value; the binding it shadowed
becomes visible again. Without one nothing changes. -/
def pop (m : Raw α) (key : String) : Option α × Raw α :=
  match m.find key with
  | .vacant _ => (none, m)
  | .taken bucket index =>
    match m.slot? index with
    | none => (none, m)
    | some slot =>
      let ⟨hash, buckets, slots, free, order, live, keyCount, size⟩ := m
      (some slot.value,
        { hash := hash
          buckets := expose slots buckets bucket slot.below
          slots := slots.setIfInBounds index none
          free := index :: free
          order := order.setIfInBounds slot.sequence none
          live := live.add slot.sequence (-1)
          keyCount := if slot.below.isSome then keyCount else keyCount - 1
          size := size - 1 })

def setValue (slots : Array (Option (Slot α))) (index : Nat) (value : α) :
    Array (Option (Slot α)) :=
  slots.modify index fun s ↦ s.map fun slot ↦ { slot with value := value }

/-- Replaces the top binding of a key in place. Without one nothing changes, and
the answer is false. -/
def set (m : Raw α) (key : String) (value : α) : Bool × Raw α :=
  match m.find key with
  | .taken _ index => (true, { m with slots := setValue m.slots index value })
  | .vacant _ => (false, m)

/-- The i-th live binding in the order of insertion, shadowed ones included. -/
def at? (m : Raw α) (i : Int) : Option (String × α) :=
  if 0 ≤ i ∧ i < m.size then
    match (m.order[m.live.select (i.toNat + 1)]?).join with
    | some index => (m.slot? index).map fun slot ↦ (slot.key, slot.value)
    | none => none
  else none

/-- Each bound key once, in the order of first appearance. -/
def keys (m : Raw α) : List String :=
  (m.order.toList.filterMap fun index ↦ (index.bind m.slot?).map (·.key)).eraseDups

/-- Maps that come about from an empty one by the operations. -/
inductive Reachable : Raw α → Prop
  | new (hash : String → UInt64) (capacity : Int) : Reachable (new hash capacity)
  | push {m : Raw α} (h : Reachable m) (key : String) (value : α) : Reachable (m.push key value)
  | pop {m : Raw α} (h : Reachable m) (key : String) : Reachable (m.pop key).2
  | set {m : Raw α} (h : Reachable m) (key : String) (value : α) : Reachable (m.set key value).2

end Raw

end TokenLang.StackMap

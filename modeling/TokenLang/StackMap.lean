import TokenLang.StackMap.Raw

/-!
Stack maps: each key has a stack of values, of which the top one is visible.
Pushing a key again shadows its value until the matching pop, and all live bindings
keep the order in which they were pushed.
-/

set_option autoImplicit false
set_option relaxedAutoImplicit false

universe u

namespace TokenLang

/-- A representation that the operations produced. -/
structure StackMap (α : Type u) where
  raw : StackMap.Raw α
  reachable : raw.Reachable

namespace StackMap

variable {α : Type u}

/-- A multiplicative hash over the characters of a key. -/
def keyHash (key : String) : UInt64 :=
  key.toList.foldl (fun h c ↦ (h ^^^ c.val.toUInt64) * 1099511628211) 14695981039346656037

def withHash (hash : String → UInt64) (capacity : Int) : StackMap α :=
  ⟨.new hash capacity, .new hash capacity⟩

def new (capacity : Int) : StackMap α := withHash keyHash capacity

def get? (m : StackMap α) (key : String) : Option α := m.raw.get? key

def push (m : StackMap α) (key : String) (value : α) : StackMap α :=
  ⟨m.raw.push key value, m.reachable.push key value⟩

def pop (m : StackMap α) (key : String) : Option α × StackMap α :=
  let ⟨raw, reachable⟩ := m
  let answer := raw.pop key
  (answer.1, ⟨answer.2, reachable.pop key⟩)

def set (m : StackMap α) (key : String) (value : α) : Bool × StackMap α :=
  let ⟨raw, reachable⟩ := m
  let answer := raw.set key value
  (answer.1, ⟨answer.2, reachable.set key value⟩)

/-- A copy, which from then on changes on its own. -/
def clone (m : StackMap α) : StackMap α := ⟨m.raw.clone, m.raw.clone_eq.symm ▸ m.reachable⟩

theorem clone_eq (m : StackMap α) : m.clone = m := by
  simp [clone, Raw.clone_eq]

def at? (m : StackMap α) (i : Int) : Option (String × α) := m.raw.at? i

def size (m : StackMap α) : Nat := m.raw.size

def keys (m : StackMap α) : List String := m.raw.keys

/-- All live bindings in the order of insertion. -/
def toList (m : StackMap α) : List (String × α) :=
  (List.range m.size).filterMap fun i : Nat ↦ m.at? i

instance : Inhabited (StackMap α) := ⟨new 0⟩

end StackMap

end TokenLang

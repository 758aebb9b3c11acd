import Std.Data.TreeMap
import TokenLang.Failure
import TokenLang.Value.Equal

/-!
Maps and sets as they are built. Both keep the order in which their keys first
came; a map keeps the last pair given for a key, a set the first member.
-/

set_option autoImplicit false
set_option relaxedAutoImplicit false

namespace TokenLang

/-- Items in the making of a collection, with the place of each key among them. -/
structure Keyed (α : Type) where
  items : Array α
  places : Std.TreeMap String Nat

namespace Keyed

variable {α : Type}

def empty : Keyed α := ⟨#[], ∅⟩

/-- Puts an item in place of the one with its key, or at the end. -/
def put (k : Keyed α) (key : String) (item : α) : Keyed α :=
  let ⟨items, places⟩ := k
  match places[key]? with
  | some i => ⟨items.setIfInBounds i item, places⟩
  | none =>
    let size := items.size
    ⟨items.push item, places.insert key size⟩

/-- Puts an item at the end unless its key is there already. -/
def add (k : Keyed α) (key : String) (item : α) : Keyed α :=
  let ⟨items, places⟩ := k
  match places[key]? with
  | some _ => ⟨items, places⟩
  | none =>
    let size := items.size
    ⟨items.push item, places.insert key size⟩

end Keyed

namespace Entry

def keyed (entries : List Entry) : Keyed Entry :=
  entries.foldl (fun k e ↦ k.put e.key.key e) .empty

/-- Puts keys, which must have values, and values in turn; a last key without a
value gets null. -/
def putFrom : Keyed Entry → List Token → Except Stop (Keyed Entry)
  | k, [] => .ok k
  | k, [key] => do
    let _ ← key.payload
    return k.put key.key (.mk key .null)
  | k, key :: value :: rest => do
    let _ ← key.payload
    putFrom (k.put key.key (.mk key value)) rest

/-- The entries after keys and values have been put in turn. -/
def putAll (entries : List Entry) (args : List Token) : Except Stop (List Entry) := do
  return (← putFrom (keyed entries) args).items.toList

end Entry

namespace Token

def keyed (members : List Token) : Keyed Token :=
  members.foldl (fun k t ↦ k.add t.key t) .empty

/-- Adds members, each of which must have a value. -/
def addFrom : Keyed Token → List Token → Except Stop (Keyed Token)
  | k, [] => .ok k
  | k, t :: rest => do
    let _ ← t.payload
    addFrom (k.add t.key t) rest

/-- The members after others have been added. -/
def addMembers (members args : List Token) : Except Stop (List Token) := do
  return (← addFrom (keyed members) args).items.toList

end Token

end TokenLang

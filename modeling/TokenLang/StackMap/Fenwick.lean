/-!
A tree of partial counts. Entry `i` of the tree, from one on, holds the sum of the
counts of the run of places that ends at `i - 1` and is as long as the lowest set
bit of `i`. Adding to one count and finding the place where the running sum reaches
a bound both take as many steps as the size has bits.
-/

set_option autoImplicit false
set_option relaxedAutoImplicit false

namespace TokenLang

structure Fenwick where
  tree : Array Int

namespace Fenwick

def new (size : Nat) : Fenwick := ⟨Array.replicate (size + 1) 0⟩

/-- How many places are counted. -/
def size (f : Fenwick) : Nat := f.tree.size - 1

/-- The lowest set bit of a number. -/
def lowBit (n : Nat) : Nat := n - (n &&& (n - 1))

/-- Adds to every entry whose run covers a place, from the entry `i` on. Each step
goes to a later entry, so the size of the tree bounds their number. -/
def addFrom (delta : Int) : Nat → Array Int → Nat → Array Int
  | 0, tree, _ => tree
  | fuel + 1, tree, i =>
    if i < tree.size then addFrom delta fuel (tree.modify i (· + delta)) (i + lowBit i)
    else tree

/-- Adds to the count of a place. -/
def add (f : Fenwick) (i : Nat) (delta : Int) : Fenwick :=
  let ⟨tree⟩ := f
  ⟨addFrom delta tree.size tree (i + 1)⟩

/-- Looks for the place within the `2 ^ level - 1` entries after a position, where
`k` is what the counts still have to add up to. -/
def selectFrom (tree : Array Int) : Nat → Nat → Int → Nat
  | 0, position, _ => position
  | level + 1, position, k =>
    match tree[position + Nat.pow 2 level]? with
    | some sum =>
      if sum < k then selectFrom tree level (position + Nat.pow 2 level) (k - sum)
      else selectFrom tree level position k
    | none => selectFrom tree level position k

/-- The first place up to which the counts add up to `k`. The size is a power of
two, and the search begins with the entry that covers all of it. -/
def select (f : Fenwick) (k : Nat) : Nat := selectFrom f.tree (Nat.log2 f.size + 1) 0 k

/-- The counts of the first `n` places are one and all others zero. -/
def ones (size n : Nat) : Fenwick := (List.range n).foldl (fun f i ↦ f.add i 1) (new size)

end Fenwick

end TokenLang

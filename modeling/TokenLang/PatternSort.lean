/-!
Which item comes first when items are put in order by rank. Items of one rank do
not keep their order: it is the order of a pattern-defeating quicksort, of which
only the part that reaches the front is carried out here. Up to twelve items are put
in order by insertion, which keeps the order of equals. More are divided around a
pivot, and only what stands before the pivot is put in order in turn. A row that is
nearly in order is settled by a few insertions, a falling one is turned around, and
after too many lopsided divisions a heap takes over.
-/

set_option autoImplicit false
set_option relaxedAutoImplicit false

namespace TokenLang.PatternSort

structure Ranked (α : Type) where
  rank : Nat
  item : α

abbrev Row (α : Type) := Array (Ranked α)

variable {α : Type}

/-- Whether the item at one place has a smaller rank than that at another. -/
def below (row : Row α) (i j : Nat) : Bool :=
  match row[i]?, row[j]? with
  | some x, some y => x.rank < y.rank
  | _, _ => false

/-- The first of the items that have the least rank. -/
def earliest (row : Row α) : Option (Ranked α) :=
  row.foldl (fun best x ↦
    match best with
    | some b => if x.rank < b.rank then some x else best
    | none => some x) none

/-! ### The pivot -/

/-- How the places that a pivot is chosen from are ordered. -/
inductive Trend where
  | rising
  | falling
  | mixed
deriving DecidableEq

/-- Two places in the order of their ranks, with one more change counted if they
were not. -/
def inOrder (row : Row α) (i j changes : Nat) : Nat × Nat × Nat :=
  if below row j i then (j, i, changes + 1) else (i, j, changes)

/-- The place of the middle one of three ranks. -/
def median (row : Row α) (i j k changes : Nat) : Nat × Nat :=
  let (i, j, changes) := inOrder row i j changes
  let (j, _, changes) := inOrder row j k changes
  let (_, j, changes) := inOrder row i j changes
  (j, changes)

/-- Rows at least this long are long. -/
def long : Nat := 50

/-- A pivot near the middle of a row. In a long row each of the three places it is
chosen from is itself the middle of three neighbours. -/
def choosePivot (row : Row α) : Nat × Trend :=
  let quarter := row.size / 4
  let (i, j, k, changes) :=
    if row.size < long then (quarter, quarter * 2, quarter * 3, 0)
    else
      let (i, changes) := around quarter 0
      let (j, changes) := around (quarter * 2) changes
      let (k, changes) := around (quarter * 3) changes
      (i, j, k, changes)
  let (pivot, changes) := median row i j k changes
  (pivot, if changes = 0 then .rising else if changes = 12 then .falling else .mixed)
where
  around (i changes : Nat) : Nat × Nat := median row (i - 1) i (i + 1) changes

/-! ### Rows that are nearly in order -/

/-- The first place from `i` on whose rank is below the one before it, or the end. -/
def firstFall (row : Row α) : Nat → Nat → Nat
  | 0, i => i
  | fuel + 1, i =>
    if i < row.size && !below row i (i - 1) then firstFall row fuel (i + 1) else i

/-- Moves the item at a place to the left past all that have a greater rank. -/
def sink (row : Row α) : Nat → Row α
  | 0 => row
  | i + 1 => if below row (i + 1) i then sink (row.swapIfInBounds (i + 1) i) i else row

/-- Moves the item before a place to the right past all that have a smaller rank. -/
def rise (row : Row α) : Nat → Nat → Row α
  | 0, _ => row
  | fuel + 1, i =>
    if below row i (i - 1) then rise (row.swapIfInBounds i (i - 1)) fuel (i + 1) else row

/-- Mends up to `steps` falls of a long row, and tells whether it is in order. -/
def settle : Nat → Nat → Row α → Row α × Bool
  | 0, _, row => (row, false)
  | steps + 1, i, row =>
    let i := firstFall row row.size i
    if row.size ≤ i then (row, true)
    else if row.size < long then (row, false)
    else
      let row := sink (row.swapIfInBounds i (i - 1)) (i - 1)
      settle steps i (rise row row.size (i + 1))

/-! ### Divisions -/

/-- The first place from `i` to `j` whose rank is not below that of the front. -/
def skipLow (row : Row α) : Nat → Nat → Nat → Nat
  | 0, i, _ => i
  | fuel + 1, i, j => if i ≤ j && below row i 0 then skipLow row fuel (i + 1) j else i

/-- The last place from `i` to `j` whose rank is below that of the front. -/
def skipHigh (row : Row α) : Nat → Nat → Nat → Nat
  | 0, _, j => j
  | fuel + 1, i, j => if i ≤ j && !below row j 0 then skipHigh row fuel i (j - 1) else j

/-- Exchanges items between `i` and `j` until those with ranks below that of the
front come first, then puts the front item after them: the row, the new place of
that item, and whether no exchange was needed. -/
def divideFrom : Nat → Row α → Nat → Nat → Bool → Row α × Nat × Bool
  | 0, row, _, _, _ => (row, 0, false)
  | fuel + 1, row, i, j, divided =>
    let i := skipLow row row.size i j
    let j := skipHigh row row.size i j
    if j < i then (row.swapIfInBounds j 0, j, divided)
    else divideFrom fuel (row.swapIfInBounds i j) (i + 1) (j - 1) false

def divide (row : Row α) (pivot : Nat) : Row α × Nat × Bool :=
  divideFrom row.size (row.swapIfInBounds 0 pivot) 1 (row.size - 1) true

/-- One step of a generator that shifts and adds without carry. -/
def scramble (x : UInt64) : UInt64 :=
  let x := x ^^^ (x <<< 13)
  let x := x ^^^ (x >>> 7)
  x ^^^ (x <<< 17)

/-- Exchanges three items near the middle with items anywhere. -/
def scatter (row : Row α) : Row α :=
  let size := row.size
  let middle := size / 4 * 2 - 2
  let (row, _) := [0, 1, 2].foldl (fun (row, x) i ↦
    let x := scramble x
    let place := x.toNat % Nat.pow 2 (Nat.log2 size + 1)
    (row.swapIfInBounds (middle + i) (if size ≤ place then place - size else place), x))
    (row, UInt64.ofNat size)
  row

/-! ### The heap -/

/-- Lets the item at a place sink in the heap that ends before `last`. -/
def siftDown : Nat → Row α → Nat → Nat → Row α
  | 0, row, _, _ => row
  | fuel + 1, row, root, last =>
    let child := 2 * root + 1
    if last ≤ child then row
    else
      let child := if child + 1 < last && below row child (child + 1) then child + 1 else child
      if below row root child then siftDown fuel (row.swapIfInBounds root child) child last
      else row

def heapSort (row : Row α) : Row α :=
  let size := row.size
  let heap := (List.range ((size + 1) / 2)).reverse.foldl
    (fun row i ↦ siftDown size row i size) row
  (List.range size).reverse.foldl
    (fun row i ↦ siftDown size (row.swapIfInBounds 0 i) 0 i) heap

/-! ### The front -/

/-- Rows up to this size are put in order by insertion. -/
def short : Nat := 12

/-- The front of a row, with a heap after `limit` lopsided divisions. The last
division was `balanced` if the smaller part was an eighth of the row or more, and it
left the row `divided` if it needed no exchange. -/
def frontFrom : Nat → Row α → Nat → Bool → Bool → Option (Ranked α)
  | 0, row, _, _, _ => earliest row
  | fuel + 1, row, limit, balanced, divided =>
    if row.size ≤ short then earliest row
    else if limit = 0 then (heapSort row)[0]?
    else
      let (row, limit) := if balanced then (row, limit) else (scatter row, limit - 1)
      let (pivot, trend) := choosePivot row
      let (row, pivot) :=
        if trend = .falling then (row.reverse, row.size - 1 - pivot) else (row, pivot)
      let (row, settled) :=
        if balanced && divided && trend != .mixed then settle 5 1 row else (row, false)
      if settled then row[0]?
      else
        let (row, place, divided) := divide row pivot
        if place = 0 then row[0]?
        else
          let after := row.size - place
          let front := row.take place
          if place < after then frontFrom fuel front limit true true
          else frontFrom fuel front limit (row.size / 8 ≤ after) divided

/-- The item that comes first in the order of ranks. -/
def first? (items : List (Ranked α)) : Option α :=
  let row := items.toArray
  (frontFrom row.size row (Nat.log2 row.size + 1) true true).map Ranked.item

end TokenLang.PatternSort

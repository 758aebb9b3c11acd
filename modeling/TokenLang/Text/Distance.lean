/-!
How far two texts are apart, counted in edits of one character.
-/

set_option autoImplicit false
set_option relaxedAutoImplicit false

namespace TokenLang.Text.Distance

/-- The next row of the edit table: `above` is the entry up and to the left of the
rest of the previous row, `left` the entry just written. -/
def nextRow (c : Char) : List Char → Nat → Nat → List Nat → List Nat
  | d :: ds, above, left, up :: row =>
    let entry := min (min (up + 1) (left + 1)) (above + if c = d then 0 else 1)
    entry :: nextRow c ds up entry row
  | _, _, _, _ => []

/-- The last row of the edit table of `source` against `target`, from a given row. -/
def rows (target : List Char) : List Char → Nat × List Nat → Nat × List Nat
  | [], row => row
  | c :: source, (first, row) =>
    rows target source (first + 1, nextRow c target first (first + 1) row)

/-- How many insertions, deletions and replacements of one character turn one
text into the other. -/
def levenshtein (source target : String) : Nat :=
  let top := (List.range target.toList.length).map (· + 1)
  let (first, row) := rows target.toList source.toList (0, top)
  row.getLastD first

end TokenLang.Text.Distance

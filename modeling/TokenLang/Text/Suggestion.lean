import TokenLang.PatternSort
import TokenLang.Text.Distance
import TokenLang.Text.Fold

/-!
Which of a list of names is meant by a name that is not among them. A name whose
letters all occur in a candidate, in order and without regard to case, is taken for
an abbreviation of it; only when there is no such candidate does plain closeness
decide.
-/

set_option autoImplicit false
set_option relaxedAutoImplicit false

namespace TokenLang.Text.Suggestion

def isSubsequence : List Char → List Char → Bool
  | [], _ => true
  | _ :: _, [] => false
  | c :: cs, d :: ds => if c = d then isSubsequence cs ds else isSubsequence (c :: cs) ds

/-- Whether a name in small letters can be read as an abbreviation of a candidate. -/
def abbreviates (small candidate : String) : Bool :=
  let long := Fold.fold candidate
  small.utf8ByteSize ≤ long.utf8ByteSize && isSubsequence small.toList long.toList

/-- The candidates that a name abbreviates, ranked by their distance. -/
def abbreviated (name : String) (candidates : List String) : List (PatternSort.Ranked String) :=
  let small := Fold.fold name
  (candidates.filter (abbreviates small)).map fun c ↦ ⟨Distance.levenshtein name c, c⟩

/-- The first candidate at the least distance, if that is below the bound. -/
def nearest (name : String) : List String → Option String → Nat → Option String
  | [], best, _ => best
  | candidate :: rest, best, bound =>
    let d := Distance.levenshtein name candidate
    if d < bound then nearest name rest (some candidate) d else nearest name rest best bound

/-- Names this many edits away, or more, are not suggested. -/
def reach : Nat := 3

def suggestion (name : String) (candidates : List String) : Option String :=
  match abbreviated name candidates with
  | [] => nearest name candidates none reach
  | ranked => PatternSort.first? ranked

end TokenLang.Text.Suggestion

import Mathlib.Data.String.Basic
import Mathlib.Order.Compare
import Mathlib.Tactic
import TokenLang.Proofs.Eval.Contract

/-!
Comparisons of many arguments. A comparison looks at neighbours only, and a search for the least or
the greatest argument only at the best one so far. Integers and truth values, strings, and
characters stand each in one line (`Value.exists_rank`), so what holds of neighbours holds of any
two arguments in their order, and what is never beaten on the way is beaten by none. Characters are
compared by a difference of 32 bits, which does not wrap around for code points
(`Value.toInt_charDifference`); integers of 32 bits that are no code points make no character here.
Main statement: `Comparison.chain_pairwise`.
-/

set_option autoImplicit false
set_option relaxedAutoImplicit false

namespace TokenLang

/-! ### Values that stand in line -/

namespace Value

/-- The integer that a value counts as. -/
def count? : Value → Option Int
  | .int i => some i.toInt
  | .bool b => some (if b then 1 else 0)
  | _ => none

/-- Whether a value comes before another of its kind. -/
def Precedes : Value → Value → Prop
  | .string a, .string b => a < b
  | .char a, .char b => a < b
  | a, b => ∃ m n, a.count? = some m ∧ b.count? = some n ∧ m < n

/-- Values of one kind: integers and truth values, or strings, or characters. -/
def Kindred (vs : List Value) : Prop :=
  (∀ v ∈ vs, v.count?.isSome) ∨ (∀ v ∈ vs, ∃ s, v = .string s) ∨ ∀ v ∈ vs, ∃ c, v = .char c

/-- A rank of values by which all those of a list are compared. -/
def RankedBy {α : Type} [LinearOrder α] (rank : Value → α) (vs : List Value) : Prop :=
  ∀ a ∈ vs, ∀ b ∈ vs,
    (a.Precedes b ↔ rank a < rank b) ∧ a.compare? b = some (cmp (rank a) (rank b))

/-! Three ranks, each for the values of one kind. -/

def counted (v : Value) : Int := v.count?.getD 0

def characters : Value → String
  | .string s => s
  | _ => ""

def character : Value → Char
  | .char c => c
  | _ => ' '

theorem exists_number_of_count? {v : Value} {n : Int} (h : v.count? = some n) :
    ∃ i : Int64, v.number? = some (.int i) ∧ i.toInt = n := by
  cases v with
  | int i => exact ⟨i, rfl, Option.some.inj h⟩
  | bool b =>
    cases b with
    | false => exact ⟨0, rfl, Option.some.inj h⟩
    | true => exact ⟨1, rfl, Option.some.inj h⟩
  | _ => cases h

/-- What counts as an integer is compared as a number. -/
theorem compare?_of_count? {a b : Value} {m n : Int} (ha : a.count? = some m)
    (hb : b.count? = some n) : a.compare? b = some (cmp m n) := by
  obtain ⟨i, hi, rfl⟩ := exists_number_of_count? ha
  obtain ⟨j, hj, rfl⟩ := exists_number_of_count? hb
  have hnumbers : a.compare? b = Number.compare? (.int i) (.int j) := by
    cases a with
    | string s => cases ha
    | char c => cases ha
    | _ => simp only [compare?, hi, hj]
  rw [hnumbers, cmp, cmpUsing]
  simp only [Number.compare?, Int64.lt_iff_toInt_lt]

theorem precedes_of_count? {a b : Value} {m n : Int} (ha : a.count? = some m)
    (hb : b.count? = some n) : a.Precedes b ↔ m < n := by
  have hcounts : a.Precedes b ↔ ∃ m n, a.count? = some m ∧ b.count? = some n ∧ m < n := by
    cases a with
    | string s => cases ha
    | char c => cases ha
    | _ => rw [Precedes]; all_goals nofun
  simp [hcounts, ha, hb]

theorem rankedBy_counted {vs : List Value} (h : ∀ v ∈ vs, v.count?.isSome) :
    RankedBy counted vs := by
  intro a ha b hb
  obtain ⟨m, hm⟩ := Option.isSome_iff_exists.mp (h a ha)
  obtain ⟨n, hn⟩ := Option.isSome_iff_exists.mp (h b hb)
  have ham : a.counted = m := by rw [counted, hm, Option.getD_some]
  have hbn : b.counted = n := by rw [counted, hn, Option.getD_some]
  rw [ham, hbn]
  exact ⟨precedes_of_count? hm hn, compare?_of_count? hm hn⟩

/-- Code points are far from the bounds of 32 bits. -/
theorem toInt_codePoint (c : Char) :
    c.val.toInt32.toInt = c.val.toNat ∧ c.val.toNat < 0x110000 := by
  have hlt : c.val.toNat < 0x110000 := by
    rcases c.valid with h | ⟨-, h⟩ <;> omega
  refine ⟨BitVec.toInt_eq_toNat_of_lt ?_, hlt⟩
  simp only [UInt32.toBitVec_toInt32, UInt32.toNat_toBitVec]
  omega

/-- The difference of two characters does not wrap around. -/
theorem toInt_charDifference (a b : Char) :
    (charDifference a b).toInt = (a.val.toNat : Int) - b.val.toNat := by
  obtain ⟨ha, hlta⟩ := toInt_codePoint a
  obtain ⟨hb, hltb⟩ := toInt_codePoint b
  rw [charDifference, Int32.toInt_sub, ha, hb]
  exact Int.bmod_eq_of_le (by omega) (by omega)

theorem compareChars_eq_cmp (a b : Char) : compareChars a b = cmp a b := by
  have hlt : ∀ x y : Char, x < y ↔ (x.val.toNat : Int) < y.val.toNat := fun x y ↦ by
    rw [Char.lt_def, UInt32.lt_iff_toNat_lt, Int.ofNat_lt]
  have hnegative : charDifference a b < 0 ↔ a < b := by
    rw [Int32.lt_iff_toInt_lt, toInt_charDifference, hlt, Int32.toInt_zero, sub_neg]
  have hpositive : 0 < charDifference a b ↔ b < a := by
    rw [Int32.lt_iff_toInt_lt, toInt_charDifference, hlt, Int32.toInt_zero, sub_pos]
  simp only [compareChars, hnegative, hpositive, cmp, cmpUsing]

/-- Values of one constructor, which are compared by what they are made of. -/
theorem rankedBy_of_make {α : Type} [LinearOrder α] (make : α → Value) (rank : Value → α)
    (hrank : ∀ x, rank (make x) = x) (hprecedes : ∀ x y, (make x).Precedes (make y) ↔ x < y)
    (hcompare : ∀ x y, (make x).compare? (make y) = some (cmp x y)) {vs : List Value}
    (h : ∀ v ∈ vs, ∃ x, v = make x) : RankedBy rank vs := by
  intro a ha b hb
  obtain ⟨x, rfl⟩ := h a ha
  obtain ⟨y, rfl⟩ := h b hb
  rw [hrank, hrank]
  exact ⟨hprecedes x y, hcompare x y⟩

/-- Values of one kind have such a rank. -/
theorem exists_rank {vs : List Value} (h : Kindred vs) :
    ∃ (α : Type) (_ : LinearOrder α) (rank : Value → α), RankedBy rank vs := by
  rcases h with hcount | hstring | hchar
  · exact ⟨Int, inferInstance, counted, rankedBy_counted hcount⟩
  · exact ⟨String, inferInstance, characters, rankedBy_of_make .string characters
      (fun _ ↦ rfl) (fun _ _ ↦ Iff.rfl) (fun _ _ ↦ rfl) hstring⟩
  · exact ⟨Char, inferInstance, character, rankedBy_of_make .char character
      (fun _ ↦ rfl) (fun _ _ ↦ Iff.rfl) (fun a b ↦ congrArg some (compareChars_eq_cmp a b)) hchar⟩

end Value

/-! ### Comparisons in line -/

namespace Comparison

/-- The four comparisons that go by order. -/
def IsOrder (op : Comparison) : Prop :=
  op = .less ∨ op = .lessEqual ∨ op = .greater ∨ op = .greaterEqual

/-- The comparison with its sides exchanged. -/
def converse : Comparison → Comparison
  | .less => .greater
  | .lessEqual => .greaterEqual
  | .greater => .less
  | .greaterEqual => .lessEqual
  | op => op

/-- What a comparison says of two values of one kind. -/
def Says : Comparison → Value → Value → Prop
  | .less, a, b => a.Precedes b
  | .lessEqual, a, b => ¬b.Precedes a
  | .greater, a, b => b.Precedes a
  | .greaterEqual, a, b => ¬a.Precedes b
  | _, _, _ => False

/-- What a comparison says of two ranks. -/
def SaysOf {α : Type} [LinearOrder α] : Comparison → α → α → Prop
  | .less, x, y => x < y
  | .lessEqual, x, y => x ≤ y
  | .greater, x, y => y < x
  | .greaterEqual, x, y => y ≤ x
  | _, _, _ => False

theorem isOrder_converse {op : Comparison} (h : op.IsOrder) : op.converse.IsOrder := by
  rcases h with rfl | rfl | rfl | rfl <;> simp [IsOrder, converse]

section Ranks

variable {α : Type} [LinearOrder α] {op : Comparison}

theorem admits_cmp (h : op.IsOrder) (x y : α) : op.admits (cmp x y) = true ↔ op.SaysOf x y := by
  rcases h with rfl | rfl | rfl | rfl
  · rw [admits, beq_iff_eq, cmp_eq_lt_iff, SaysOf]
  · rw [admits, bne_iff_ne, ne_eq, cmp_eq_gt_iff, SaysOf, not_lt]
  · rw [admits, beq_iff_eq, cmp_eq_gt_iff, SaysOf]
  · rw [admits, bne_iff_ne, ne_eq, cmp_eq_lt_iff, SaysOf, not_lt]

theorem saysOf_trans {x y z : α} (hxy : op.SaysOf x y) (hyz : op.SaysOf y z) : op.SaysOf x z := by
  cases op with
  | less => exact lt_trans hxy hyz
  | lessEqual => exact le_trans hxy hyz
  | greater => exact lt_trans hyz hxy
  | greaterEqual => exact le_trans hyz hxy
  | equal => exact hxy
  | different => exact hxy

theorem saysOf_converse (h : op.IsOrder) (x y : α) : op.converse.SaysOf y x ↔ op.SaysOf x y := by
  rcases h with rfl | rfl | rfl | rfl <;> rfl

variable {rank : Value → α} {vs : List Value} {a b : Value}

theorem holds_iff_saysOf (hrank : Value.RankedBy rank vs) (h : op.IsOrder) (ha : a ∈ vs)
    (hb : b ∈ vs) : op.holds a b = true ↔ op.SaysOf (rank a) (rank b) := by
  rw [holds, (hrank a ha b hb).2]
  exact admits_cmp h _ _

theorem says_iff_saysOf (hrank : Value.RankedBy rank vs) (ha : a ∈ vs) (hb : b ∈ vs) :
    op.Says a b ↔ op.SaysOf (rank a) (rank b) := by
  cases op with
  | less => exact (hrank a ha b hb).1
  | lessEqual => exact (not_congr (hrank b hb a ha).1).trans not_lt
  | greater => exact (hrank b hb a ha).1
  | greaterEqual => exact (not_congr (hrank a ha b hb).1).trans not_lt
  | equal => exact Iff.rfl
  | different => exact Iff.rfl

end Ranks

/-! ### Neighbours -/

section Neighbours

variable {op : Comparison} {args : List Token} {vs : List Value}

/-- Comparing tokens that hold values answers, and holds just when the comparison holds between each
two neighbours. -/
theorem exists_holdsAlong (op : Comparison) (hvs : args.map Token.value? = vs.map some) :
    ∃ answer, op.holdsAlong args = .ok answer ∧
      (answer = true ↔ vs.IsChain fun a b ↦ op.holds a b = true) := by
  induction vs generalizing args with
  | nil =>
    obtain rfl : args = [] := List.map_eq_nil_iff.mp hvs
    exact ⟨true, rfl, by simp⟩
  | cons v vs ih =>
    obtain ⟨t, rest, rfl, ht, hrest⟩ := List.map_eq_cons_iff.mp hvs
    cases vs with
    | nil =>
      obtain rfl : rest = [] := List.map_eq_nil_iff.mp hrest
      exact ⟨true, rfl, by simp⟩
    | cons v' vs =>
      obtain ⟨t', rest, rfl, ht', -⟩ := List.map_eq_cons_iff.mp hrest
      obtain ⟨answer, hanswer, hiff⟩ := ih hrest
      have hstep : op.holdsAlong (t :: t' :: rest) =
          if op.holds v v' then op.holdsAlong (t' :: rest) else .ok false := by
        rw [holdsAlong, Token.payload, Token.payload, ht, ht']
        rfl
      rw [hstep, List.isChain_cons_cons]
      by_cases hholds : op.holds v v' = true
      · exact ⟨answer, by rw [if_pos hholds, hanswer], by simp [hholds, hiff]⟩
      · exact ⟨false, if_neg hholds, by simp [hholds]⟩

theorem test_eq_holdsAlong (h : op.IsOrder) (args : List Token) :
    op.test args = op.holdsAlong args := by
  rcases h with rfl | rfl | rfl | rfl <;> rfl

/-- What holds of neighbours holds of any two arguments in their order. -/
theorem isChain_iff_pairwise (h : op.IsOrder) (hkin : Value.Kindred vs) :
    (vs.IsChain fun a b ↦ op.holds a b = true) ↔ vs.Pairwise fun a b ↦ op.holds a b = true := by
  obtain ⟨α, _, rank, hrank⟩ := Value.exists_rank hkin
  have htrans : Trans (fun a b ↦ op.SaysOf (rank a) (rank b))
      (fun a b ↦ op.SaysOf (rank a) (rank b)) (fun a b ↦ op.SaysOf (rank a) (rank b)) :=
    ⟨saysOf_trans⟩
  refine ⟨fun hchain ↦ ?_, List.Pairwise.isChain⟩
  have hranks : vs.IsChain fun a b ↦ op.SaysOf (rank a) (rank b) :=
    hchain.imp_of_mem_imp fun a b ha hb ↦ (holds_iff_saysOf hrank h ha hb).mp
  exact (List.isChain_iff_pairwise.mp hranks).imp_of_mem fun ha hb ↦
    (holds_iff_saysOf hrank h ha hb).mpr

theorem exists_test (h : op.IsOrder) (hkin : Value.Kindred vs)
    (hvs : args.map Token.value? = vs.map some) :
    ∃ answer, op.test args = .ok answer ∧
      (answer = true ↔ vs.Pairwise fun a b ↦ op.holds a b = true) := by
  obtain ⟨answer, hanswer, hiff⟩ := exists_holdsAlong op hvs
  exact ⟨answer, by rw [test_eq_holdsAlong h, hanswer], hiff.trans (isChain_iff_pairwise h hkin)⟩

theorem kindred_reverse (hkin : Value.Kindred vs) : Value.Kindred vs.reverse := by
  simpa [Value.Kindred] using hkin

theorem test_converse_reverse (h : op.IsOrder) (hkin : Value.Kindred vs)
    (hvs : args.map Token.value? = vs.map some) :
    op.converse.test args.reverse = op.test args := by
  obtain ⟨answer, hanswer, hiff⟩ := exists_test h hkin hvs
  obtain ⟨answer', hanswer', hiff'⟩ := exists_test (isOrder_converse h) (kindred_reverse hkin)
    (show args.reverse.map Token.value? = vs.reverse.map some by
      rw [List.map_reverse, List.map_reverse, hvs])
  obtain ⟨α, _, rank, hrank⟩ := Value.exists_rank hkin
  have hsame : (vs.reverse.Pairwise fun a b ↦ op.converse.holds a b = true) ↔
      vs.Pairwise fun a b ↦ op.holds a b = true := by
    rw [List.pairwise_reverse]
    refine List.Pairwise.iff_of_mem fun ha hb ↦ ?_
    rw [holds_iff_saysOf hrank (isOrder_converse h) hb ha, holds_iff_saysOf hrank h ha hb]
    exact saysOf_converse h _ _
  rw [hanswer, hanswer', Bool.eq_iff_iff.mpr (hiff'.trans (hsame.trans hiff.symm))]

end Neighbours

/-! ### The first that none beats -/

/-- The value at a place is the first of those that no other one beats. -/
structure Foremost (op : Comparison) (vs : List Value) (i : Nat) (v : Value) : Prop where
  place : vs[i]? = some v
  unbeaten : ∀ u ∈ vs, ¬op.Says u v
  first : ∀ j u, j < i → vs[j]? = some u → op.Says v u

section Foremost

variable {α : Type} [LinearOrder α] {rank : Value → α} {op : Comparison} {before : List Value}
  {i : Nat} {u v : Value}

/-- A value that beats the best one so far beats all. -/
theorem Foremost.beaten (hop : op = .less ∨ op = .greater)
    (hrank : Value.RankedBy rank (before ++ [u])) (h : Foremost op before i v) (hu : op.Says u v) :
    Foremost op (before ++ [u]) before.length u := by
  have hmem : ∀ {w}, w ∈ before → w ∈ before ++ [u] := List.mem_append_left _
  have hv := hmem (List.mem_of_getElem? h.place)
  have hlast : u ∈ before ++ [u] := by simp
  rw [says_iff_saysOf hrank hlast hv] at hu
  refine ⟨by simp, fun w hw ↦ ?_, fun j w hj hw ↦ ?_⟩
  · rw [says_iff_saysOf hrank hw hlast]
    rcases List.mem_append.mp hw with hw | hw
    · have hnot := h.unbeaten w hw
      rw [says_iff_saysOf hrank (hmem hw) hv] at hnot
      exact fun hwu ↦ hnot (saysOf_trans hwu hu)
    · obtain rfl := List.mem_singleton.mp hw
      rcases hop with rfl | rfl <;> exact lt_irrefl _
  · rw [List.getElem?_append_left hj] at hw
    have hw := List.mem_of_getElem? hw
    have hnot := h.unbeaten w hw
    rw [says_iff_saysOf hrank (hmem hw) hv] at hnot
    rw [says_iff_saysOf hrank hlast (hmem hw)]
    rcases hop with rfl | rfl
    · exact lt_of_lt_of_le hu (not_lt.mp hnot)
    · exact lt_of_le_of_lt (not_lt.mp hnot) hu

/-- One that does not leaves it the best. -/
theorem Foremost.kept (h : Foremost op before i v) (hu : ¬op.Says u v) :
    Foremost op (before ++ [u]) i v := by
  have hi : i < before.length := (List.getElem?_eq_some_iff.mp h.place).1
  refine ⟨by rw [List.getElem?_append_left hi, h.place], fun w hw ↦ ?_, fun j w hj hw ↦ ?_⟩
  · rcases List.mem_append.mp hw with hw | hw
    · exact h.unbeaten w hw
    · rwa [List.mem_singleton.mp hw]
  · rw [List.getElem?_append_left (by omega)] at hw
    exact h.first j w hj hw

end Foremost

/-- The search goes from the best argument so far to the best of all. -/
theorem exists_best {α : Type} [LinearOrder α] {rank : Value → α} {op : Comparison}
    (hop : op = .less ∨ op = .greater) (done : List Token) (before : List Value)
    {rest : List Token} {later : List Value} {i : Nat} {t : Token} {v : Value}
    (hrank : Value.RankedBy rank (before ++ later)) (hlength : done.length = before.length)
    (hplace : done[i]? = some t) (ht : t.value? = some v) (h : Foremost op before i v)
    (hrest : rest.map Token.value? = later.map some) :
    ∃ j t' v', op.best t rest = .ok t' ∧ (done ++ rest)[j]? = some t' ∧ t'.value? = some v' ∧
      Foremost op (before ++ later) j v' := by
  induction later generalizing rest done before i t v with
  | nil =>
    obtain rfl : rest = [] := List.map_eq_nil_iff.mp hrest
    exact ⟨i, t, v, rfl, by rwa [List.append_nil], ht, by rwa [List.append_nil]⟩
  | cons u later ih =>
    obtain ⟨t', rest, rfl, ht', hrest⟩ := List.map_eq_cons_iff.mp hrest
    have hstep : op.best t (t' :: rest) =
        if op.holds u v then op.best t' rest else op.best t rest := by
      rw [best, Token.payload, Token.payload, ht, ht']
      rfl
    have horder : op.IsOrder := by rcases hop with rfl | rfl <;> simp [IsOrder]
    have hv : v ∈ before ++ u :: later :=
      List.mem_append_left _ (List.mem_of_getElem? h.place)
    have hu : u ∈ before ++ u :: later := by simp
    have hmeant : op.holds u v = true ↔ op.Says u v :=
      (holds_iff_saysOf hrank horder hu hv).trans (says_iff_saysOf hrank hu hv).symm
    rw [List.append_cons before] at hrank ⊢
    rw [List.append_cons done, hstep]
    have hnext : Value.RankedBy rank (before ++ [u]) := fun a ha b hb ↦
      hrank a (List.mem_append_left _ ha) b (List.mem_append_left _ hb)
    by_cases hholds : op.holds u v = true
    · rw [if_pos hholds]
      exact ih _ _ hrank (by simp [hlength]) (by simp [hlength]) ht'
        (h.beaten hop hnext (hmeant.mp hholds)) hrest
    · rw [if_neg hholds]
      have hi : i < done.length := (List.getElem?_eq_some_iff.mp hplace).1
      exact ih _ _ hrank (by simp [hlength]) (by rw [List.getElem?_append_left hi, hplace]) ht
        (h.kept (mt hmeant.mpr hholds)) hrest

end Comparison

/-! ### Calls -/

section Calls

variable (ev : Evaluator) (fuel : Nat) (id : ScopeId) (w : World)

theorem Evaluator.call_compare {op : Comparison} {args : List Token} {answer : Bool}
    (h : op.test args = .ok answer) (ref : Ref) (pos : Option Position) :
    (ev.call fuel id (.done (.function (.compare op) ref) pos) args).run.run w =
      (.ok [.stable (.bool answer)], w) := by
  show ((Callable.apply ev fuel id (.compare op) args >>= fun t ↦ pure t.toList).run.run w = _)
  show ((EvalM.ofExcept (op.test args) >>= Callable.bool) >>= fun t ↦ pure t.toList).run.run w = _
  rw [h]
  rfl

/-- The methods of the least and the greatest argument hand out what the search comes to. -/
theorem Evaluator.call_extremum {op : Comparison} {name : String}
    (hname : name = "min" ∧ op = .less ∨ name = "max" ∧ op = .greater) {method t t' : Token}
    {rest : List Token} (hmethod : Method.name? method = some name)
    (h : op.best t rest = .ok t') (ref : Ref) (pos : Option Position) :
    (ev.call fuel id (.done (.object .math ref) pos) (method :: t :: rest)).run.run w =
      (.ok [t'], w) := by
  have hmath : Method.ofMath name (t :: rest) = some <$> EvalM.ofExcept (op.best t rest) := by
    rcases hname with ⟨rfl, rfl⟩ | ⟨rfl, rfl⟩ <;> rfl
  have hcall : ev.call fuel id (.done (.object .math ref) pos) (method :: t :: rest) =
      (Method.ofMath name (t :: rest) >>= fun answer ↦ pure answer.toList) := by
    show ev.callMethod fuel id (.done (.object .math ref) pos) method (t :: rest) = _
    rw [Evaluator.callMethod, hmethod]
    rfl
  rw [hcall, hmath, h]
  rfl

end Calls

/-- For arguments that are integers and truth values, or strings, or characters: a comparison by
order says what it says of their order; it holds of all of them exactly if it holds of any two in
their order, not only of neighbours; and the comparison with its sides exchanged gives the same
answer for the arguments in reverse. The least and the greatest of at least one such argument are
the first that are so. -/
theorem Comparison.chain_pairwise {args : List Token} {vs : List Value}
    (hvs : args.map Token.value? = vs.map some) (hkin : Value.Kindred vs) :
    (∀ op : Comparison, op.IsOrder →
      (∀ a ∈ vs, ∀ b ∈ vs, op.holds a b = true ↔ op.Says a b) ∧
      (∃ answer, op.test args = .ok answer ∧
        (answer = true ↔ vs.Pairwise fun a b ↦ op.holds a b = true) ∧
        ∀ (ev : Evaluator) fuel id ref pos w,
          (ev.call fuel id (.done (.function (.compare op) ref) pos) args).run.run w =
            (.ok [.stable (.bool answer)], w)) ∧
      op.test args = op.converse.test args.reverse) ∧
    (args ≠ [] → ∀ (op : Comparison) (name : String),
      name = "min" ∧ op = .less ∨ name = "max" ∧ op = .greater →
      ∃ i t v, args[i]? = some t ∧ t.value? = some v ∧ op.Foremost vs i v ∧
        ∀ (ev : Evaluator) fuel id method ref pos w, Method.name? method = some name →
          (ev.call fuel id (.done (.object .math ref) pos) (method :: args)).run.run w =
            (.ok [t], w)) := by
  obtain ⟨α, _, rank, hrank⟩ := Value.exists_rank hkin
  refine ⟨fun op h ↦ ⟨fun a ha b hb ↦ ?_, ?_, (test_converse_reverse h hkin hvs).symm⟩,
    fun hne op name hname ↦ ?_⟩
  · rw [holds_iff_saysOf hrank h ha hb, says_iff_saysOf hrank ha hb]
  · obtain ⟨answer, hanswer, hiff⟩ := exists_test h hkin hvs
    exact ⟨answer, hanswer, hiff, fun ev fuel id ref pos w ↦
      ev.call_compare fuel id w hanswer ref pos⟩
  · have hop : op = .less ∨ op = .greater := hname.imp And.right And.right
    obtain ⟨t, rest, rfl⟩ := List.exists_cons_of_ne_nil hne
    obtain ⟨v, later, rfl, ht, hrest⟩ := List.map_eq_cons_iff.mp hvs.symm
    have hfirst : op.Foremost [v] 0 v := by
      refine ⟨rfl, fun u hu ↦ ?_, fun j u hj ↦ absurd hj (Nat.not_lt_zero j)⟩
      obtain rfl := List.mem_singleton.mp hu
      rw [says_iff_saysOf hrank (List.mem_cons_self ..) (List.mem_cons_self ..)]
      rcases hop with rfl | rfl <;> exact lt_irrefl _
    obtain ⟨i, t', v', hbest, hplace, hv', hforemost⟩ :=
      exists_best hop [t] [v] hrank rfl rfl ht.symm hfirst hrest.symm
    exact ⟨i, t', v', hplace, hv', hforemost, fun ev fuel id method ref pos w hmethod ↦
      ev.call_extremum fuel id w hname hmethod hbest ref pos⟩

/-- A truth value among integers, strings of which one begins another, and the first and the last
character. -/
theorem Comparison.chain_pairwise_mixed :
    Value.Kindred [.bool false, .int 1, .int 7] ∧
    Comparison.less.test [.stable (.bool false), .stable (.int 1), .stable (.int 7)] = .ok true ∧
    Comparison.greater.test [.stable (.int 7), .stable (.int 1), .stable (.bool false)] = .ok true ∧
    (∃ i v, Comparison.greater.Foremost [.bool false, .int 1, .int 7] i v) ∧
    Value.Kindred [.string "a", .string "ab", .string "b"] ∧
    Comparison.less.test [.stable (.string "a"), .stable (.string "ab"), .stable (.string "b")] =
      .ok true ∧
    Value.Kindred [.char '\x00', .char 'a', .char (.ofNat 0x10ffff)] ∧
    Comparison.less.test
      [.stable (.char '\x00'), .stable (.char 'a'), .stable (.char (.ofNat 0x10ffff))] =
        .ok true := by
  have hkin : Value.Kindred [.bool false, .int 1, .int 7] := .inl (by simp [Value.count?])
  obtain ⟨horder, hextremum⟩ := Comparison.chain_pairwise
    (show ([.stable (.bool false), .stable (.int 1), .stable (.int 7)] : List Token).map
      Token.value? = [.bool false, .int 1, .int 7].map some from rfl) hkin
  obtain ⟨-, ⟨answer, hanswer, hiff, -⟩, hreverse⟩ := horder .less (.inl rfl)
  obtain rfl : answer = true := hiff.mpr (by decide)
  obtain ⟨i, -, v, -, -, hforemost, -⟩ := hextremum (by simp) .greater "max" (.inr ⟨rfl, rfl⟩)
  have hstrings : Value.Kindred [.string "a", .string "ab", .string "b"] :=
    .inr (.inl (by simp))
  obtain ⟨-, ⟨joined, hjoined, hpairs, -⟩, -⟩ := (Comparison.chain_pairwise
    (show ([.stable (.string "a"), .stable (.string "ab"), .stable (.string "b")] : List Token).map
      Token.value? = [.string "a", .string "ab", .string "b"].map some from rfl) hstrings).1
        .less (.inl rfl)
  obtain rfl : joined = true := hpairs.mpr (by decide)
  have hchars : Value.Kindred [.char '\x00', .char 'a', .char (.ofNat 0x10ffff)] :=
    .inr (.inr (by simp))
  obtain ⟨-, ⟨apart, hapart, hends, -⟩, -⟩ := (Comparison.chain_pairwise
    (show ([.stable (.char '\x00'), .stable (.char 'a'), .stable (.char (.ofNat 0x10ffff))] :
      List Token).map Token.value? =
        [.char '\x00', .char 'a', .char (.ofNat 0x10ffff)].map some from rfl) hchars).1
          .less (.inl rfl)
  obtain rfl : apart = true := hends.mpr (by decide)
  exact ⟨hkin, hanswer, hreverse.symm.trans hanswer, ⟨i, v, hforemost⟩, hstrings, hjoined, hchars,
    hapart⟩

end TokenLang

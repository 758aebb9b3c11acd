import TokenLang.Arith
import Mathlib.Tactic

/-!
Arithmetic folds. Where the scope is not strict, a fold only depends on the numbers that its
arguments count as (`ArithOp.fold_eq`), and from there on each question about it is a question
about one application of the operator: what it gives for integers, when it gives a float and when
it fails. What holds of one application is carried through a fold of any length by induction, and
`ArithOp.fold_outcome` puts the three answers together.
-/

set_option autoImplicit false
set_option relaxedAutoImplicit false

namespace TokenLang

/-- The number that an argument counts as: zero if it is none. -/
def Token.amount (t : Token) : Number := (t.value?.bind Value.number?).getD .zero

namespace ArithOp

/-! ### Folds of numbers -/

/-- What an operator takes of an operand: only the integer part, if it works on integers. -/
def taken (op : ArithOp) (n : Number) : Number := if op.isIntegral then .int n.toInt else n

/-- The result of an operator on numbers. -/
def ofNumbers (op : ArithOp) : List Number → Except Stop Number
  | [] => .ok op.start
  | [n] => op.single n
  | n :: ns => ns.foldlM op.apply n

/-- Where the scope is not strict, every value is an operand: what is no number is taken as one. -/
theorem operandOf_eq (op : ArithOp) {t : Token} (ht : t.value?.isSome = true) :
    op.operandOf false t = .ok (op.taken t.amount) := by
  obtain ⟨v, hv⟩ := Option.isSome_iff_exists.mp ht
  have hpayload : t.payload = .ok v := by rw [Token.payload, hv]
  have hamount : t.amount = v.number?.getD .zero := by rw [Token.amount, hv, Option.bind_some]
  have hzero : op.taken .zero = .zero := ite_self _
  rw [operandOf, hpayload, hamount]
  cases hnumber : v.number? with
  | some n =>
    simp only [bind, Except.bind, hnumber]
    rfl
  | none =>
    simp only [bind, Except.bind, hnumber]
    rw [Option.getD_none, hzero]
    rfl

theorem foldFrom_eq (op : ArithOp) {args : List Token} (hargs : ∀ t ∈ args, t.value?.isSome = true)
    (acc : Number) : foldFrom false op acc args =
      (args.map fun t ↦ op.taken t.amount).foldlM op.apply acc := by
  induction args generalizing acc with
  | nil => rfl
  | cons t args ih =>
    obtain ⟨ht, hargs⟩ := List.forall_mem_cons.mp hargs
    rw [foldFrom, operandOf_eq op ht, List.map_cons, List.foldlM_cons]
    exact bind_congr fun n ↦ ih hargs n

/-- A fold depends on nothing but the numbers that the arguments count as. -/
theorem fold_eq (op : ArithOp) {args : List Token} (hargs : ∀ t ∈ args, t.value?.isSome = true) :
    op.fold false args = op.ofNumbers (args.map fun t ↦ op.taken t.amount) := by
  match args with
  | [] => rfl
  | [t] =>
    rw [fold, operandOf_eq op (hargs t (List.mem_cons_self ..))]
    rfl
  | t :: u :: rest =>
    obtain ⟨ht, hrest⟩ := List.forall_mem_cons.mp hargs
    rw [fold, operandOf_eq op ht]
    · exact foldFrom_eq op hrest _
    · simp

/-! ### Integers -/

theorem apply_int (op : ArithOp) (a b : Int64) :
    op.apply (.int a) (.int b) = (op.onInts a b).map .int := by
  unfold apply
  split <;> rfl

theorem foldlM_apply_int (op : ArithOp) (bs : List Int64) (a : Int64) :
    (bs.map Number.int).foldlM op.apply (.int a) = (bs.foldlM op.onInts a).map .int := by
  induction bs generalizing a with
  | nil => rfl
  | cons b bs ih =>
    rw [List.map_cons, List.foldlM_cons, List.foldlM_cons, apply_int]
    cases op.onInts a b with
    | ok c => exact ih c
    | error stop => rfl

/-- The operators that compute with integers of any size and then keep sixty-four bits. -/
def onIntegers? : ArithOp → Option (Int → Int → Int)
  | .add => some fun x y ↦ x + y
  | .sub => some fun x y ↦ x - y
  | .mul => some fun x y ↦ x * y
  | _ => none

/-- The left fold of such an operator; a single operand of a difference is negated. -/
def exactFold (op : ArithOp) (f : Int → Int → Int) : List Int → Int
  | [] => if op = .mul then 1 else 0
  | [x] => if op = .sub then -x else x
  | x :: xs => xs.foldl f x

section Exact

variable {op : ArithOp} {f : Int → Int → Int} (hf : op.onIntegers? = some f)
include hf

theorem onInts_ofInt (x : Int) (b : Int64) :
    op.onInts (Int64.ofInt x) b = .ok (Int64.ofInt (f x b.toInt)) := by
  cases op <;> cases hf
  · exact congrArg Except.ok (by rw [Int64.ofInt_mul, Int64.ofInt_toInt])
  · exact congrArg Except.ok (by rw [Int64.ofInt_add, Int64.ofInt_toInt])
  · exact congrArg Except.ok (by rw [Int64.ofInt_sub, Int64.ofInt_toInt])

/-- Wrapping around at every step comes to the same as wrapping around once at the end. -/
theorem foldlM_onInts_ofInt (bs : List Int64) (x : Int) :
    bs.foldlM op.onInts (Int64.ofInt x) =
      .ok (Int64.ofInt ((bs.map Int64.toInt).foldl f x)) := by
  induction bs generalizing x with
  | nil => rfl
  | cons b bs ih =>
    rw [List.foldlM_cons, onInts_ofInt hf]
    exact ih (f x b.toInt)

/-- Integers come to the exact result, reduced to sixty-four bits. -/
theorem ofNumbers_exact (ints : List Int64) : op.ofNumbers (ints.map .int) =
    .ok (.int (Int64.ofInt (op.exactFold f (ints.map Int64.toInt)))) := by
  match ints with
  | [] => cases op <;> cases hf <;> rfl
  | [a] =>
    have hneg : Int64.ofInt (-a.toInt) = 0 - a := by
      rw [Int64.ofInt_neg, Int64.ofInt_toInt, Int64.zero_sub]
    cases op <;> cases hf
    · exact congrArg (fun i ↦ Except.ok (Number.int i)) (Int64.ofInt_toInt a).symm
    · exact congrArg (fun i ↦ Except.ok (Number.int i)) (Int64.ofInt_toInt a).symm
    · exact congrArg (fun i ↦ Except.ok (Number.int i)) hneg.symm
  | a :: b :: rest =>
    have hfold := foldlM_onInts_ofInt hf (b :: rest) a.toInt
    rw [Int64.ofInt_toInt] at hfold
    show ((b :: rest).map Number.int).foldlM op.apply (.int a) = _
    rw [foldlM_apply_int, hfold]
    rfl

end Exact

/-! ### The order of the operands -/

/-- Operators whose operands may be given in any order, with what they do to two integers and the
integer that changes none. -/
def commuting? : ArithOp → Option ((Int64 → Int64 → Int64) × Int64)
  | .add => some (fun x y ↦ x + y, 0)
  | .mul => some (fun x y ↦ x * y, 1)
  | .and => some (fun x y ↦ x &&& y, -1)
  | .or => some (fun x y ↦ x ||| y, 0)
  | .xor => some (fun x y ↦ x ^^^ y, 0)
  | _ => none

section Commuting

variable {op : ArithOp} {g : Int64 → Int64 → Int64} {unit : Int64}
  (hg : op.commuting? = some (g, unit))
include hg

theorem commuting_laws : op.onInts = (fun x y ↦ .ok (g x y)) ∧ (∀ x y, g x y = g y x) ∧
    (∀ x y z, g (g x y) z = g x (g y z)) ∧ (∀ x, g unit x = x) ∧ ∀ n, op.single n = .ok n := by
  cases op <;> cases hg
  · exact ⟨rfl, Int64.mul_comm, Int64.mul_assoc, Int64.one_mul, fun n ↦ rfl⟩
  · exact ⟨rfl, Int64.add_comm, Int64.add_assoc, Int64.zero_add, fun n ↦ rfl⟩
  · exact ⟨rfl, Int64.and_comm, Int64.and_assoc, fun x ↦ Int64.neg_one_and, fun n ↦ rfl⟩
  · exact ⟨rfl, Int64.xor_comm, Int64.xor_assoc, fun x ↦ Int64.zero_xor, fun n ↦ rfl⟩
  · exact ⟨rfl, Int64.or_comm, Int64.or_assoc, fun x ↦ Int64.zero_or, fun n ↦ rfl⟩

theorem ofNumbers_commuting {ints : List Int64} (hne : ints ≠ []) :
    op.ofNumbers (ints.map .int) = .ok (.int (ints.foldl g unit)) := by
  obtain ⟨honInts, -, -, hunit, hsingle⟩ := commuting_laws hg
  match ints with
  | [] => exact absurd rfl hne
  | [a] =>
    rw [List.foldl_cons, List.foldl_nil, hunit]
    exact hsingle (.int a)
  | a :: b :: rest =>
    show ((b :: rest).map Number.int).foldlM op.apply (.int a) = _
    rw [foldlM_apply_int, honInts, List.foldl_cons, hunit]
    exact congrArg (Except.map Number.int) List.foldlM_pure

theorem ofNumbers_perm {ints ints' : List Int64} (h : ints.Perm ints') :
    op.ofNumbers (ints.map .int) = op.ofNumbers (ints'.map .int) := by
  by_cases hempty : ints = []
  · subst hempty
    rw [List.nil_perm.mp h]
  · obtain ⟨-, hcomm, hassoc, -⟩ := commuting_laws hg
    have hempty' : ints' ≠ [] := fun hnil ↦ hempty (List.perm_nil.mp (hnil ▸ h))
    have : Std.Commutative g := ⟨hcomm⟩
    have : Std.Associative g := ⟨hassoc⟩
    rw [ofNumbers_commuting hg hempty, ofNumbers_commuting hg hempty', h.foldl_op_eq]

end Commuting

/-! ### Floats -/

/-- An application is on floats, and then it gives one, or on integers. -/
theorem apply_cases (op : ArithOp) (a b : Number) :
    op.isIntegral = false ∧ (a.isFloat || b.isFloat) = true ∧
        (∃ x, op.apply a b = .ok (.float x)) ∨
      (op.isIntegral = true ∨ (a.isFloat || b.isFloat) = false) ∧
        op.apply a b = (op.onInts a.toInt b.toInt).map .int := by
  unfold apply isIntegral
  cases op.onFloats? with
  | none => exact .inr ⟨.inl rfl, rfl⟩
  | some f =>
    by_cases hfloat : (a.isFloat || b.isFloat) = true
    · exact .inl ⟨rfl, hfloat, _, if_pos hfloat⟩
    · exact .inr ⟨.inr (Bool.eq_false_of_not_eq_true hfloat), if_neg hfloat⟩

/-- One application comes to a float just when the operator works on floats and one side is one. -/
theorem isFloat_of_apply {op : ArithOp} {a b n : Number} (h : op.apply a b = .ok n) :
    n.isFloat = (!op.isIntegral && (a.isFloat || b.isFloat)) := by
  rcases apply_cases op a b with ⟨hintegral, hfloat, x, hx⟩ | ⟨hints, heq⟩
  · cases hx.symm.trans h
    rw [hintegral, hfloat]
    rfl
  · have hint : n.isFloat = false := by
      rw [heq] at h
      cases hend : op.onInts a.toInt b.toInt <;> rw [hend] at h <;> cases h
      rfl
    rcases hints with hintegral | hfloat
    · rw [hint, hintegral, Bool.not_true, Bool.false_and]
    · rw [hint, hfloat, Bool.and_false]

/-- A fold comes to a float just when the operator works on floats and one of the numbers is one. -/
theorem isFloat_of_foldlM {op : ArithOp} {ns : List Number} {acc n : Number}
    (hacc : op.isIntegral = true → acc.isFloat = false)
    (h : ns.foldlM op.apply acc = .ok n) :
    n.isFloat = (!op.isIntegral && (acc :: ns).any Number.isFloat) := by
  induction ns generalizing acc with
  | nil =>
    cases h
    cases hintegral : op.isIntegral with
    | true => rw [hacc hintegral, Bool.not_true, Bool.false_and]
    | false => simp
  | cons m ns ih =>
    rw [List.foldlM_cons] at h
    cases happly : op.apply acc m with
    | ok next =>
      rw [happly] at h
      have hnext := isFloat_of_apply happly
      rw [ih (fun hintegral ↦ by rw [hnext, hintegral, Bool.not_true, Bool.false_and]) h,
        List.any_cons, hnext]
      cases op.isIntegral <;> simp [Bool.or_assoc]
    | error stop =>
      rw [happly] at h
      cases h

/-- The same for the operands of an operator: a single one is taken from zero or divides one, and
neither of these is a float. -/
theorem isFloat_of_ofNumbers {op : ArithOp} {ns : List Number} {n : Number}
    (htaken : op.isIntegral = true → ∀ m ∈ ns, m.isFloat = false)
    (h : op.ofNumbers ns = .ok n) :
    n.isFloat = (!op.isIntegral && ns.any Number.isFloat) := by
  match ns with
  | [] =>
    cases h
    simp [start, Number.isFloat]
  | [m] =>
    have hm : op.isIntegral = true → m.isFloat = false := fun hintegral ↦
      htaken hintegral m (List.mem_cons_self ..)
    have hplain : ([] : List Number).foldlM op.apply m = .ok n →
        n.isFloat = (!op.isIntegral && [m].any Number.isFloat) := isFloat_of_foldlM hm
    cases op
    case sub =>
      have hdifference : apply .sub .zero m = .ok n := h
      simpa [Number.zero, Number.isFloat] using isFloat_of_apply hdifference
    case div =>
      have hquotient : apply .div (.int 1) m = .ok n := h
      simpa [Number.isFloat] using isFloat_of_apply hquotient
    all_goals exact hplain h
  | m :: m' :: rest =>
    exact isFloat_of_foldlM (fun hintegral ↦ htaken hintegral m (List.mem_cons_self ..)) h

/-! ### Division by zero -/

theorem onInts_eq_error_iff {op : ArithOp} {x y : Int64} {stop : Stop} :
    op.onInts x y = .error stop ↔
      stop = .of .divisionByZero ∧ (op = .div ∨ op = .rem) ∧ y = 0 := by
  by_cases hzero : y = 0
  · cases op <;> simp [onInts, hzero, eq_comm]
  · cases op <;> simp [onInts, hzero]

/-- One application fails only where an integer is divided by zero. Division and remainder work on
floats too, so both operands are integers there. -/
theorem apply_eq_error_iff {op : ArithOp} {a b : Number} {stop : Stop} :
    op.apply a b = .error stop ↔ stop = .of .divisionByZero ∧ (op = .div ∨ op = .rem) ∧
      a.isFloat = false ∧ b = .int 0 := by
  rcases apply_cases op a b with ⟨-, hfloat, x, hx⟩ | ⟨hints, heq⟩
  · rw [hx]
    refine ⟨fun h ↦ (by cases h), ?_⟩
    rintro ⟨-, -, ha, rfl⟩
    rw [ha] at hfloat
    cases hfloat
  · have herror : op.apply a b = .error stop ↔ op.onInts a.toInt b.toInt = .error stop := by
      rw [heq]
      cases op.onInts a.toInt b.toInt <;> simp [Except.map]
    rw [herror, onInts_eq_error_iff]
    refine and_congr_right fun _ ↦ and_congr_right fun hop ↦ ?_
    have hfloat : (a.isFloat || b.isFloat) = false := by
      refine hints.resolve_left ?_
      rcases hop with rfl | rfl
      · decide
      · decide
    obtain ⟨ha, hb⟩ := Bool.or_eq_false_iff.mp hfloat
    cases b with
    | int i => simp [ha, Number.toInt]
    | float y => cases hb

/-- A fold fails at the first zero among integers, if no float comes before it. -/
theorem foldlM_eq_error_iff {op : ArithOp} {ns : List Number} {acc : Number} {stop : Stop} :
    ns.foldlM op.apply acc = .error stop ↔ stop = .of .divisionByZero ∧ (op = .div ∨ op = .rem) ∧
      ∃ before after, ns = before ++ .int 0 :: after ∧
        ∀ n ∈ acc :: before, n.isFloat = false := by
  induction ns generalizing acc with
  | nil =>
    refine ⟨fun h ↦ (by cases h), ?_⟩
    rintro ⟨-, -, before, after, hns, -⟩
    exact absurd hns.symm (by simp)
  | cons m ns ih =>
    rw [List.foldlM_cons]
    cases happly : op.apply acc m with
    | error stop' =>
      obtain ⟨rfl, hop, hacc, rfl⟩ := apply_eq_error_iff.mp happly
      constructor
      · intro h
        cases h
        exact ⟨rfl, hop, [], ns, rfl, by simpa using hacc⟩
      · rintro ⟨rfl, -⟩
        rfl
    | ok next =>
      have hnext := isFloat_of_apply happly
      have hstep : (∀ {stop'}, op.apply acc m ≠ .error stop') := by
        intro stop' herror
        rw [happly] at herror
        cases herror
      show ns.foldlM op.apply next = .error stop ↔ _
      rw [ih]
      refine and_congr_right fun hstop ↦ and_congr_right fun hop ↦ ?_
      have hintegral : op.isIntegral = false := by
        rcases hop with rfl | rfl
        · rfl
        · rfl
      rw [hintegral, Bool.not_false, Bool.true_and] at hnext
      constructor
      · rintro ⟨before, after, rfl, hbefore⟩
        refine ⟨m :: before, after, rfl, ?_⟩
        simp only [List.forall_mem_cons] at hbefore ⊢
        obtain ⟨hacc, hm⟩ := Bool.or_eq_false_iff.mp (hnext.symm.trans hbefore.1)
        exact ⟨hacc, hm, hbefore.2⟩
      · rintro ⟨before, after, hns, hbefore⟩
        simp only [List.forall_mem_cons] at hbefore
        cases before with
        | nil =>
          cases hns
          exact absurd (apply_eq_error_iff.mpr ⟨hstop, hop, hbefore.1, rfl⟩) hstep
        | cons m' before =>
          cases hns
          refine ⟨before, after, rfl, ?_⟩
          simp only [List.forall_mem_cons] at hbefore ⊢
          exact ⟨by rw [hnext, hbefore.1, hbefore.2.1]; rfl, hbefore.2.2⟩

/-- A quotient or remainder by a zero that comes after integers only, or the quotient of one by a
single zero. -/
def DividesByZero (op : ArithOp) (ns : List Number) : Prop :=
  (op = .div ∨ op = .rem) ∧ (∃ before after, ns = before ++ .int 0 :: after ∧ before ≠ [] ∧
    ∀ n ∈ before, n.isFloat = false) ∨ op = .div ∧ ns = [.int 0]

theorem DividesByZero.isIntegral_eq {op : ArithOp} {ns : List Number} (h : op.DividesByZero ns) :
    op.isIntegral = false := by
  rcases h with ⟨rfl | rfl, -⟩ | ⟨rfl, -⟩
  · rfl
  · rfl
  · rfl

theorem single_eq_error_iff {op : ArithOp} {n : Number} {stop : Stop} :
    op.single n = .error stop ↔ stop = .of .divisionByZero ∧ op = .div ∧ n = .int 0 := by
  cases op
  case sub =>
    have herror : apply .sub .zero n = .error stop ↔ _ := apply_eq_error_iff
    simpa [single] using herror
  case div =>
    have herror : apply .div (.int 1) n = .error stop ↔ _ := apply_eq_error_iff
    simpa [single, Number.isFloat] using herror
  all_goals simp [single]

/-- An operator fails by a division by zero only. -/
theorem ofNumbers_eq_error_iff {op : ArithOp} {ns : List Number} {stop : Stop} :
    op.ofNumbers ns = .error stop ↔ stop = .of .divisionByZero ∧ op.DividesByZero ns := by
  match ns with
  | [] => simp [ofNumbers, DividesByZero]
  | [n] =>
    have hlone : ¬ ∃ before after, [n] = before ++ .int 0 :: after ∧ before ≠ [] ∧
        ∀ m ∈ before, m.isFloat = false := by
      rintro ⟨before, after, hns, hne, -⟩
      have hlength := congrArg List.length hns
      have hpos := List.length_pos_of_ne_nil hne
      simp only [List.length_append, List.length_cons, List.length_nil] at hlength
      omega
    have hdivides : op.DividesByZero [n] ↔ op = .div ∧ n = .int 0 := by
      rw [DividesByZero, or_iff_right fun h ↦ hlone h.2, List.singleton_inj]
    rw [hdivides]
    exact single_eq_error_iff
  | n :: m :: rest =>
    have hseveral : ¬ (op = .div ∧ n :: m :: rest = [.int 0]) := by simp
    show (m :: rest).foldlM op.apply n = .error stop ↔ _
    rw [foldlM_eq_error_iff, DividesByZero, or_iff_left hseveral]
    refine and_congr_right fun _ ↦ and_congr_right fun _ ↦ ?_
    constructor
    · rintro ⟨before, after, hrest, hbefore⟩
      exact ⟨n :: before, after, by rw [hrest]; rfl, List.cons_ne_nil _ _, hbefore⟩
    · rintro ⟨before, after, hns, hne, hbefore⟩
      obtain ⟨n', before, rfl⟩ := List.exists_cons_of_ne_nil hne
      obtain ⟨rfl, hrest⟩ := List.cons_eq_cons.mp hns
      exact ⟨before, after, hrest, hbefore⟩

/-! ### The outcome of a fold -/

theorem isIntegral_iff {op : ArithOp} :
    op.isIntegral = false ↔ op ∈ [.add, .sub, .mul, .div, .rem] := by
  cases op <;> decide

theorem taken_of_not_isIntegral {op : ArithOp} (h : op.isIntegral = false) :
    op.taken = id := by
  funext n
  rw [taken, h]
  rfl

theorem isFloat_taken {op : ArithOp} (h : op.isIntegral = true) (n : Number) :
    (op.taken n).isFloat = false := by
  rw [taken, if_pos h]
  rfl

/-- What an operator takes without floats, or of its own accord, are integers. -/
theorem map_taken {op : ArithOp} {args : List Token}
    (h : op.isIntegral = false → ∀ n ∈ args.map Token.amount, n.isFloat = false) :
    args.map (fun t ↦ op.taken t.amount) = (args.map fun t ↦ t.amount.toInt).map .int := by
  rw [List.map_map]
  refine List.map_congr_left fun t ht ↦ ?_
  rw [taken, Function.comp_apply]
  split_ifs with hintegral
  · rfl
  · have hfloat := h (Bool.eq_false_of_not_eq_true hintegral) _ (List.mem_map_of_mem ht)
    cases hamount : t.amount with
    | int i => rfl
    | float x =>
      rw [hamount] at hfloat
      cases hfloat

theorem exists_commuting_iff {op : ArithOp} :
    (∃ g unit, op.commuting? = some (g, unit)) ↔ op ∈ [.add, .mul, .and, .or, .xor] := by
  cases op <;> simp [commuting?]

/-- The order of the operands makes no difference where all are taken as integers. -/
theorem fold_perm {op : ArithOp} (hop : op ∈ [.add, .mul, .and, .or, .xor])
    {args args' : List Token} (hargs : ∀ t ∈ args, t.value?.isSome = true)
    (hints : op.isIntegral = false → ∀ n ∈ args.map Token.amount, n.isFloat = false)
    (hperm : args'.Perm args) : op.fold false args' = op.fold false args := by
  obtain ⟨g, unit, hg⟩ := exists_commuting_iff.mpr hop
  have hints' : op.isIntegral = false → ∀ n ∈ args'.map Token.amount, n.isFloat = false :=
    fun hfloats n hn ↦ hints hfloats n ((hperm.map Token.amount).mem_iff.mp hn)
  rw [fold_eq op hargs, fold_eq op fun t ht ↦ hargs t (hperm.mem_iff.mp ht), map_taken hints,
    map_taken hints']
  exact ofNumbers_perm hg (hperm.map _)

/-- Arithmetic folds where the scope is not strict. Without floats, sums, differences and products
are those of integers of any size, reduced to sixty-four bits, and sums and products are the same
for every order of their operands, as bitwise operators are in any case. A result is a float just
when the operator works on floats and an operand is one. The only failure is a division by zero,
which comes about where a zero follows integers only, or from the quotient of one by a single
zero. -/
theorem fold_outcome (op : ArithOp) (args : List Token)
    (hargs : ∀ t ∈ args, t.value?.isSome = true) :
    let amounts := args.map Token.amount
    ((∀ n ∈ amounts, n.isFloat = false) → ∀ f, op.onIntegers? = some f → op.fold false args =
      .ok (.int (Int64.ofInt (op.exactFold f (amounts.map fun n ↦ n.toInt.toInt))))) ∧
    ((op ∈ [.add, .mul] ∧ (∀ n ∈ amounts, n.isFloat = false) ∨ op ∈ [.and, .or, .xor]) →
      ∀ args', args'.Perm args → op.fold false args' = op.fold false args) ∧
    (∀ n, op.fold false args = .ok n → (n.isFloat = true ↔
      op ∈ [.add, .sub, .mul, .div, .rem] ∧ ∃ m ∈ amounts, m.isFloat = true)) ∧
    ∀ stop, op.fold false args = .error stop ↔
      stop = .of .divisionByZero ∧ op.DividesByZero amounts := by
  intro amounts
  refine ⟨fun hints f hf ↦ ?_, fun hop args' hperm ↦ ?_, fun n hn ↦ ?_, fun stop ↦ ?_⟩
  · rw [fold_eq op hargs, map_taken fun _ ↦ hints, ofNumbers_exact hf]
    simp [amounts, Function.comp_def]
  · rcases hop with ⟨hop, hints⟩ | hop
    · exact fold_perm (by revert hop; cases op <;> decide) hargs (fun _ ↦ hints) hperm
    · have hintegral : op.isIntegral = true := by
        revert hop
        cases op <;> decide
      refine fold_perm (by revert hop; cases op <;> decide) hargs (fun hfloats ↦ ?_) hperm
      exact absurd (hintegral.symm.trans hfloats) (by decide)
  · rw [fold_eq op hargs] at hn
    rw [← isIntegral_iff]
    cases hintegral : op.isIntegral with
    | true =>
      have hint := isFloat_of_ofNumbers (fun _ m hm ↦ by
        obtain ⟨t, -, rfl⟩ := List.mem_map.mp hm
        exact isFloat_taken hintegral _) hn
      simp [hint, hintegral]
    | false =>
      have hfloat := isFloat_of_ofNumbers
        (fun htrue ↦ absurd (hintegral.symm.trans htrue) (by decide)) hn
      simp [hfloat, hintegral, taken_of_not_isIntegral hintegral, amounts]
  · rw [fold_eq op hargs, ofNumbers_eq_error_iff]
    refine and_congr_right fun _ ↦ ?_
    have hsame (hintegral : op.isIntegral = false) :
        args.map (fun t ↦ op.taken t.amount) = amounts := by
      rw [taken_of_not_isIntegral hintegral]
      rfl
    constructor
    · exact fun h ↦ hsame h.isIntegral_eq ▸ h
    · exact fun h ↦ hsame h.isIntegral_eq ▸ h

/-- A product that wraps around to zero, and a division of what is left by a text, which counts as
zero. -/
theorem fold_outcome_wraps :
    let large : Token := .stable (.int 0x4000000000000000)
    let args : List Token := [large, .stable (.int 4), .stable (.bool true)]
    (∀ t ∈ args, t.value?.isSome = true) ∧ mul.fold false args = .ok (.int 0) ∧
      div.fold false [large, .stable (.string "four")] = .error (.of .divisionByZero) := by
  intro large args
  have hvalues : ∀ t ∈ args, t.value?.isSome = true := by decide
  obtain ⟨hproduct, -⟩ := fold_outcome .mul args hvalues
  obtain ⟨-, -, -, hfails⟩ := fold_outcome .div [large, .stable (.string "four")] (by decide)
  have hwraps : Int64.ofInt (0x4000000000000000 * 4 * 1) = 0 := by decide
  refine ⟨hvalues, (hproduct (by decide) _ rfl).trans ?_,
    (hfails _).mpr ⟨rfl, .inl ⟨.inl rfl, ?_⟩⟩⟩
  · exact congrArg (fun i ↦ Except.ok (Number.int i)) hwraps
  · exact ⟨[.int 0x4000000000000000], [], rfl, List.cons_ne_nil _ _, by decide⟩

end ArithOp

end TokenLang

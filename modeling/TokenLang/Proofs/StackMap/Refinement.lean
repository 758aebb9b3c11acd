import TokenLang.StackMap
import TokenLang.Proofs.StackMap.Soundness

/-!
Stack maps behave as plain lists of bindings. `Plain` says what each operation means on a list of
keys and values in the order of insertion. A `Session` of commands over several maps, with copies,
is run in the same way on any representation (`Operations`, `answers`), and a stack map answers
each command of each session as the plain list does (`answers_eq_plain`), whatever the hash and the
initial capacity. What the operations keep, a session keeps of all its maps (`forall_run`), so every
representation that a session comes to is sound (`Raw.sound_of_mem_run`).

For proofs about programs that keep stack maps, each operation has a lemma on `StackMap.toList`:
`toList_push`, `toList_pop`, `toList_set`, `get?_eq_toList`.
-/

set_option autoImplicit false
set_option relaxedAutoImplicit false

universe u v

namespace TokenLang

/-! ### Keys without repetition -/

theorem eraseDups_concat (keys : List String) (key : String) : (keys ++ [key]).eraseDups =
    if key ∈ keys then keys.eraseDups else keys.eraseDups ++ [key] := by
  rw [List.eraseDups_append]
  by_cases h : key ∈ keys
  · simp [List.removeAll, h]
  · simp [List.removeAll, h, List.eraseDups_cons]

theorem nodup_eraseDups (keys : List String) : keys.eraseDups.Nodup := by
  induction keys using List.reverseRecOn with
  | nil => exact List.nodup_nil
  | append_singleton keys key ih =>
    rw [eraseDups_concat]
    split_ifs with h
    · exact ih
    · rw [← List.concat_eq_append]
      exact ih.concat fun hmem ↦ h (List.mem_eraseDups.mp hmem)

namespace StackMap

variable {α : Type u}

/-! ### Plain lists of bindings -/

namespace Plain

/-- The value of the last binding of a key. -/
def get? (bindings : List (String × α)) (key : String) : Option α :=
  (bindings.reverse.find? (·.1 == key)).map (·.2)

def push (bindings : List (String × α)) (key : String) (value : α) : List (String × α) :=
  bindings ++ [(key, value)]

/-- Removes the last binding of a key. -/
def pop (bindings : List (String × α)) (key : String) : Option α × List (String × α) :=
  match get? bindings key with
  | some value => (some value, (bindings.reverse.eraseP (·.1 == key)).reverse)
  | none => (none, bindings)

/-- Changes the value of the last binding of a key. -/
def set (bindings : List (String × α)) (key : String) (value : α) :
    Bool × List (String × α) :=
  match get? bindings key with
  | some _ => (true, (bindings.reverse.replaceF fun binding ↦
      if binding.1 == key then some (key, value) else none).reverse)
  | none => (false, bindings)

def at? (bindings : List (String × α)) (i : Int) : Option (String × α) :=
  if 0 ≤ i then bindings[i.toNat]? else none

/-- Each key once, in the order of first occurrence. -/
def keys (bindings : List (String × α)) : List String := (bindings.map (·.1)).eraseDups

section Last

variable {front back : List (String × α)} {key : String} (value : α)

theorem get?_of_absent {bindings : List (String × α)} (h : ∀ p ∈ bindings, p.1 ≠ key) :
    get? bindings key = none := by
  have hnone : bindings.reverse.find? (·.1 == key) = none :=
    List.find?_eq_none.mpr fun p hp ↦ by simpa using h p (List.mem_reverse.mp hp)
  rw [get?, hnone]
  rfl

theorem replaceF_skip {f : String × α → Option (String × α)} (before : List (String × α))
    (hbefore : ∀ p ∈ before, f p = none) {p q : String × α} (hp : f p = some q)
    (rest : List (String × α)) :
    (before ++ p :: rest).replaceF f = before ++ q :: rest := by
  induction before with
  | nil => simp [List.replaceF, hp]
  | cons r before ih =>
    have hr := hbefore r (List.mem_cons_self ..)
    simp [List.replaceF, hr, ih fun p hp ↦ hbefore p (List.mem_cons_of_mem r hp)]

variable (hback : ∀ p ∈ back, p.1 ≠ key)
include hback

theorem find?_reverse_of_last :
    (front ++ (key, value) :: back).reverse.find? (·.1 == key) = some (key, value) := by
  rw [List.find?_eq_some_iff_append]
  refine ⟨beq_self_eq_true key, back.reverse, front.reverse, by simp, fun p hp ↦ ?_⟩
  simpa using hback p (List.mem_reverse.mp hp)

theorem get?_of_last : get? (front ++ (key, value) :: back) key = some value := by
  rw [get?, find?_reverse_of_last value hback]
  rfl

theorem pop_of_last :
    pop (front ++ (key, value) :: back) key = (some value, front ++ back) := by
  have hskip : ∀ p ∈ back.reverse, ¬ (p.1 == key) = true := fun p hp ↦ by
    simpa using hback p (List.mem_reverse.mp hp)
  rw [pop, get?_of_last value hback]
  simp [List.eraseP_append_right _ hskip]

theorem set_of_last (value' : α) :
    set (front ++ (key, value) :: back) key value' = (true, front ++ (key, value') :: back) := by
  have hskip : ∀ p ∈ back.reverse,
      (if p.1 == key then some (key, value') else none) = none := fun p hp ↦ by
    simpa using hback p (List.mem_reverse.mp hp)
  rw [set, get?_of_last value hback]
  have hreverse : (front ++ (key, value) :: back).reverse =
      back.reverse ++ (key, value) :: front.reverse := by simp
  dsimp only
  rw [hreverse, replaceF_skip back.reverse hskip (if_pos (beq_self_eq_true key))]
  simp

end Last

/-! ### The stack of one key -/

/-- The values of a key, the oldest first. -/
def values (bindings : List (String × α)) (key : String) : List α :=
  (bindings.filter (·.1 == key)).map (·.2)

/-- A key has a last binding, or none. -/
theorem last_or_absent (bindings : List (String × α)) (key : String) :
    (∃ front value back, bindings = front ++ (key, value) :: back ∧ ∀ p ∈ back, p.1 ≠ key) ∨
      ∀ p ∈ bindings, p.1 ≠ key := by
  induction bindings with
  | nil => exact .inr fun p hp ↦ absurd hp List.not_mem_nil
  | cons p bindings ih =>
    rcases ih with ⟨front, value, back, rfl, hback⟩ | habsent
    · exact .inl ⟨p :: front, value, back, rfl, hback⟩
    · by_cases hp : p.1 = key
      · exact .inl ⟨[], p.2, bindings, by rw [← hp]; rfl, habsent⟩
      · refine .inr fun q hq ↦ ?_
        rcases List.mem_cons.mp hq with rfl | hq
        · exact hp
        · exact habsent q hq

theorem values_append (front back : List (String × α)) (key : String) :
    values (front ++ back) key = values front key ++ values back key := by
  simp [values]

theorem values_cons (name : String) (value : α) (bindings : List (String × α)) (key : String) :
    values ((name, value) :: bindings) key =
      if key = name then value :: values bindings key else values bindings key := by
  unfold values
  by_cases h : key = name
  · simp [h]
  · simp [h, Ne.symm h]

theorem values_of_absent {bindings : List (String × α)} {key : String}
    (h : ∀ p ∈ bindings, p.1 ≠ key) : values bindings key = [] := by
  unfold values
  rw [List.filter_eq_nil_iff.mpr fun p hp ↦ by simpa using h p hp]
  rfl

theorem values_push (bindings : List (String × α)) (name : String) (value : α) (key : String) :
    values (push bindings name value) key =
      if key = name then values bindings key ++ [value] else values bindings key := by
  rw [push, values_append, values_cons]
  split_ifs <;> simp [values]

theorem values_pop (bindings : List (String × α)) (name key : String) :
    values (pop bindings name).2 key =
      if key = name then (values bindings key).dropLast else values bindings key := by
  rcases last_or_absent bindings name with ⟨front, value, back, rfl, hback⟩ | habsent
  · rw [pop_of_last value hback, values_append, values_append, values_cons]
    split_ifs with hkey
    · rw [hkey, values_of_absent hback, List.append_nil, List.dropLast_concat]
    · rfl
  · rw [pop, get?_of_absent habsent]
    split_ifs with hkey
    · rw [hkey, values_of_absent habsent]
      rfl
    · rfl

theorem values_set (bindings : List (String × α)) (name : String) (value : α) (key : String) :
    values (set bindings name value).2 key =
      if key = name ∧ values bindings key ≠ [] then (values bindings key).dropLast ++ [value]
      else values bindings key := by
  rcases last_or_absent bindings name with ⟨front, old, back, rfl, hback⟩ | habsent
  · rw [set_of_last old hback, values_append, values_append, values_cons, values_cons]
    by_cases hkey : key = name
    · simp [hkey, values_of_absent hback]
    · simp [hkey]
  · rw [set, get?_of_absent habsent]
    split_ifs with hkey
    · exact absurd (hkey.1 ▸ values_of_absent habsent) hkey.2
    · rfl

theorem set_eq_true_iff (bindings : List (String × α)) (name : String) (value : α) :
    (set bindings name value).1 = true ↔ values bindings name ≠ [] := by
  rcases last_or_absent bindings name with ⟨front, old, back, rfl, hback⟩ | habsent
  · rw [set_of_last old hback, values_append, values_cons]
    simp
  · rw [set, get?_of_absent habsent, values_of_absent habsent]
    simp

end Plain

/-! ### The bindings of a stack map -/

section View

variable (m : StackMap α)

theorem filterMap_getElem?_range (l : List (String × α)) (n : Nat) :
    (List.range n).filterMap (fun i ↦ l[i]?) = l.take n := by
  induction n with
  | zero => rfl
  | succ n ih =>
    rw [List.range_succ, List.filterMap_append, ih, List.take_add_one]
    cases hn : l[n]? <;> simp [hn]

theorem at?_eq_bindings (i : Int) : m.at? i = Plain.at? m.raw.bindings i :=
  m.reachable.sound.at?_eq i

theorem toList_eq_bindings : m.toList = m.raw.bindings := by
  have hat : (fun i : Nat ↦ m.at? i) = fun i ↦ m.raw.bindings[i]? := by
    funext i
    rw [at?_eq_bindings, Plain.at?, if_pos (Int.natCast_nonneg i), Int.toNat_natCast]
  rw [toList, hat, filterMap_getElem?_range, size, m.reachable.sound.size_eq, List.take_length]

theorem at?_eq_toList (i : Int) : m.at? i = Plain.at? m.toList i := by
  rw [at?_eq_bindings, toList_eq_bindings]

theorem size_eq_toList : m.size = m.toList.length := by
  rw [toList_eq_bindings]
  exact m.reachable.sound.size_eq

theorem keys_eq_toList : m.keys = Plain.keys m.toList := by
  rw [toList_eq_bindings]
  exact m.raw.keys_eq

theorem get?_eq_toList (key : String) : m.get? key = Plain.get? m.toList key := by
  have hsound := m.reachable.sound
  rw [toList_eq_bindings]
  cases htop : m.raw.top key with
  | none =>
    obtain ⟨habsent, hget, -⟩ := hsound.absent htop
    exact hget.trans (Plain.get?_of_absent habsent).symm
  | some i =>
    obtain ⟨front, value, back, hbindings, hback, hget, -⟩ := hsound.present htop
    rw [hbindings, Plain.get?_of_last value hback]
    exact hget

theorem toList_push (key : String) (value : α) :
    (m.push key value).toList = Plain.push m.toList key value := by
  rw [toList_eq_bindings, toList_eq_bindings]
  exact (m.reachable.sound.push key value).2

theorem toList_pop (key : String) : (m.pop key).1 = (Plain.pop m.toList key).1 ∧
    (m.pop key).2.toList = (Plain.pop m.toList key).2 := by
  have hsound := m.reachable.sound
  rw [toList_eq_bindings, toList_eq_bindings]
  cases htop : m.raw.top key with
  | none =>
    obtain ⟨habsent, -, hpop, -⟩ := hsound.absent htop
    rw [Plain.pop, Plain.get?_of_absent habsent]
    exact ⟨congrArg Prod.fst hpop, congrArg (fun answer ↦ answer.2.bindings) hpop⟩
  | some i =>
    obtain ⟨front, value, back, hbindings, hback, -, hvalue, hpop, -⟩ := hsound.present htop
    rw [hbindings, Plain.pop_of_last value hback]
    exact ⟨hvalue, hpop⟩

theorem toList_set (key : String) (value : α) :
    (m.set key value).1 = (Plain.set m.toList key value).1 ∧
      (m.set key value).2.toList = (Plain.set m.toList key value).2 := by
  have hsound := m.reachable.sound
  rw [toList_eq_bindings, toList_eq_bindings]
  cases htop : m.raw.top key with
  | none =>
    obtain ⟨habsent, -, -, hset⟩ := hsound.absent htop
    rw [Plain.set, Plain.get?_of_absent habsent]
    exact ⟨congrArg Prod.fst (hset value), congrArg (fun answer ↦ answer.2.bindings) (hset value)⟩
  | some i =>
    obtain ⟨front, old, back, hbindings, hback, -, -, -, hset⟩ := hsound.present htop
    rw [hbindings, Plain.set_of_last old hback value]
    exact hset value

theorem toList_withHash (hash : String → UInt64) (capacity : Int) :
    (withHash hash capacity : StackMap α).toList = [] :=
  toList_eq_bindings _

end View

/-! ### Sessions -/

/-- What can be asked of a map, or done to it. -/
inductive Command (α : Type u) where
  | push (key : String) (value : α)
  | pop (key : String)
  | set (key : String) (value : α)
  /-- A copy of the map becomes one more map of the session. -/
  | clone
  | get? (key : String)
  | at? (i : Int)
  | size
  | keys

inductive Answer (α : Type u) where
  | done
  /-- The value that was removed; none for a key that is not bound. -/
  | popped (value : Option α)
  /-- Whether the key was bound. -/
  | changed (bound : Bool)
  | value (value : Option α)
  | binding (binding : Option (String × α))
  | count (n : Nat)
  | names (keys : List String)
deriving DecidableEq

/-- A representation of maps. -/
structure Operations (α : Type u) (M : Type v) where
  push : M → String → α → M
  pop : M → String → Option α × M
  set : M → String → α → Bool × M
  clone : M → M
  get? : M → String → Option α
  at? : M → Int → Option (String × α)
  size : M → Nat
  keys : M → List String

def operations : Operations α (StackMap α) := ⟨push, pop, set, clone, get?, at?, size, keys⟩

def Raw.operations : Operations α (Raw α) :=
  ⟨Raw.push, Raw.pop, Raw.set, Raw.clone, Raw.get?, Raw.at?, Raw.size, Raw.keys⟩

def Plain.operations : Operations α (List (String × α)) :=
  ⟨push, pop, set, id, get?, at?, List.length, keys⟩

namespace Operations

variable {M : Type v} (ops : Operations α M)

/-- One command to one map out of several. There is no answer when there is no such map. -/
def step (maps : List M) (n : Nat) (command : Command α) : Option (Answer α) × List M :=
  match maps[n]? with
  | none => (none, maps)
  | some m =>
    match command with
    | .push key value => (some .done, maps.set n (ops.push m key value))
    | .pop key => (some (.popped (ops.pop m key).1), maps.set n (ops.pop m key).2)
    | .set key value =>
      (some (.changed (ops.set m key value).1), maps.set n (ops.set m key value).2)
    | .clone => (some .done, maps ++ [ops.clone m])
    | .get? key => (some (.value (ops.get? m key)), maps)
    | .at? i => (some (.binding (ops.at? m i)), maps)
    | .size => (some (.count (ops.size m)), maps)
    | .keys => (some (.names (ops.keys m)), maps)

/-- The answers to a session of commands, each with the number of the map it goes to. -/
def answers : List M → List (Nat × Command α) → List (Option (Answer α))
  | _, [] => []
  | maps, (n, command) :: session =>
    (ops.step maps n command).1 :: answers (ops.step maps n command).2 session

/-- The maps that are there after a session, copies included. -/
def run : List M → List (Nat × Command α) → List M
  | maps, [] => maps
  | maps, (n, command) :: session => run (ops.step maps n command).2 session

section Kept

variable {P : M → Prop} (hpush : ∀ m key value, P m → P (ops.push m key value))
  (hpop : ∀ m key, P m → P (ops.pop m key).2)
  (hset : ∀ m key value, P m → P (ops.set m key value).2) (hclone : ∀ m, P m → P (ops.clone m))
include hpush hpop hset hclone

/-- What the operations keep of a map, a command keeps of all maps. -/
theorem forall_step {maps : List M} (h : ∀ m ∈ maps, P m) (n : Nat) (command : Command α) :
    ∀ m ∈ (ops.step maps n command).2, P m := by
  unfold step
  cases hm : maps[n]? with
  | none => exact h
  | some m =>
    have hget : P m := h m (List.mem_of_getElem? hm)
    have hput : ∀ m', P m' → ∀ other ∈ maps.set n m', P other := fun m' hm' other hother ↦
      (List.mem_or_eq_of_mem_set hother).elim (h other) fun heq ↦ heq ▸ hm'
    cases command with
    | push key value => exact hput _ (hpush m key value hget)
    | pop key => exact hput _ (hpop m key hget)
    | set key value => exact hput _ (hset m key value hget)
    | clone =>
      intro other hother
      rcases List.mem_append.mp hother with hold | hnew
      · exact h other hold
      · exact List.mem_singleton.mp hnew ▸ hclone m hget
    | get? | at? | size | keys => exact h

theorem forall_run (session : List (Nat × Command α)) {maps : List M} (h : ∀ m ∈ maps, P m) :
    ∀ m ∈ ops.run maps session, P m := by
  induction session generalizing maps with
  | nil => exact h
  | cons entry session ih => exact ih (ops.forall_step hpush hpop hset hclone h entry.1 entry.2)

end Kept

end Operations

/-- Every representation that a session on a new one comes to is sound and has its hash. -/
theorem Raw.sound_of_mem_run {hash : String → UInt64} {capacity : Int}
    {session : List (Nat × Command α)} {m : Raw α}
    (hm : m ∈ Raw.operations.run [.new hash capacity] session) : Sound m ∧ m.hash = hash := by
  refine Raw.operations.forall_run (P := fun m ↦ Sound m ∧ m.hash = hash)
    (fun m key value h ↦ ⟨(h.1.push key value).1, (hash_push m key value).trans h.2⟩)
    (fun m key h ↦ ⟨h.1.pop key, (hash_pop m key).trans h.2⟩)
    (fun m key value h ↦ ⟨h.1.set key value, (hash_set m key value).trans h.2⟩)
    (fun m h ↦ show Sound m.clone ∧ m.clone.hash = hash from m.clone_eq.symm ▸ h) session
    (fun first hfirst ↦ ?_) m hm
  rw [List.mem_singleton.mp hfirst]
  exact ⟨sound_new hash capacity, rfl⟩

/-- One command: the plain lists get the same answer and stay the bindings of the maps. -/
theorem step_toList (maps : List (StackMap α)) (n : Nat) (command : Command α) :
    Plain.operations.step (maps.map toList) n command =
      ((operations.step maps n command).1, (operations.step maps n command).2.map toList) := by
  unfold Operations.step
  rw [List.getElem?_map]
  cases maps[n]? with
  | none => rfl
  | some m =>
    rw [Option.map_some]
    cases command with
    | push key value => simp [operations, Plain.operations, List.map_set, toList_push]
    | pop key => simp [operations, Plain.operations, List.map_set, toList_pop]
    | set key value => simp [operations, Plain.operations, List.map_set, toList_set]
    | clone => simp [operations, Plain.operations, clone_eq]
    | get? key => simp [operations, Plain.operations, get?_eq_toList]
    | at? i => simp [operations, Plain.operations, at?_eq_toList]
    | size => simp [operations, Plain.operations, size_eq_toList]
    | keys => simp [operations, Plain.operations, keys_eq_toList]

theorem answers_toList (session : List (Nat × Command α)) (maps : List (StackMap α)) :
    operations.answers maps session = Plain.operations.answers (maps.map toList) session := by
  induction session generalizing maps with
  | nil => rfl
  | cons entry session ih =>
    obtain ⟨n, command⟩ := entry
    rw [Operations.answers, Operations.answers, step_toList, ih]

/-- A stack map answers every session as a plain list of bindings does, for every hash and every
initial capacity. -/
theorem answers_eq_plain (hash : String → UInt64) (capacity : Int)
    (session : List (Nat × Command α)) :
    operations.answers [withHash hash capacity] session =
      Plain.operations.answers [[]] session := by
  rw [answers_toList, List.map_singleton, toList_withHash]

end StackMap

end TokenLang

import TokenLang.Proofs.Collection
import TokenLang.Proofs.StackMap.Refinement

/-!
The order of insertion. Where items are put one after the other, each key stands once, at the place
of its first occurrence, with the last item given for it (`Keyed.lastOfEach`) if items replace those
with their key, and with the first one (`Keyed.firstOfEach`) if they do not. Collections in the
making come to these lists, and so does a stack map in which a key is set if it is bound and pushed
otherwise (`StackMap.toList_storeAll`).
-/

set_option autoImplicit false
set_option relaxedAutoImplicit false

universe u

namespace TokenLang

namespace Keyed

variable {α : Type} (keyOf : α → String)

/-- The items of a sequence by their keys, in the order in which these first occur, each with the
last item given for it. -/
def lastOfEach (given : List α) : List α :=
  (given.map keyOf).eraseDups.filterMap fun key ↦ given.reverse.find? (keyOf · == key)

/-- The same with the first item given for each key. -/
def firstOfEach (given : List α) : List α :=
  (given.map keyOf).eraseDups.filterMap fun key ↦ given.find? (keyOf · == key)

/-- A list with an item in place of the one with its key, or at the end. -/
def place (items : List α) (item : α) : List α :=
  if keyOf item ∈ items.map keyOf then
    items.map fun other ↦ if keyOf other = keyOf item then item else other
  else items ++ [item]

/-- A list with an item at the end unless its key is there. -/
def adjoin (items : List α) (item : α) : List α :=
  if keyOf item ∈ items.map keyOf then items else items ++ [item]

variable {keyOf}

/-! ### Keys -/

/-- A step that puts a new key at the end and otherwise leaves the keys as they are. -/
structure Inserts (keyOf : α → String) (step : List α → α → List α) : Prop where
  new : ∀ items item, keyOf item ∉ items.map keyOf → step items item = items ++ [item]
  old : ∀ items item, keyOf item ∈ items.map keyOf →
    (step items item).map keyOf = items.map keyOf

theorem inserts_place : Inserts keyOf (place keyOf) where
  new items item h := if_neg h
  old items item h := by
    rw [place, if_pos h, List.map_map]
    refine List.map_congr_left fun other _ ↦ ?_
    rw [Function.comp_apply]
    split_ifs with hsame
    · exact hsame.symm
    · rfl

theorem inserts_adjoin : Inserts keyOf (adjoin keyOf) where
  new items item h := if_neg h
  old items item h := by rw [adjoin, if_pos h]

namespace Inserts

variable {step : List α → α → List α} (hstep : Inserts keyOf step)
include hstep

theorem map_step (items : List α) (item : α) : (step items item).map keyOf =
    if keyOf item ∈ items.map keyOf then items.map keyOf
    else items.map keyOf ++ [keyOf item] := by
  split_ifs with h
  · exact hstep.old items item h
  · rw [hstep.new items item h, List.map_append, List.map_singleton]

/-- The keys stand in the order of first occurrence. -/
theorem map_foldl (given : List α) :
    (given.foldl step []).map keyOf = (given.map keyOf).eraseDups := by
  induction given using List.reverseRecOn with
  | nil => rfl
  | append_singleton given item ih =>
    rw [List.foldl_append, List.foldl_cons, List.foldl_nil, hstep.map_step, ih, List.map_append,
      List.map_singleton, eraseDups_concat]
    simp only [List.mem_eraseDups]

theorem nodup_step {items : List α} (h : (items.map keyOf).Nodup) (item : α) :
    ((step items item).map keyOf).Nodup := by
  rw [hstep.map_step]
  split_ifs with hmem
  · exact h
  · rw [← List.concat_eq_append]
    exact h.concat hmem

/-- Items with different keys stay as they are. -/
theorem foldl_of_nodup {items : List α} (h : (items.map keyOf).Nodup) :
    items.foldl step [] = items := by
  induction items using List.reverseRecOn with
  | nil => rfl
  | append_singleton items item ih =>
    rw [List.map_append, List.map_singleton, ← List.concat_eq_append, List.nodup_concat] at h
    rw [List.foldl_append, ih h.2, List.foldl_cons, List.foldl_nil, hstep.new _ _ h.1]

end Inserts

/-! ### Items -/

theorem find?_eq_none_of_not_mem {items : List α} {key : String} (h : key ∉ items.map keyOf) :
    items.find? (keyOf · == key) = none := by
  refine List.find?_eq_none.mpr fun item hitem hkey ↦ h ?_
  exact List.mem_map.mpr ⟨item, hitem, by simpa using hkey⟩

/-- A key that is put is found afterwards, and all others are found as before. -/
theorem find?_place (items : List α) (item : α) (key : String) :
    (place keyOf items item).find? (keyOf · == key) =
      if keyOf item = key then some item else items.find? (keyOf · == key) := by
  by_cases hmem : keyOf item ∈ items.map keyOf
  · let replaced : α → α := fun other ↦ if keyOf other = keyOf item then item else other
    have hkeys : ∀ other, keyOf (replaced other) = keyOf other := by
      intro other
      by_cases hsame : keyOf other = keyOf item
      · simp [replaced, hsame]
      · simp [replaced, hsame]
    have hfind : (place keyOf items item).find? (keyOf · == key) =
        (items.find? (keyOf · == key)).map replaced := by
      rw [place, if_pos hmem, List.find?_map]
      simp only [Function.comp_def]
      have hsame : (fun other ↦ keyOf (replaced other) == key) = (keyOf · == key) :=
        funext fun other ↦ by rw [hkeys]
      rw [← hsame]
    rw [hfind]
    cases hfound : items.find? (keyOf · == key) with
    | none =>
      have habsent : keyOf item ≠ key := by
        rintro rfl
        obtain ⟨other, hother, hsame⟩ := List.mem_map.mp hmem
        exact List.find?_eq_none.mp hfound other hother (by simp [hsame])
      rw [if_neg habsent, Option.map_none]
    | some other =>
      have hother : keyOf other = key := by simpa using List.find?_some hfound
      by_cases hkey : keyOf item = key
      · simp [replaced, hkey, hother]
      · simp [replaced, hkey, hother, Ne.symm hkey]
  · rw [place, if_neg hmem, List.find?_append]
    by_cases hkey : keyOf item = key
    · rw [if_pos hkey, find?_eq_none_of_not_mem (hkey ▸ hmem)]
      simp [hkey]
    · simp [hkey]

theorem find?_adjoin (items : List α) (item : α) (key : String) :
    (adjoin keyOf items item).find? (keyOf · == key) =
      (items.find? (keyOf · == key)).or (if keyOf item = key then some item else none) := by
  by_cases hmem : keyOf item ∈ items.map keyOf
  · rw [adjoin, if_pos hmem]
    by_cases hkey : keyOf item = key
    · obtain ⟨other, hother, hsame⟩ := List.mem_map.mp hmem
      have hfound : (items.find? (keyOf · == key)).isSome = true :=
        List.find?_isSome.mpr ⟨other, hother, by simp [hsame, hkey]⟩
      rw [Option.or_of_isSome hfound]
    · rw [if_neg hkey, Option.or_none]
  · rw [adjoin, if_neg hmem, List.find?_append]
    by_cases hkey : keyOf item = key
    · simp [hkey]
    · simp [hkey]

theorem find?_foldl_place (given : List α) (key : String) :
    (given.foldl (place keyOf) []).find? (keyOf · == key) =
      given.reverse.find? (keyOf · == key) := by
  induction given using List.reverseRecOn with
  | nil => rfl
  | append_singleton given item ih =>
    rw [List.foldl_append, List.foldl_cons, List.foldl_nil, find?_place, ih, List.reverse_append,
      List.reverse_singleton, List.singleton_append]
    by_cases hkey : keyOf item = key
    · simp [hkey]
    · rw [if_neg hkey, List.find?_cons_of_neg (by simpa using hkey)]

theorem find?_foldl_adjoin (given : List α) (key : String) :
    (given.foldl (adjoin keyOf) []).find? (keyOf · == key) = given.find? (keyOf · == key) := by
  induction given using List.reverseRecOn with
  | nil => rfl
  | append_singleton given item ih =>
    rw [List.foldl_append, List.foldl_cons, List.foldl_nil, find?_adjoin, ih, List.find?_append]
    by_cases hkey : keyOf item = key
    · simp [hkey]
    · simp [hkey]

/-- Items with different keys are found by these. -/
theorem find?_of_mem {items : List α} (hnodup : (items.map keyOf).Nodup) {item : α}
    (hitem : item ∈ items) : items.find? (keyOf · == keyOf item) = some item := by
  induction items with
  | nil => exact absurd hitem List.not_mem_nil
  | cons other items ih =>
    rw [List.map_cons, List.nodup_cons] at hnodup
    rcases List.mem_cons.mp hitem with rfl | hitem
    · simp
    · have hne : keyOf other ≠ keyOf item := fun hsame ↦
        hnodup.1 (hsame ▸ List.mem_map_of_mem hitem)
      rw [List.find?_cons_of_neg (by simpa using hne), ih hnodup.2 hitem]

/-- Among items with different keys it does not matter from which end one looks. -/
theorem find?_reverse {items : List α} (hnodup : (items.map keyOf).Nodup) (key : String) :
    items.reverse.find? (keyOf · == key) = items.find? (keyOf · == key) := by
  cases hfound : items.find? (keyOf · == key) with
  | none =>
    refine List.find?_eq_none.mpr fun item hitem ↦ ?_
    exact List.find?_eq_none.mp hfound item (List.mem_reverse.mp hitem)
  | some item =>
    obtain rfl : keyOf item = key := by simpa using List.find?_some hfound
    have hreverse : (items.reverse.map keyOf).Nodup := by
      rw [List.map_reverse]
      exact List.nodup_reverse.mpr hnodup
    exact find?_of_mem hreverse (List.mem_reverse.mpr (List.mem_of_find?_eq_some hfound))

theorem filterMap_find? {items : List α} (hnodup : (items.map keyOf).Nodup) :
    (items.map keyOf).filterMap (fun key ↦ items.find? (keyOf · == key)) = items := by
  rw [List.filterMap_map]
  refine (List.filterMap_congr fun item hitem ↦ ?_).trans List.filterMap_some
  exact find?_of_mem hnodup hitem

/-- Putting items one after the other. -/
theorem foldl_place (given : List α) : given.foldl (place keyOf) [] = lastOfEach keyOf given := by
  have hkeys : (given.foldl (place keyOf) []).map keyOf = (given.map keyOf).eraseDups :=
    inserts_place.map_foldl given
  have hitems := filterMap_find? (hkeys ▸ nodup_eraseDups (given.map keyOf))
  rw [hkeys] at hitems
  simp only [find?_foldl_place] at hitems
  exact hitems.symm

/-- Adding items one after the other. -/
theorem foldl_adjoin (given : List α) :
    given.foldl (adjoin keyOf) [] = firstOfEach keyOf given := by
  have hkeys : (given.foldl (adjoin keyOf) []).map keyOf = (given.map keyOf).eraseDups :=
    inserts_adjoin.map_foldl given
  have hitems := filterMap_find? (hkeys ▸ nodup_eraseDups (given.map keyOf))
  rw [hkeys] at hitems
  simp only [find?_foldl_adjoin] at hitems
  exact hitems.symm

theorem map_lastOfEach (given : List α) :
    (lastOfEach keyOf given).map keyOf = (given.map keyOf).eraseDups := by
  rw [← foldl_place, inserts_place.map_foldl]

theorem map_firstOfEach (given : List α) :
    (firstOfEach keyOf given).map keyOf = (given.map keyOf).eraseDups := by
  rw [← foldl_adjoin, inserts_adjoin.map_foldl]

theorem nodup_lastOfEach (given : List α) : ((lastOfEach keyOf given).map keyOf).Nodup := by
  rw [map_lastOfEach]
  exact nodup_eraseDups _

theorem nodup_firstOfEach (given : List α) : ((firstOfEach keyOf given).map keyOf).Nodup := by
  rw [map_firstOfEach]
  exact nodup_eraseDups _

variable {k : Keyed α}

end Keyed

/-! ### Maps -/

namespace Entry

/-- Keys and values in turn as entries, the last value being null if it is missing. -/
def pairs : List Token → List Entry
  | [] => []
  | [key] => [.mk key .null]
  | key :: value :: rest => .mk key value :: pairs rest

/-- Tokens of which those that stand for keys have values. -/
def Valued (args : List Token) : Prop := ∀ e ∈ pairs args, e.key.value?.isSome = true

end Entry

/-! ### Sets -/

namespace Token

end Token

/-! ### Stores -/

namespace StackMap

variable {α : Type} {keyOf : α → String}

/-- Sets a key that is bound and pushes one that is not. -/
def store (m : StackMap α) (key : String) (item : α) : StackMap α :=
  let (found, changed) := m.set key item
  if found then changed else changed.push key item

/-- Pushes a key that is not bound. -/
def storeNew (m : StackMap α) (key : String) (item : α) : StackMap α :=
  if (m.get? key).isSome then m else m.push key item

/-- Items as bindings of their keys. -/
def tagged (keyOf : α → String) (items : List α) : List (String × α) :=
  items.map fun item ↦ (keyOf item, item)

theorem tagged_append (front back : List α) :
    tagged keyOf (front ++ back) = tagged keyOf front ++ tagged keyOf back := List.map_append

/-- A key is bound to the one item that has it, or to none. -/
theorem last_or_absent {items : List α} (hnodup : (items.map keyOf).Nodup) (key : String) :
    (∃ front item back, items = front ++ item :: back ∧ keyOf item = key ∧
        ∀ other ∈ front ++ back, keyOf other ≠ key) ∨
      key ∉ items.map keyOf := by
  by_cases hmem : key ∈ items.map keyOf
  · obtain ⟨item, hitem, rfl⟩ := List.mem_map.mp hmem
    obtain ⟨front, back, rfl⟩ := List.append_of_mem hitem
    refine .inl ⟨front, item, back, rfl, rfl, fun other hother hsame ↦ ?_⟩
    rw [List.map_append, List.map_cons, List.nodup_middle, List.nodup_cons] at hnodup
    refine hnodup.1 ?_
    rw [← List.map_append, ← hsame]
    exact List.mem_map_of_mem hother
  · exact .inr hmem

section Stores

variable {m : StackMap α} {items : List α} (hm : m.toList = tagged keyOf items)
include hm

theorem ne_of_mem_toList {key : String} (h : ∀ item ∈ items, keyOf item ≠ key) :
    ∀ p ∈ m.toList, p.1 ≠ key := by
  intro p hp
  rw [hm] at hp
  obtain ⟨item, hitem, rfl⟩ := List.mem_map.mp hp
  exact h item hitem

theorem toList_push_tagged (item : α) :
    (m.push (keyOf item) item).toList = tagged keyOf (items ++ [item]) := by
  rw [toList_push, Plain.push, hm, tagged_append]
  rfl

/-- Storing a binding under a key is putting it among the bindings that are there. -/
theorem toList_store (hnodup : (items.map keyOf).Nodup) (item : α) :
    (m.store (keyOf item) item).toList = tagged keyOf (Keyed.place keyOf items item) := by
  obtain ⟨hfound, hset⟩ := m.toList_set (keyOf item) item
  unfold store
  dsimp only
  rcases last_or_absent hnodup (keyOf item) with ⟨front, old, back, rfl, hkey, hothers⟩ | habsent
  · have hback : ∀ p ∈ tagged keyOf back, p.1 ≠ keyOf item := by
      intro p hp
      obtain ⟨other, hother, rfl⟩ := List.mem_map.mp hp
      exact hothers other (List.mem_append_right _ hother)
    have hbindings : m.toList =
        tagged keyOf front ++ (keyOf item, old) :: tagged keyOf back := by
      rw [hm, tagged_append, ← hkey]
      rfl
    have hkept : ∀ part : List α, (∀ other ∈ part, other ∈ front ++ back) →
        part.map (fun other ↦ if keyOf other = keyOf item then item else other) = part := by
      intro part hpart
      refine (List.map_congr_left fun other hother ↦ ?_).trans (List.map_id part)
      exact if_neg (hothers other (hpart other hother))
    have hplace : Keyed.place keyOf (front ++ old :: back) item = front ++ item :: back := by
      rw [Keyed.place, if_pos (by simp [hkey]), List.map_append, List.map_cons, if_pos hkey,
        hkept front fun _ ↦ List.mem_append_left _, hkept back fun _ ↦ List.mem_append_right _]
    rw [hbindings, Plain.set_of_last old hback] at hfound hset
    rw [if_pos hfound, hset, hplace, tagged_append]
    rfl
  · have hnone : Plain.get? m.toList (keyOf item) = none :=
      Plain.get?_of_absent (ne_of_mem_toList hm fun other hother hsame ↦
        habsent (hsame ▸ List.mem_map_of_mem hother))
    rw [Plain.set, hnone] at hfound hset
    rw [if_neg (by simp [hfound]), toList_push_tagged (hset.trans hm), Keyed.place,
      if_neg habsent]

theorem toList_storeNew (item : α) :
    (m.storeNew (keyOf item) item).toList = tagged keyOf (Keyed.adjoin keyOf items item) := by
  unfold storeNew Keyed.adjoin
  rw [get?_eq_toList]
  by_cases hmem : keyOf item ∈ items.map keyOf
  · rw [if_pos hmem]
    obtain ⟨other, hother, hsame⟩ := List.mem_map.mp hmem
    have hfound : (Plain.get? m.toList (keyOf item)).isSome = true := by
      rw [Plain.get?, Option.isSome_map, List.find?_isSome]
      refine ⟨(keyOf other, other), ?_, by simp [hsame]⟩
      rw [List.mem_reverse, hm]
      exact List.mem_map_of_mem hother
    rw [if_pos hfound, hm]
  · have hnone : Plain.get? m.toList (keyOf item) = none :=
      Plain.get?_of_absent (ne_of_mem_toList hm fun other hother hsame ↦
        hmem (hsame ▸ List.mem_map_of_mem hother))
    rw [if_neg hmem, if_neg (by simp [hnone]), toList_push_tagged hm]

/-- Items that are stored in a store of others with different keys, or in a copy of one. -/
theorem toList_storeAll (hnodup : (items.map keyOf).Nodup) (given : List α) :
    (given.foldl (fun m item ↦ m.store (keyOf item) item) m).toList =
      tagged keyOf (Keyed.lastOfEach keyOf (items ++ given)) := by
  have hfold : (given.foldl (fun m item ↦ m.store (keyOf item) item) m).toList =
      tagged keyOf (given.foldl (Keyed.place keyOf) items) := by
    induction given generalizing m items with
    | nil => exact hm
    | cons item given ih =>
      exact ih (toList_store hm hnodup item) (Keyed.inserts_place.nodup_step hnodup item)
  rw [hfold, ← Keyed.foldl_place, List.foldl_append, Keyed.inserts_place.foldl_of_nodup hnodup]

theorem toList_storeAllNew (hnodup : (items.map keyOf).Nodup) (given : List α) :
    (given.foldl (fun m item ↦ m.storeNew (keyOf item) item) m).toList =
      tagged keyOf (Keyed.firstOfEach keyOf (items ++ given)) := by
  have hfold : (given.foldl (fun m item ↦ m.storeNew (keyOf item) item) m).toList =
      tagged keyOf (given.foldl (Keyed.adjoin keyOf) items) := by
    induction given generalizing m items with
    | nil => exact hm
    | cons item given ih =>
      exact ih (toList_storeNew hm item) (Keyed.inserts_adjoin.nodup_step hnodup item)
  rw [hfold, ← Keyed.foldl_adjoin, List.foldl_append, Keyed.inserts_adjoin.foldl_of_nodup hnodup]

end Stores

theorem get?_of_tagged {m : StackMap α} {items : List α} (hm : m.toList = tagged keyOf items)
    (hnodup : (items.map keyOf).Nodup) (key : String) :
    m.get? key = items.find? (keyOf · == key) := by
  rw [← Keyed.find?_reverse hnodup, get?_eq_toList, Plain.get?, hm, tagged, ← List.map_reverse,
    List.find?_map, Option.map_map]
  exact congrFun Option.map_id _

end StackMap

end TokenLang

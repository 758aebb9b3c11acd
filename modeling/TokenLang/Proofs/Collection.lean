import TokenLang.Value.Collection
import Mathlib.Tactic

/-!
Collections in the making. The places that are kept are exactly the places of the items by their
keys (`Keyed.Indexed`), so maps and sets never have two items with one key, however they were made,
and items with different keys come out as they were put in.
-/

set_option autoImplicit false
set_option relaxedAutoImplicit false

namespace TokenLang

namespace Keyed

variable {α : Type}

/-- Each key has the place of the item with that key. -/
def Indexed (keyOf : α → String) (k : Keyed α) : Prop :=
  ∀ key i, k.places[key]? = some i ↔ k.items[i]?.map keyOf = some key

variable {keyOf : α → String} {k : Keyed α}

theorem indexed_empty (keyOf : α → String) : (empty : Keyed α).Indexed keyOf := by
  intro key i
  simp [empty]

theorem Indexed.places_eq_none (h : k.Indexed keyOf) {key : String}
    (hkey : key ∉ k.items.toList.map keyOf) : k.places[key]? = none := by
  refine Option.eq_none_iff_forall_ne_some.mpr fun i hi ↦ hkey ?_
  obtain ⟨item, hitem, rfl⟩ := Option.map_eq_some_iff.mp ((h key i).mp hi)
  exact List.mem_map.mpr ⟨item, Array.mem_toList_iff.mpr (Array.mem_of_getElem? hitem), rfl⟩

/-- An item with a new key goes to the end. -/
theorem Indexed.push (h : k.Indexed keyOf) {item : α} (hkey : k.places[keyOf item]? = none) :
    Indexed keyOf ⟨k.items.push item, k.places.insert (keyOf item) k.items.size⟩ := by
  intro key i
  dsimp only
  rw [Std.TreeMap.getElem?_insert, Array.getElem?_push]
  by_cases hsame : keyOf item = key
  · subst hsame
    rw [if_pos Std.compare_self]
    split_ifs with hi
    · simp [hi]
    · rw [← h, hkey]
      simp [Ne.symm hi]
  · rw [if_neg (by simpa using hsame)]
    split_ifs with hi
    · subst hi
      rw [h]
      simp [hsame]
    · exact h key i

/-- An item takes the place of the one with its key. -/
theorem Indexed.replace (h : k.Indexed keyOf) {item : α} {i : Nat}
    (hkey : k.places[keyOf item]? = some i) :
    Indexed keyOf ⟨k.items.setIfInBounds i item, k.places⟩ := by
  intro key j
  rw [h]
  dsimp only
  rw [Array.getElem?_setIfInBounds]
  split_ifs with hj hsize
  · subst hj
    rw [(h _ i).mp hkey]
    rfl
  · subst hj
    rw [Array.getElem?_eq_none (Nat.le_of_not_lt hsize)]
  · rfl

theorem Indexed.put (h : k.Indexed keyOf) (item : α) : (k.put (keyOf item) item).Indexed keyOf := by
  unfold Keyed.put
  dsimp only
  split
  · exact h.replace ‹_›
  · exact h.push ‹_›

theorem Indexed.add (h : k.Indexed keyOf) (item : α) : (k.add (keyOf item) item).Indexed keyOf := by
  unfold Keyed.add
  dsimp only
  split
  · exact h
  · exact h.push ‹_›

theorem Indexed.nodup (h : k.Indexed keyOf) : (k.items.toList.map keyOf).Nodup := by
  rw [List.nodup_iff_injective_getElem]
  intro i j hij
  have hplace : ∀ i : Fin (k.items.toList.map keyOf).length,
      k.places[(k.items.toList.map keyOf)[i]]? = some i.val := by
    intro i
    have hi : i.val < k.items.size := by simpa using i.isLt
    rw [h, Array.getElem?_eq_getElem hi]
    simp
  have heq := (hplace i).symm.trans ((congrArg (fun key ↦ k.places[key]?) hij).trans (hplace j))
  exact Fin.ext (Option.some.inj heq)

theorem forall_put {P : α → Prop} (h : ∀ x ∈ k.items, P x) (key : String) {item : α}
    (hitem : P item) : ∀ x ∈ (k.put key item).items, P x := by
  intro x hx
  unfold Keyed.put at hx
  dsimp only at hx
  split at hx
  · rcases Array.mem_or_eq_of_mem_setIfInBounds hx with hx | rfl
    · exact h x hx
    · exact hitem
  · rcases Array.mem_push.mp hx with hx | rfl
    · exact h x hx
    · exact hitem

theorem forall_add {P : α → Prop} (h : ∀ x ∈ k.items, P x) (key : String) {item : α}
    (hitem : P item) : ∀ x ∈ (k.add key item).items, P x := by
  intro x hx
  unfold Keyed.add at hx
  dsimp only at hx
  split at hx
  · exact h x hx
  · rcases Array.mem_push.mp hx with hx | rfl
    · exact h x hx
    · exact hitem

end Keyed

/-! ### Maps -/

namespace Entry

/-- The key of an entry. -/
def keyText (e : Entry) : String := e.key.key

/-- What every put keeps holds when all arguments have been put. -/
theorem putFrom_invariant {P : Keyed Entry → Prop} {k k' : Keyed Entry} {args : List Token}
    (hstep : ∀ k key value, key ∈ args → (value ∈ args ∨ value = .null) → P k →
      P (k.put key.key (.mk key value))) (h : P k) (hput : putFrom k args = .ok k') : P k' := by
  fun_induction putFrom k args with
  | case1 k =>
    cases hput
    exact h
  | case2 k key =>
    cases hpayload : key.payload with
    | ok v =>
      rw [hpayload] at hput
      cases hput
      exact hstep k key .null (List.mem_cons_self ..) (.inr rfl) h
    | error stop =>
      rw [hpayload] at hput
      cases hput
  | case3 k key value rest ih =>
    cases hpayload : key.payload with
    | ok v =>
      rw [hpayload] at hput
      refine ih (fun k key' value' hkey hvalue hk ↦ ?_)
        (hstep k key value (by simp) (.inl (by simp)) h) hput
      refine hstep k key' value' (by simp [hkey]) ?_ hk
      exact hvalue.imp_left fun hmem ↦ by simp [hmem]
    | error stop =>
      rw [hpayload] at hput
      cases hput

/-- What holds of no entries and is kept by every put holds of the entries that putting makes. -/
theorem putAll_invariant {P : Keyed Entry → Prop} {entries result : List Entry}
    {args : List Token} (hempty : P .empty)
    (hold : ∀ k, ∀ e ∈ entries, P k → P (k.put e.keyText e))
    (hnew : ∀ k key value, key ∈ args → (value ∈ args ∨ value = .null) → P k →
      P (k.put key.key (.mk key value))) (h : putAll entries args = .ok result) :
    ∃ k, P k ∧ k.items.toList = result := by
  have hkeyed : P (keyed entries) :=
    List.foldlRecOn entries _ hempty fun k hk e he ↦ hold k e he hk
  unfold putAll at h
  cases hput : putFrom (keyed entries) args with
  | ok k =>
    rw [hput] at h
    cases h
    exact ⟨k, putFrom_invariant hnew hkeyed hput, rfl⟩
  | error stop =>
    rw [hput] at h
    cases h

/-- However a map is made, its keys are different. -/
theorem nodup_putAll {entries result : List Entry} {args : List Token}
    (h : putAll entries args = .ok result) : (result.map keyText).Nodup := by
  obtain ⟨k, hk, rfl⟩ := putAll_invariant (Keyed.indexed_empty keyText)
    (fun k e _ hk ↦ hk.put e) (fun k key value _ _ hk ↦ hk.put (.mk key value)) h
  exact hk.nodup

/-- The entries of a map come from the entries it had and the arguments. -/
theorem forall_putAll {P : Entry → Prop} {entries result : List Entry} {args : List Token}
    (hold : ∀ e ∈ entries, P e)
    (hnew : ∀ key ∈ args, ∀ value, value ∈ args ∨ value = .null → P (.mk key value))
    (h : putAll entries args = .ok result) : ∀ e ∈ result, P e := by
  obtain ⟨k, hk, rfl⟩ := putAll_invariant (P := fun k ↦ ∀ e ∈ k.items, P e)
    (fun e he ↦ absurd he (by simp [Keyed.empty]))
    (fun k e he hk ↦ Keyed.forall_put hk e.keyText (hold e he))
    (fun k key value hkey hvalue hk ↦ Keyed.forall_put hk key.key (hnew key hkey value hvalue)) h
  exact fun e he ↦ hk e (Array.mem_toList_iff.mp he)

/-- Keys and values in turn. -/
def flatten (entries : List Entry) : List Token := entries.flatMap fun e ↦ [e.key, e.value]

/-- Keys and values in turn, all keys different from each other and from those that are there, are
appended as entries. -/
theorem putFrom_flatten {k : Keyed Entry} (h : k.Indexed keyText) {entries : List Entry}
    (hvalues : ∀ e ∈ entries, e.key.value?.isSome = true)
    (hnodup : (k.items.toList.map keyText ++ entries.map keyText).Nodup) :
    ∃ k', putFrom k (flatten entries) = .ok k' ∧
      k'.items.toList = k.items.toList ++ entries := by
  induction entries generalizing k with
  | nil => exact ⟨k, rfl, (List.append_nil _).symm⟩
  | cons e entries ih =>
    obtain ⟨key, value⟩ := e
    obtain ⟨v, hv⟩ := Option.isSome_iff_exists.mp (hvalues (.mk key value) (List.mem_cons_self ..))
    have hpayload : key.payload = .ok v := by rw [Token.payload, show key.value? = some v from hv]
    have hnew : k.places[key.key]? = none := by
      refine h.places_eq_none fun hmem ↦ ?_
      exact List.disjoint_of_nodup_append hnodup hmem (List.mem_cons_self ..)
    have hitems : (k.put key.key (.mk key value)).items = k.items.push (.mk key value) := by
      unfold Keyed.put
      dsimp only
      rw [hnew]
    obtain ⟨k', hput, hresult⟩ := ih (h.put (.mk key value))
      (fun e he ↦ hvalues e (List.mem_cons_of_mem _ he)) (by
        rw [show keyText (.mk key value) = key.key from rfl, hitems]
        simpa using hnodup)
    refine ⟨k', ?_, ?_⟩
    · show (key.payload >>= fun _ ↦ putFrom (k.put key.key (.mk key value)) (flatten entries)) = _
      rw [hpayload]
      exact hput
    · rw [hresult, show keyText (.mk key value) = key.key from rfl, hitems]
      simp

/-- Entries with different keys that have values make a map as they stand. -/
theorem putAll_flatten {entries : List Entry} (hvalues : ∀ e ∈ entries, e.key.value?.isSome = true)
    (hnodup : (entries.map keyText).Nodup) : putAll [] (flatten entries) = .ok entries := by
  obtain ⟨k', hput, hresult⟩ := putFrom_flatten (Keyed.indexed_empty keyText) hvalues
    (by simpa [Keyed.empty] using hnodup)
  unfold putAll
  rw [show keyed [] = Keyed.empty from rfl, hput]
  exact congrArg Except.ok (hresult.trans (by simp [Keyed.empty]))

end Entry

/-! ### Sets -/

namespace Token

/-- What every addition keeps is kept by all of them. -/
theorem addFrom_invariant {P : Keyed Token → Prop} {k k' : Keyed Token} {args : List Token}
    (hstep : ∀ k, ∀ t ∈ args, P k → P (k.add t.key t)) (h : P k)
    (hadd : addFrom k args = .ok k') : P k' := by
  induction args generalizing k with
  | nil =>
    cases hadd
    exact h
  | cons t args ih =>
    unfold addFrom at hadd
    cases hpayload : t.payload with
    | ok v =>
      rw [hpayload] at hadd
      exact ih (fun k u hu ↦ hstep k u (List.mem_cons_of_mem t hu))
        (hstep k t (List.mem_cons_self ..) h) hadd
    | error stop =>
      rw [hpayload] at hadd
      cases hadd

/-- What holds of no members and is kept by every addition holds of the members that adding
makes. -/
theorem addMembers_invariant {P : Keyed Token → Prop} {members args result : List Token}
    (hempty : P .empty) (hold : ∀ k, ∀ t ∈ members, P k → P (k.add t.key t))
    (hnew : ∀ k, ∀ t ∈ args, P k → P (k.add t.key t))
    (h : addMembers members args = .ok result) : ∃ k, P k ∧ k.items.toList = result := by
  have hkeyed : P (keyed members) :=
    List.foldlRecOn members _ hempty fun k hk t ht ↦ hold k t ht hk
  unfold addMembers at h
  cases hadd : addFrom (keyed members) args with
  | ok k =>
    rw [hadd] at h
    cases h
    exact ⟨k, addFrom_invariant hnew hkeyed hadd, rfl⟩
  | error stop =>
    rw [hadd] at h
    cases h

/-- However a set is made, the keys of its members are different. -/
theorem nodup_addMembers {members args result : List Token}
    (h : addMembers members args = .ok result) : (result.map Token.key).Nodup := by
  obtain ⟨k, hk, rfl⟩ := addMembers_invariant (Keyed.indexed_empty Token.key)
    (fun k t _ hk ↦ hk.add t) (fun k t _ hk ↦ hk.add t) h
  exact hk.nodup

/-- The members of a set come from the members it had and the arguments. -/
theorem forall_addMembers {P : Token → Prop} {members args result : List Token}
    (hold : ∀ t ∈ members, P t) (hnew : ∀ t ∈ args, P t)
    (h : addMembers members args = .ok result) : ∀ t ∈ result, P t := by
  obtain ⟨k, hk, rfl⟩ := addMembers_invariant (P := fun k ↦ ∀ t ∈ k.items, P t)
    (fun t ht ↦ absurd ht (by simp [Keyed.empty]))
    (fun k t ht hk ↦ Keyed.forall_add hk t.key (hold t ht))
    (fun k t ht hk ↦ Keyed.forall_add hk t.key (hnew t ht)) h
  exact fun t ht ↦ hk t (Array.mem_toList_iff.mp ht)

/-- Members with keys different from each other and from those that are there are appended. -/
theorem addFrom_of_nodup {k : Keyed Token} (h : k.Indexed Token.key) {args : List Token}
    (hvalues : ∀ t ∈ args, t.value?.isSome = true)
    (hnodup : (k.items.toList.map Token.key ++ args.map Token.key).Nodup) :
    ∃ k', addFrom k args = .ok k' ∧ k'.items.toList = k.items.toList ++ args := by
  induction args generalizing k with
  | nil => exact ⟨k, rfl, (List.append_nil _).symm⟩
  | cons t args ih =>
    obtain ⟨v, hv⟩ := Option.isSome_iff_exists.mp (hvalues t (List.mem_cons_self ..))
    have hpayload : t.payload = .ok v := by rw [Token.payload, hv]
    have hnew : k.places[t.key]? = none := by
      refine h.places_eq_none fun hmem ↦ ?_
      exact List.disjoint_of_nodup_append hnodup hmem (List.mem_cons_self ..)
    have hitems : (k.add t.key t).items = k.items.push t := by
      unfold Keyed.add
      dsimp only
      rw [hnew]
    obtain ⟨k', hadd, hresult⟩ := ih (h.add t)
      (fun u hu ↦ hvalues u (List.mem_cons_of_mem _ hu)) (by
        rw [hitems]
        simpa using hnodup)
    refine ⟨k', ?_, ?_⟩
    · rw [addFrom, hpayload]
      exact hadd
    · rw [hresult, hitems]
      simp

/-- Members with different keys that have values make a set as they stand. -/
theorem addMembers_of_nodup {args : List Token} (hvalues : ∀ t ∈ args, t.value?.isSome = true)
    (hnodup : (args.map Token.key).Nodup) : addMembers [] args = .ok args := by
  obtain ⟨k', hadd, hresult⟩ := addFrom_of_nodup (Keyed.indexed_empty Token.key) hvalues
    (by simpa [Keyed.empty] using hnodup)
  unfold addMembers
  rw [show keyed [] = Keyed.empty from rfl, hadd]
  exact congrArg Except.ok (hresult.trans (by simp [Keyed.empty]))

end Token

end TokenLang

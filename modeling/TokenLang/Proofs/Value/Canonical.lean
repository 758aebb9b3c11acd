import TokenLang.Proofs.Collection
import TokenLang.Proofs.Text.Quoted
import Mathlib.Data.List.Sort
import Std.Data.String.ToInt
import Mathlib.Data.String.Basic

/-!
Keys as a canonical form. `Value.Structural` are the values that are nothing but their parts: no
floats, nothing with a reference number and nothing pending, with maps and sets as putting and
adding make them. On these, two values are equal just when they have the same key
(`Value.equal_iff_key_eq`): the key of a list tells the keys of its items in their order, the key of
a map or set the keys of its entries or members in any order, and as many entries with different
keys that are all found in another map are all that it has. So equality is an equivalence relation
here, and the order in which a collection was made shows in neither, however deep inside
(`Value.key_canonical`).
-/

set_option autoImplicit false
set_option relaxedAutoImplicit false

namespace TokenLang

open Text.Quoted (quote)

/-! ### Sorted texts -/

theorem insertSorted_eq_orderedInsert (key : String) (keys : List String) :
    insertSorted key keys = keys.orderedInsert (· ≤ ·) key := by
  induction keys with
  | nil => rfl
  | cons k rest ih =>
    by_cases h : k < key
    · rw [insertSorted, if_pos h, ih, List.orderedInsert_cons, if_neg (not_le.mpr h)]
    · rw [insertSorted, if_neg h, List.orderedInsert_cons, if_pos (not_lt.mp h)]

theorem sortedKeys_eq_insertionSort (keys : List String) :
    sortedKeys keys = keys.insertionSort (· ≤ ·) := by
  induction keys with
  | nil => rfl
  | cons key keys ih =>
    rw [List.insertionSort_cons, ← ih, ← insertSorted_eq_orderedInsert]
    rfl

theorem sortedKeys_perm (keys : List String) : (sortedKeys keys).Perm keys := by
  rw [sortedKeys_eq_insertionSort]
  exact List.perm_insertionSort _ keys

/-- Sorting forgets the order and nothing else. -/
theorem sortedKeys_eq_iff {a b : List String} : sortedKeys a = sortedKeys b ↔ a.Perm b := by
  constructor
  · intro h
    exact (sortedKeys_perm a).symm.trans (h ▸ sortedKeys_perm b)
  · intro h
    rw [sortedKeys_eq_insertionSort, sortedKeys_eq_insertionSort]
    exact List.Perm.eq_of_sortedLE List.sortedLE_insertionSort List.sortedLE_insertionSort
      ((List.perm_insertionSort _ a).trans (h.trans (List.perm_insertionSort _ b).symm))

/-- Sorted words with a space between each two tell which words there are. -/
theorem spaced_sortedKeys_eq_iff {words : Set String} (hwords : IsCode words) {a b : List String}
    (ha : ∀ s ∈ a, s ∈ words) (hb : ∀ s ∈ b, s ∈ words) :
    spaced (sortedKeys a) = spaced (sortedKeys b) ↔ a.Perm b := by
  refine ⟨fun h ↦ sortedKeys_eq_iff.mp (eq_of_spaced_eq hwords ?_ ?_ h),
    fun h ↦ congrArg spaced (sortedKeys_eq_iff.mpr h)⟩
  · exact fun s hs ↦ ha s ((sortedKeys_perm a).mem_iff.mp hs)
  · exact fun s hs ↦ hb s ((sortedKeys_perm b).mem_iff.mp hs)

/-! ### The keys of containers -/

theorem Token.quotedKeys_eq_map (items : List Token) :
    Token.quotedKeys items = (items.map Token.key).map quote := by
  induction items with
  | nil => rfl
  | cons t items ih => exact congrArg (quote t.key :: ·) ih

/-- The keys of both sides of an entry. -/
def Entry.keys (e : Entry) : String × String := (e.key.key, e.value.key)

/-- A pair of keys as it stands in the key of a map. -/
def Entry.joined (keys : String × String) : String := quote keys.1 ++ "=" ++ quote keys.2

theorem Entry.quotedKeys_eq_map (entries : List Entry) :
    Entry.quotedKeys entries = (entries.map Entry.keys).map Entry.joined := by
  induction entries with
  | nil => rfl
  | cons e entries ih =>
    obtain ⟨key, value⟩ := e
    exact congrArg (Entry.joined (key.key, value.key) :: ·) ih

theorem Entry.eq_of_joined_append_eq {p q : String × String} {a b : List Char}
    (h : (joined p).toList ++ a = (joined q).toList ++ b) : p = q ∧ a = b := by
  simp only [joined, String.toList_append, List.append_assoc] at h
  obtain ⟨hkey, hrest⟩ := Text.Quoted.eq_of_quote_append_eq h
  obtain ⟨hvalue, hab⟩ := Text.Quoted.eq_of_quote_append_eq (List.append_cancel_left hrest)
  exact ⟨Prod.ext hkey hvalue, hab⟩

theorem Entry.joined_injective : Function.Injective Entry.joined := by
  intro p q h
  refine (eq_of_joined_append_eq (a := []) (b := []) ?_).1
  rw [h]

theorem Entry.isCode_joined : IsCode (Set.range Entry.joined) := by
  rintro _ ⟨p, rfl⟩
  constructor
  · intro h
    have hlist := congrArg String.toList h
    rw [joined, String.toList_append, String.toList_append, Text.Quoted.toList_quote] at hlist
    cases hlist
  · rintro _ ⟨q, rfl⟩ a b h
    obtain ⟨rfl, rfl⟩ := eq_of_joined_append_eq h
    exact ⟨rfl, rfl⟩

theorem forall_mem_range_map {α : Type} (f : α → String) (l : List α) :
    ∀ s ∈ l.map f, s ∈ Set.range f := by
  intro s hs
  obtain ⟨x, -, rfl⟩ := List.mem_map.mp hs
  exact ⟨x, rfl⟩

theorem spaced_quotedKeys_eq_iff {a b : List Token} :
    spaced (Token.quotedKeys a) = spaced (Token.quotedKeys b) ↔
      a.map Token.key = b.map Token.key := by
  rw [Token.quotedKeys_eq_map, Token.quotedKeys_eq_map]
  refine ⟨fun h ↦ ?_, fun h ↦ by rw [h]⟩
  exact List.map_injective_iff.mpr Text.Quoted.quote_injective
    (eq_of_spaced_eq Text.Quoted.isCode_quote (forall_mem_range_map _ _)
      (forall_mem_range_map _ _) h)

namespace Value

/-- What the key of a value begins with, up to the colon. -/
def mark : Value → String
  | .null => "n"
  | .bool _ => "bool"
  | .int _ => "int"
  | .float _ _ => "float"
  | .char _ => "char"
  | .string _ => "s"
  | .atom _ => "a"
  | .list _ => "list"
  | .quote _ => "quote"
  | .map _ => "map"
  | .set _ => "set"
  | .function _ _ | .expander _ _ | .morph _ _ | .object _ _ => "p"

/-- What stands after the colon. -/
def keyBody : Value → String
  | .null => ""
  | .bool b => if b then "true" else "false"
  | .int i => toString i.toInt
  | .float x _ => Decimal.plain.write x
  | .char c => charText c
  | .string s => s
  | .atom name => name
  | .list items | .quote items => "[" ++ (spaced (Token.quotedKeys items) ++ "]")
  | .map entries => spaced (sortedKeys (Entry.quotedKeys entries))
  | .set members => spaced (sortedKeys (Token.quotedKeys members))
  | .function _ ref | .expander _ ref | .morph _ ref | .object _ ref =>
    "0x" ++ Text.Quoted.hex 1 ref

theorem key_eq_append (v : Value) : v.key = v.mark ++ ":" ++ v.keyBody := by
  apply String.toList_injective
  cases v <;> simp [key, mark, keyBody, Ref.key]

theorem takeWhile_key (v : Value) : v.key.toList.takeWhile (· != ':') = v.mark.toList := by
  rw [key_eq_append]
  cases v <;> simp [mark, List.takeWhile]

/-- Values with one key are of one kind. -/
theorem mark_eq_of_key_eq {v w : Value} (h : v.key = w.key) : v.mark = w.mark := by
  apply String.toList_injective
  rw [← takeWhile_key, ← takeWhile_key, h]

/-- Among values of one kind, the key tells what stands after the colon. -/
theorem key_eq_iff_of_mark_eq (v w : Value) (h : v.mark = w.mark) :
    v.key = w.key ↔ v.keyBody = w.keyBody := by
  rw [key_eq_append, key_eq_append, h, String.append_right_inj]

/-! ### The keys of collections -/

theorem key_list_eq_iff {a b : List Token} :
    (Value.list a).key = (Value.list b).key ↔ a.map Token.key = b.map Token.key := by
  refine (key_eq_iff_of_mark_eq (.list a) (.list b) rfl).trans ?_
  show "[" ++ (_ ++ "]") = "[" ++ (_ ++ "]") ↔ _
  rw [String.append_right_inj, String.append_left_inj, spaced_quotedKeys_eq_iff]

theorem key_quote_eq_iff {a b : List Token} :
    (Value.quote a).key = (Value.quote b).key ↔ a.map Token.key = b.map Token.key := by
  refine (key_eq_iff_of_mark_eq (.quote a) (.quote b) rfl).trans ?_
  show "[" ++ (_ ++ "]") = "[" ++ (_ ++ "]") ↔ _
  rw [String.append_right_inj, String.append_left_inj, spaced_quotedKeys_eq_iff]

theorem key_map_eq_iff {a b : List Entry} :
    (Value.map a).key = (Value.map b).key ↔ (a.map Entry.keys).Perm (b.map Entry.keys) := by
  refine (key_eq_iff_of_mark_eq (.map a) (.map b) rfl).trans ?_
  show spaced (sortedKeys (Entry.quotedKeys a)) = spaced (sortedKeys (Entry.quotedKeys b)) ↔ _
  rw [Entry.quotedKeys_eq_map, Entry.quotedKeys_eq_map,
    spaced_sortedKeys_eq_iff Entry.isCode_joined (forall_mem_range_map _ _)
      (forall_mem_range_map _ _), List.map_perm_map_iff Entry.joined_injective]

theorem key_set_eq_iff {a b : List Token} :
    (Value.set a).key = (Value.set b).key ↔ (a.map Token.key).Perm (b.map Token.key) := by
  refine (key_eq_iff_of_mark_eq (.set a) (.set b) rfl).trans ?_
  show spaced (sortedKeys (Token.quotedKeys a)) = spaced (sortedKeys (Token.quotedKeys b)) ↔ _
  rw [Token.quotedKeys_eq_map, Token.quotedKeys_eq_map,
    spaced_sortedKeys_eq_iff Text.Quoted.isCode_quote (forall_mem_range_map _ _)
      (forall_mem_range_map _ _), List.map_perm_map_iff Text.Quoted.quote_injective]

/-! ### The keys of single values -/

theorem key_bool_eq_iff {a b : Bool} : (Value.bool a).key = (Value.bool b).key ↔ a = b := by
  refine (key_eq_iff_of_mark_eq (.bool a) (.bool b) rfl).trans ?_
  show (if a then "true" else "false") = (if b then "true" else "false") ↔ _
  cases a <;> cases b <;> simp

theorem key_int_eq_iff {i j : Int64} : (Value.int i).key = (Value.int j).key ↔ i = j := by
  refine (key_eq_iff_of_mark_eq (.int i) (.int j) rfl).trans ?_
  show toString i.toInt = toString j.toInt ↔ _
  rw [Int.toString_eq_repr, Int.toString_eq_repr, Int.repr_inj, Int64.toInt_inj]

/-- The character that the text between two backquotes stands for. -/
def ofCharBody : List Char → Char
  | ['\\', 'n'] => '\n'
  | ['\\', 't'] => '\t'
  | ['\\', 'r'] => '\r'
  | ['\\', '0'] => '\x00'
  | text => text.getLastD default

theorem ofCharBody_charBody (c : Char) : ofCharBody (charBody c).toList = c := by
  unfold charBody
  split
  case h_6 =>
    split_ifs with hmark
    · subst hmark
      rfl
    · simp [ofCharBody]
  all_goals rfl

theorem charBody_injective : Function.Injective charBody := by
  intro c d h
  rw [← ofCharBody_charBody c, h, ofCharBody_charBody]

theorem key_char_eq_iff {c d : Char} : (Value.char c).key = (Value.char d).key ↔ c = d := by
  refine (key_eq_iff_of_mark_eq (.char c) (.char d) rfl).trans ?_
  show charText c = charText d ↔ _
  rw [charText, charText, String.append_left_inj, String.append_right_inj,
    charBody_injective.eq_iff]

theorem key_string_eq_iff {s t : String} : (Value.string s).key = (Value.string t).key ↔ s = t :=
  key_eq_iff_of_mark_eq (.string s) (.string t) rfl

theorem key_atom_eq_iff {s t : String} : (Value.atom s).key = (Value.atom t).key ↔ s = t :=
  key_eq_iff_of_mark_eq (.atom s) (.atom t) rfl

/-! ### The test for one key -/

/-- The test for one key tells values with different marks apart. -/
theorem sameKey_eq_false {v w : Value} (h : v.mark ≠ w.mark) : v.sameKey w = false := by
  fun_cases Value.sameKey v w with
  | case1 | case4 | case7 => exact absurd rfl h
  | case10 => exact beq_eq_false_iff_ne.mpr (mt mark_eq_of_key_eq h)
  | _ => rfl

/-- The test for one key tells whether the keys are the same. -/
theorem sameKey_iff (v w : Value) : v.sameKey w = true ↔ v.key = w.key := by
  by_cases hmark : v.mark = w.mark
  case neg => simp [sameKey_eq_false hmark, mt mark_eq_of_key_eq hmark]
  fun_cases Value.sameKey v w with
  | case1 i j => rw [beq_iff_eq, key_int_eq_iff]
  | case4 s t => rw [beq_iff_eq, key_string_eq_iff]
  | case7 s t => rw [beq_iff_eq, key_atom_eq_iff]
  | case10 => exact beq_iff_eq
  | case2 _ w | case5 _ w | case8 _ w => cases w <;> simp_all [mark]
  | case3 v | case6 v | case9 v => cases v <;> simp_all [mark]

end Value

theorem Token.sameKey_iff (s t : Token) : s.sameKey t = true ↔ s.key = t.key := by
  fun_cases Token.sameKey s t with
  | case1 v p w q => exact Value.sameKey_iff v w
  | case2 => exact beq_iff_eq

/-! ### Values that are nothing but their parts -/

mutual

/-- Values made of null, truth values, integers, characters, strings and atoms by lists, quotes,
maps and sets. A map has what putting keys and values in turn makes of its entries, a set what
adding members makes of its members. -/
inductive Value.Structural : Value → Prop
  | null : Value.Structural .null
  | bool (b : Bool) : Value.Structural (.bool b)
  | int (i : Int64) : Value.Structural (.int i)
  | char (c : Char) : Value.Structural (.char c)
  | string (s : String) : Value.Structural (.string s)
  | atom (name : String) : Value.Structural (.atom name)
  | list {items : List Token} (hitems : ∀ t ∈ items, Token.Structural t) :
      Value.Structural (.list items)
  | quote {items : List Token} (hitems : ∀ t ∈ items, Token.Structural t) :
      Value.Structural (.quote items)
  | map {entries result : List Entry} {args : List Token}
      (hkeys : ∀ e ∈ entries, Token.Structural e.key)
      (hvalues : ∀ e ∈ entries, Token.Structural e.value)
      (hargs : ∀ t ∈ args, Token.Structural t) (hmade : Entry.putAll entries args = .ok result) :
      Value.Structural (.map result)
  | set {members args result : List Token} (hmembers : ∀ t ∈ members, Token.Structural t)
      (hargs : ∀ t ∈ args, Token.Structural t)
      (hmade : Token.addMembers members args = .ok result) :
      Value.Structural (.set result)

/-- Tokens that hold such a value. -/
inductive Token.Structural : Token → Prop
  | done {v : Value} (h : Value.Structural v) (pos : Option Position) :
      Token.Structural (.done v pos)

end

theorem Token.Structural.value {v : Value} {pos : Option Position}
    (h : (Token.done v pos).Structural) : v.Structural := by
  cases h
  assumption

theorem Token.Structural.isSome {t : Token} (h : t.Structural) : t.value?.isSome = true := by
  cases h
  rfl

namespace Value

theorem structural_list_iff {items : List Token} :
    (Value.list items).Structural ↔ ∀ t ∈ items, t.Structural :=
  ⟨fun h ↦ by cases h; assumption, .list⟩

theorem structural_quote_iff {items : List Token} :
    (Value.quote items).Structural ↔ ∀ t ∈ items, t.Structural :=
  ⟨fun h ↦ by cases h; assumption, .quote⟩

/-- A map can be made just when its keys are different. -/
theorem structural_map_iff {entries : List Entry} : (Value.map entries).Structural ↔
    (∀ e ∈ entries, e.key.Structural ∧ e.value.Structural) ∧
      (entries.map Entry.keyText).Nodup := by
  constructor
  · intro h
    cases h with
    | map hkeys hvalues hargs hmade =>
      refine ⟨Entry.forall_putAll (fun e he ↦ ⟨hkeys e he, hvalues e he⟩) ?_ hmade,
        Entry.nodup_putAll hmade⟩
      rintro key hkey value (hvalue | rfl)
      · exact ⟨hargs key hkey, hargs value hvalue⟩
      · exact ⟨hargs key hkey, .done .null none⟩
  · rintro ⟨hparts, hnodup⟩
    refine .map (List.forall_mem_nil _) (List.forall_mem_nil _) ?_
      (Entry.putAll_flatten (fun e he ↦ (hparts e he).1.isSome) hnodup)
    intro t ht
    obtain ⟨e, he, ht⟩ := List.mem_flatMap.mp ht
    simp only [List.mem_cons, List.not_mem_nil, or_false] at ht
    obtain rfl | rfl := ht
    · exact (hparts e he).1
    · exact (hparts e he).2

/-- A set can be made just when the keys of its members are different. -/
theorem structural_set_iff {members : List Token} : (Value.set members).Structural ↔
    (∀ t ∈ members, t.Structural) ∧ (members.map Token.key).Nodup := by
  constructor
  · intro h
    cases h with
    | set hmembers hargs hmade =>
      exact ⟨Token.forall_addMembers hmembers hargs hmade, Token.nodup_addMembers hmade⟩
  · rintro ⟨hparts, hnodup⟩
    exact .set (List.forall_mem_nil _) hparts
      (Token.addMembers_of_nodup (fun t ht ↦ (hparts t ht).isSome) hnodup)

end Value

/-! ### Equality by keys -/

/-- As many different things, all of them found among others, are the others in some order. -/
theorem perm_iff_of_nodup {α : Type} {a b : List α} (ha : a.Nodup) :
    a.Perm b ↔ a.length = b.length ∧ ∀ x ∈ a, x ∈ b :=
  ⟨fun h ↦ ⟨h.length_eq, fun _ hx ↦ h.mem_iff.mp hx⟩,
    fun h ↦ (ha.subperm h.2).perm_of_length_le h.1.ge⟩

theorem Entry.nodup_keys {entries : List Entry} (h : (entries.map Entry.keyText).Nodup) :
    (entries.map Entry.keys).Nodup := by
  refine .of_map Prod.fst ?_
  rw [List.map_map]
  exact h

theorem Token.hasKey_iff {members : List Token} {t : Token} :
    Token.hasKey members t = true ↔ t.key ∈ members.map Token.key := by
  simp [Token.hasKey, Token.sameKey_iff]

/-- Equal values of these are of one kind. -/
theorem Value.mark_eq_of_equal {v w : Value} (hv : v.Structural) (hw : w.Structural)
    (h : v.equal w = true) : v.mark = w.mark := by
  cases hv <;> cases hw <;> first
    | rfl
    | cases h

mutual

/-- Values that are nothing but their parts are equal just when they have one key. Values of
different kinds are neither; entries are only looked up one way, and their number and different keys
do the rest. -/
theorem Value.equal_iff_key_eq (v w : Value) (hv : v.Structural) (hw : w.Structural) :
    v.equal w = true ↔ v.key = w.key := by
  by_cases hmark : v.mark = w.mark
  case neg =>
    exact iff_of_false (fun h ↦ hmark (Value.mark_eq_of_equal hv hw h))
      fun h ↦ hmark (Value.mark_eq_of_key_eq h)
  match v with
  | .null =>
    cases w with
    | null => simp [Value.equal]
    | _ => simp [Value.mark] at hmark
  | .bool a =>
    cases w with
    | bool b => rw [Value.equal, beq_iff_eq, Value.key_bool_eq_iff]
    | _ => simp [Value.mark] at hmark
  | .int i =>
    cases w with
    | int j => rw [Value.equal, beq_iff_eq, Value.key_int_eq_iff]
    | _ => simp [Value.mark] at hmark
  | .char c =>
    cases w with
    | char d => rw [Value.equal, beq_iff_eq, Value.key_char_eq_iff]
    | _ => simp [Value.mark] at hmark
  | .string s =>
    cases w with
    | string t => rw [Value.equal, beq_iff_eq, Value.key_string_eq_iff]
    | _ => simp [Value.mark] at hmark
  | .atom s =>
    cases w with
    | atom t => rw [Value.equal, beq_iff_eq, Value.key_atom_eq_iff]
    | _ => simp [Value.mark] at hmark
  | .list a =>
    cases w with
    | list b =>
      have hall := Token.equalAll_iff a b (Value.structural_list_iff.mp hv)
        (Value.structural_list_iff.mp hw)
      rw [Value.equal, Bool.and_eq_true, beq_iff_eq, hall, Value.key_list_eq_iff]
      exact and_iff_right_of_imp fun h ↦ by simpa using congrArg List.length h
    | _ => simp [Value.mark] at hmark
  | .quote a =>
    cases w with
    | quote b =>
      have hall := Token.equalAll_iff a b (Value.structural_quote_iff.mp hv)
        (Value.structural_quote_iff.mp hw)
      rw [Value.equal, Bool.and_eq_true, beq_iff_eq, hall, Value.key_quote_eq_iff]
      exact and_iff_right_of_imp fun h ↦ by simpa using congrArg List.length h
    | _ => simp [Value.mark] at hmark
  | .map a =>
    cases w with
    | map b =>
      obtain ⟨ha, hnodup⟩ := Value.structural_map_iff.mp hv
      have hall := Entry.equalIn_iff a b ha (Value.structural_map_iff.mp hw).1
      rw [Value.equal, Bool.and_eq_true, beq_iff_eq, hall, Value.key_map_eq_iff,
        perm_iff_of_nodup (Entry.nodup_keys hnodup), List.length_map, List.length_map]
    | _ => simp [Value.mark] at hmark
  | .set a =>
    cases w with
    | set b =>
      obtain ⟨-, hnodup⟩ := Value.structural_set_iff.mp hv
      rw [Value.equal, Bool.and_eq_true, beq_iff_eq, List.all_eq_true, Value.key_set_eq_iff,
        perm_iff_of_nodup hnodup, List.length_map, List.length_map, List.forall_mem_map]
      simp only [Token.hasKey_iff]
    | _ => simp [Value.mark] at hmark
  | .float _ _ | .function _ _ | .expander _ _ | .morph _ _ | .object _ _ => cases hv

theorem Token.equalAll_iff (a b : List Token) (ha : ∀ t ∈ a, t.Structural)
    (hb : ∀ t ∈ b, t.Structural) :
    Token.equalAll a b = true ↔ a.map Token.key = b.map Token.key := by
  match a, b with
  | [], [] => simp [Token.equalAll]
  | [], t :: b => simp [Token.equalAll]
  | s :: a, [] => simp [Token.equalAll]
  | s :: a, t :: b =>
    obtain ⟨hs, ha⟩ := List.forall_mem_cons.mp ha
    obtain ⟨ht, hb⟩ := List.forall_mem_cons.mp hb
    rw [Token.equalAll, Bool.and_eq_true, Token.equal_iff_key_eq s t hs ht,
      Token.equalAll_iff a b ha hb, List.map_cons, List.map_cons, List.cons.injEq]

theorem Token.equal_iff_key_eq (s t : Token) (hs : s.Structural) (ht : t.Structural) :
    s.equal t = true ↔ s.key = t.key := by
  match s, t with
  | .done v p, .done w q =>
    rw [Token.equal, Token.value?, Token.key, Token.key]
    exact Value.equal_iff_key_eq v w hs.value ht.value

theorem Entry.equalIn_iff (a b : List Entry)
    (ha : ∀ e ∈ a, e.key.Structural ∧ e.value.Structural)
    (hb : ∀ e ∈ b, e.key.Structural ∧ e.value.Structural) :
    Entry.equalIn a b = true ↔ ∀ p ∈ a.map Entry.keys, p ∈ b.map Entry.keys := by
  match a with
  | [] => simp [Entry.equalIn]
  | .mk key value :: a =>
    obtain ⟨⟨-, hvalue⟩, ha⟩ := List.forall_mem_cons.mp ha
    have hfirst : (b.any fun e ↦ key.sameKey e.key && value.equal e.value) = true ↔
        Entry.keys (.mk key value) ∈ b.map Entry.keys := by
      rw [List.any_eq_true, List.mem_map]
      refine exists_congr fun e ↦ and_congr_right fun he ↦ ?_
      rw [Bool.and_eq_true, Token.sameKey_iff,
        Token.equal_iff_key_eq value e.value hvalue (hb e he).2, eq_comm (a := key.key),
        eq_comm (a := value.key), ← Prod.mk.injEq]
      rfl
    rw [Entry.equalIn, Bool.and_eq_true, hfirst, Entry.equalIn_iff a b ha hb, List.map_cons,
      List.forall_mem_cons]

end

/-! ### The order in which collections are made -/

theorem Entry.isSome_of_putFrom {k k' : Keyed Entry} {entries : List Entry}
    (h : putFrom k (flatten entries) = .ok k') : ∀ e ∈ entries, e.key.value?.isSome = true := by
  induction entries generalizing k with
  | nil => exact List.forall_mem_nil _
  | cons e entries ih =>
    have hput : (e.key.payload >>= fun _ ↦
        putFrom (k.put e.key.key (.mk e.key e.value)) (flatten entries)) = .ok k' := h
    cases hvalue : e.key.value? with
    | none =>
      rw [Token.payload, hvalue] at hput
      cases hput
    | some v =>
      rw [Token.payload, hvalue] at hput
      exact List.forall_mem_cons.mpr ⟨by rw [hvalue]; rfl, ih hput⟩

/-- Entries with different keys, put in turn, make the map of them. -/
theorem Entry.eq_of_putAll_flatten {entries result : List Entry}
    (hkeys : (entries.map keyText).Nodup) (h : putAll [] (flatten entries) = .ok result) :
    result = entries := by
  have hvalues : ∀ e ∈ entries, e.key.value?.isSome = true := by
    unfold putAll at h
    cases hput : putFrom (keyed []) (flatten entries) with
    | ok k => exact isSome_of_putFrom hput
    | error stop =>
      rw [hput] at h
      cases h
  exact Except.ok.inj (h.symm.trans (putAll_flatten hvalues hkeys))

theorem Token.isSome_of_addFrom {k k' : Keyed Token} {members : List Token}
    (h : addFrom k members = .ok k') : ∀ t ∈ members, t.value?.isSome = true := by
  induction members generalizing k with
  | nil => exact List.forall_mem_nil _
  | cons t members ih =>
    rw [addFrom, Token.payload] at h
    cases hvalue : t.value? with
    | none =>
      rw [hvalue] at h
      cases h
    | some v =>
      rw [hvalue] at h
      exact List.forall_mem_cons.mpr ⟨by rw [hvalue]; rfl, ih h⟩

/-- Members with different keys, added in turn, make the set of them. -/
theorem Token.eq_of_addMembers {members result : List Token}
    (hkeys : (members.map Token.key).Nodup) (h : addMembers [] members = .ok result) :
    result = members := by
  have hvalues : ∀ t ∈ members, t.value?.isSome = true := by
    unfold addMembers at h
    cases hadd : addFrom (keyed []) members with
    | ok k => exact isSome_of_addFrom hadd
    | error stop =>
      rw [hadd] at h
      cases h
  exact Except.ok.inj (h.symm.trans (addMembers_of_nodup hvalues hkeys))

namespace Value

/-- One value is another with the collections in it, at any depth, made of the same entries or
members in another order. -/
inductive Rearranged : Value → Value → Prop
  | refl (v : Value) : Rearranged v v
  | trans {u v w : Value} (huv : Rearranged u v) (hvw : Rearranged v w) : Rearranged u w
  | map {entries entries' made made' : List Entry} (hkeys : (entries.map Entry.keyText).Nodup)
      (hperm : entries.Perm entries') (hmade : Entry.putAll [] (Entry.flatten entries) = .ok made)
      (hmade' : Entry.putAll [] (Entry.flatten entries') = .ok made') :
      Rearranged (.map made) (.map made')
  | set {members members' made made' : List Token} (hkeys : (members.map Token.key).Nodup)
      (hperm : members.Perm members') (hmade : Token.addMembers [] members = .ok made)
      (hmade' : Token.addMembers [] members' = .ok made') : Rearranged (.set made) (.set made')
  | inList {v w : Value} (h : Rearranged v w) (before after : List Token) (pos : Option Position) :
      Rearranged (.list (before ++ .done v pos :: after)) (.list (before ++ .done w pos :: after))
  | inQuote {v w : Value} (h : Rearranged v w) (before after : List Token) (pos : Option Position) :
      Rearranged (.quote (before ++ .done v pos :: after)) (.quote (before ++ .done w pos :: after))
  | inKey {v w : Value} (h : Rearranged v w) (before after : List Entry) (pos : Option Position)
      (value : Token) : Rearranged (.map (before ++ .mk (.done v pos) value :: after))
        (.map (before ++ .mk (.done w pos) value :: after))
  | inValue {v w : Value} (h : Rearranged v w) (before after : List Entry) (key : Token)
      (pos : Option Position) : Rearranged (.map (before ++ .mk key (.done v pos) :: after))
        (.map (before ++ .mk key (.done w pos) :: after))
  | inSet {v w : Value} (h : Rearranged v w) (before after : List Token) (pos : Option Position) :
      Rearranged (.set (before ++ .done v pos :: after)) (.set (before ++ .done w pos :: after))

/-- The order in which collections were made does not show in a key. -/
theorem Rearranged.key_eq {v w : Value} (h : v.Rearranged w) : v.key = w.key := by
  induction h with
  | refl => rfl
  | trans _ _ ihuv ihvw => exact ihuv.trans ihvw
  | map hkeys hperm hmade hmade' =>
    have hkeys' := ((hperm.map Entry.keyText).nodup_iff).mp hkeys
    rw [Entry.eq_of_putAll_flatten hkeys hmade, Entry.eq_of_putAll_flatten hkeys' hmade']
    exact key_map_eq_iff.mpr (hperm.map _)
  | set hkeys hperm hmade hmade' =>
    have hkeys' := ((hperm.map Token.key).nodup_iff).mp hkeys
    rw [Token.eq_of_addMembers hkeys hmade, Token.eq_of_addMembers hkeys' hmade']
    exact key_set_eq_iff.mpr (hperm.map _)
  | inList _ before after pos ih => exact key_list_eq_iff.mpr (by simp [Token.key, ih])
  | inQuote _ before after pos ih => exact key_quote_eq_iff.mpr (by simp [Token.key, ih])
  | inKey _ before after pos value ih =>
    exact key_map_eq_iff.mpr (.of_eq (by simp [Entry.keys, Entry.key, Entry.value, Token.key, ih]))
  | inValue _ before after key pos ih =>
    exact key_map_eq_iff.mpr (.of_eq (by simp [Entry.keys, Entry.key, Entry.value, Token.key, ih]))
  | inSet _ before after pos ih => exact key_set_eq_iff.mpr (.of_eq (by simp [Token.key, ih]))

/-- One token in place of another among tokens that hold values of the kind. -/
theorem structural_replace {v w : Value} {before after : List Token} {pos : Option Position}
    (h : v.Structural → w.Structural) (ht : ∀ t ∈ before ++ .done v pos :: after, t.Structural) :
    ∀ t ∈ before ++ .done w pos :: after, t.Structural := by
  simp only [List.forall_mem_append, List.forall_mem_cons] at ht ⊢
  exact ⟨ht.1, .done (h ht.2.1.value) pos, ht.2.2⟩

/-- Rearranging the collections in a value keeps it nothing but its parts. -/
theorem Rearranged.structural {v w : Value} (h : v.Rearranged w) : v.Structural → w.Structural := by
  induction h with
  | refl => exact id
  | trans _ _ ihuv ihvw => exact ihvw ∘ ihuv
  | map hkeys hperm hmade hmade' =>
    have hkeys' := ((hperm.map Entry.keyText).nodup_iff).mp hkeys
    rw [Entry.eq_of_putAll_flatten hkeys hmade, Entry.eq_of_putAll_flatten hkeys' hmade',
      structural_map_iff, structural_map_iff]
    exact fun h ↦ ⟨fun e he ↦ h.1 e (hperm.mem_iff.mpr he), hkeys'⟩
  | set hkeys hperm hmade hmade' =>
    have hkeys' := ((hperm.map Token.key).nodup_iff).mp hkeys
    rw [Token.eq_of_addMembers hkeys hmade, Token.eq_of_addMembers hkeys' hmade',
      structural_set_iff, structural_set_iff]
    exact fun h ↦ ⟨fun t ht ↦ h.1 t (hperm.mem_iff.mpr ht), hkeys'⟩
  | inList _ before after pos ih =>
    rw [structural_list_iff, structural_list_iff]
    exact structural_replace ih
  | inQuote _ before after pos ih =>
    rw [structural_quote_iff, structural_quote_iff]
    exact structural_replace ih
  | inKey h before after pos value ih =>
    rw [structural_map_iff, structural_map_iff]
    rintro ⟨hparts, hkeys⟩
    simp only [List.forall_mem_append, List.forall_mem_cons] at hparts ⊢
    refine ⟨⟨hparts.1, ⟨.done (ih hparts.2.1.1.value) pos, hparts.2.1.2⟩, hparts.2.2⟩, ?_⟩
    simpa [Entry.keyText, Entry.key, Token.key, h.key_eq] using hkeys
  | inValue h before after key pos ih =>
    rw [structural_map_iff, structural_map_iff]
    rintro ⟨hparts, hkeys⟩
    simp only [List.forall_mem_append, List.forall_mem_cons] at hparts ⊢
    refine ⟨⟨hparts.1, ⟨hparts.2.1.1, .done (ih hparts.2.1.2.value) pos⟩, hparts.2.2⟩, ?_⟩
    simpa [Entry.keyText, Entry.key] using hkeys
  | inSet h before after pos ih =>
    rw [structural_set_iff, structural_set_iff]
    rintro ⟨hparts, hkeys⟩
    refine ⟨structural_replace ih hparts, ?_⟩
    simpa [Token.key, h.key_eq] using hkeys

/-- The key is a canonical form of the values that are nothing but their parts: two of them are
equal just when they have one key, so equality is an equivalence relation on them. Entries or
members with different keys make, in whatever order they are put or added, collections that are
equal and have one key, and this holds for the values in which such collections stand at any
depth. -/
theorem key_canonical :
    (∀ v w : Value, v.Structural → w.Structural → (v.equal w = true ↔ v.key = w.key)) ∧
    Equivalence (fun v w : { v : Value // v.Structural } ↦ v.val.equal w.val = true) ∧
    (∀ entries entries' : List Entry, (∀ e ∈ entries, e.key.Structural ∧ e.value.Structural) →
      (entries.map Entry.keyText).Nodup → entries.Perm entries' → ∃ made made',
        Entry.putAll [] (Entry.flatten entries) = .ok made ∧
        Entry.putAll [] (Entry.flatten entries') = .ok made' ∧
        (Value.map made).equal (.map made') = true ∧ (Value.map made).key = (Value.map made').key) ∧
    (∀ members members' : List Token, (∀ t ∈ members, t.Structural) →
      (members.map Token.key).Nodup → members.Perm members' → ∃ made made',
        Token.addMembers [] members = .ok made ∧ Token.addMembers [] members' = .ok made' ∧
        (Value.set made).equal (.set made') = true ∧ (Value.set made).key = (Value.set made').key) ∧
    (∀ v w : Value, v.Structural → v.Rearranged w →
      w.Structural ∧ v.equal w = true ∧ v.key = w.key) := by
  have hrearranged : ∀ v w : Value, v.Structural → v.Rearranged w →
      w.Structural ∧ v.equal w = true ∧ v.key = w.key := by
    intro v w hv h
    have hw := h.structural hv
    exact ⟨hw, (equal_iff_key_eq v w hv hw).mpr h.key_eq, h.key_eq⟩
  refine ⟨equal_iff_key_eq, ⟨?_, ?_, ?_⟩, ?_, ?_, hrearranged⟩
  · exact fun v ↦ v.val.equal_self
  · intro v w h
    exact (equal_iff_key_eq _ _ w.2 v.2).mpr ((equal_iff_key_eq _ _ v.2 w.2).mp h).symm
  · intro u v w huv hvw
    exact (equal_iff_key_eq _ _ u.2 w.2).mpr (((equal_iff_key_eq _ _ u.2 v.2).mp huv).trans
      ((equal_iff_key_eq _ _ v.2 w.2).mp hvw))
  · intro entries entries' hparts hkeys hperm
    have hkeys' := ((hperm.map Entry.keyText).nodup_iff).mp hkeys
    have hmade := Entry.putAll_flatten (fun e he ↦ (hparts e he).1.isSome) hkeys
    have hmade' := Entry.putAll_flatten
      (fun e he ↦ (hparts e (hperm.mem_iff.mpr he)).1.isSome) hkeys'
    exact ⟨entries, entries', hmade, hmade', (hrearranged _ _
      (structural_map_iff.mpr ⟨hparts, hkeys⟩) (.map hkeys hperm hmade hmade')).2⟩
  · intro members members' hparts hkeys hperm
    have hkeys' := ((hperm.map Token.key).nodup_iff).mp hkeys
    have hmade := Token.addMembers_of_nodup (fun t ht ↦ (hparts t ht).isSome) hkeys
    have hmade' := Token.addMembers_of_nodup
      (fun t ht ↦ (hparts t (hperm.mem_iff.mpr ht)).isSome) hkeys'
    exact ⟨members, members', hmade, hmade', (hrearranged _ _
      (structural_set_iff.mpr ⟨hparts, hkeys⟩) (.set hkeys hperm hmade hmade')).2⟩

/-- A set within a map within a list, with both collections made in the other order. -/
theorem key_canonical_nested :
    let two : Token := .stable (.int 2)
    let word : Token := .stable (.string "2")
    let first (members : List Token) : Entry := .mk (.stable .null) (.stable (.set members))
    let second : Entry := .mk (.stable (.atom "a")) two
    let v : Value := .list [two, .stable (.map [first [two, word], second])]
    let w : Value := .list [two, .stable (.map [second, first [word, two]])]
    v.Structural ∧ v.Rearranged w ∧ v.equal w = true ∧ v.key = w.key := by
  intro two word first second v w
  have hint : two.Structural := .done (.int 2) none
  have hword : word.Structural := .done (.string "2") none
  have hmembers : ∀ t ∈ [two, word], t.Structural := by
    simp only [List.forall_mem_cons]
    exact ⟨hint, hword, List.forall_mem_nil _⟩
  have hset : (Value.set [two, word]).Structural :=
    structural_set_iff.mpr ⟨hmembers, by decide +kernel⟩
  have hkeys : ∀ members, ([first members, second].map Entry.keyText).Nodup :=
    fun members ↦ by simp [first, second, Entry.keyText, Entry.key, Token.stable, Token.key, key]
  have hmap : (Value.map [first [two, word], second]).Structural := by
    refine structural_map_iff.mpr ⟨?_, hkeys _⟩
    simp only [List.forall_mem_cons]
    exact ⟨⟨.done .null none, .done hset none⟩, ⟨.done (.atom "a") none, hint⟩,
      List.forall_mem_nil _⟩
  have hv : v.Structural := by
    refine structural_list_iff.mpr ?_
    simp only [List.forall_mem_cons]
    exact ⟨hint, .done hmap none, List.forall_mem_nil _⟩
  have hswap : (Value.set [two, word]).Rearranged (.set [word, two]) :=
    .set (by decide +kernel) (.swap word two [])
      (Token.addMembers_of_nodup (by decide) (by decide +kernel))
      (Token.addMembers_of_nodup (by decide) (by decide +kernel))
  have horder : (Value.map [first [word, two], second]).Rearranged
      (.map [second, first [word, two]]) :=
    .map (hkeys [word, two]) (.swap second (first [word, two]) [])
      (Entry.putAll_flatten (by decide) (hkeys _))
      (Entry.putAll_flatten (by decide) ((List.Perm.swap ..).nodup (hkeys [word, two])))
  have h : v.Rearranged w :=
    .inList ((Rearranged.inValue hswap [] [second] (.stable .null) none).trans horder) [two] [] none
  exact ⟨hv, h, (key_canonical.2.2.2.2 v w hv h).2⟩

end Value

end TokenLang

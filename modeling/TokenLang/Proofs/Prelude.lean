import TokenLang.Proofs.StackMap.Refinement
import TokenLang.Program

/-!
What the scope of a new world binds: the names of the standard library, each to its token with the
reference number of its place (`World.get?_new`). The only markers among them are the two of the
language.
-/

set_option autoImplicit false
set_option relaxedAutoImplicit false

namespace TokenLang

open StackMap

namespace Prelude

/-- The names of the standard library and what they are bound to. -/
def table : List (String × Token) :=
  bindings.zipIdx.map fun entry ↦ (entry.1.name, entry.1.token entry.2)

/-- Installing names binds them one after the other and leaves the bound on the hops. -/
theorem foldl_installOne (bs : List Binding) (s : Scope) (ref : Ref) :
    (bs.foldl installOne (s, ref)).1.store.toList = s.store.toList ++
      (bs.zipIdx ref).map (fun entry ↦ (entry.1.name, entry.1.token entry.2)) ∧
    (bs.foldl installOne (s, ref)).1.maxHops = s.maxHops := by
  induction bs generalizing s ref with
  | nil => simp
  | cons b bs ih =>
    have hone : (installOne (s, ref) b).1.store = s.store.push b.name (b.token ref) ∧
        (installOne (s, ref) b).1.maxHops = s.maxHops ∧
        (installOne (s, ref) b).2 = ref + 1 := by
      unfold installOne
      dsimp only
      split <;> exact ⟨rfl, rfl, rfl⟩
    obtain ⟨hstore, hhops, href⟩ := hone
    obtain ⟨htoList, hmaxHops⟩ := ih (installOne (s, ref) b).1 (ref + 1)
    rw [← href] at htoList hmaxHops
    rw [List.foldl_cons]
    refine ⟨?_, hmaxHops.trans hhops⟩
    rw [htoList, hstore, toList_push, Plain.push, href, List.zipIdx_cons, List.map_cons,
      List.append_assoc, List.singleton_append]

end Prelude

namespace World

variable (settings : Settings)

theorem toList_new : ((World.new settings).scope root).store.toList = Prelude.table := by
  refine (Prelude.foldl_installOne Prelude.bindings
    (.empty settings.name settings.strict settings.maxHops) 0).1.trans ?_
  rw [show (Scope.empty settings.name settings.strict settings.maxHops).store =
    StackMap.new 256 from rfl, StackMap.new, toList_withHash, List.nil_append]
  rfl

theorem get?_new (name : String) :
    ((World.new settings).scope root).get? name = Plain.get? Prelude.table name := by
  rw [Scope.get?, get?_eq_toList, toList_new]

theorem maxHops_new : ((World.new settings).scope root).maxHops =
    if settings.maxHops = 0 then Scope.usualHops else settings.maxHops :=
  (Prelude.foldl_installOne Prelude.bindings
    (.empty settings.name settings.strict settings.maxHops) 0).2

/-- No name other than the two markers is bound to an envoy. -/
theorem isMarker_new {name : String} (hcolon : name ≠ ":") (hat : name ≠ "@")
    (pos : Option Position) :
    ((World.new settings).scope root).isMarker (.symbol name pos) = false := by
  have hall : (Prelude.table.all fun b ↦ b.2.kind != .envoy || b.1 == ":" || b.1 == "@") = true :=
    rfl
  have hkind : ∀ t, ((World.new settings).scope root).get? name = some t → t.kind ≠ .envoy := by
    intro t ht
    rw [get?_new, Plain.get?, Option.map_eq_some_iff] at ht
    obtain ⟨b, hfind, rfl⟩ := ht
    have hname : b.1 = name := by simpa using List.find?_some hfind
    have hmem := List.mem_reverse.mp (List.mem_of_find?_eq_some hfind)
    have hb := List.all_eq_true.mp hall b hmem
    simpa [hname, hcolon, hat] using hb
  unfold Scope.isMarker Scope.marker?
  rw [show (Token.symbol name pos).isSymbol = true from rfl, if_pos rfl]
  dsimp only
  split
  · rename_i heq
    exact absurd rfl (hkind _ heq)
  · rename_i heq
    exact absurd rfl (hkind _ heq)
  · rfl

end World

end TokenLang

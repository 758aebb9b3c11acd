import Mathlib.Tactic
import TokenLang.Token.Bracket

/-!
Every bracket has one partner. The partner of a marker is the marker read backwards with every
character turned round (`partner`), and since turning and reading backwards both undo themselves,
the partner of the partner is the marker again (`partner_partner`). Two texts face each other
exactly when one is the partner of the other (`faces_iff`), which can be read off character by
character (`eq_partner_iff_getElem?`) and is the same from both sides. So matching does not depend
on which of two tokens is asked, and each opening marker has exactly one closing marker and each
closing marker exactly one opening marker (`closesWith_partner`).
-/

set_option autoImplicit false
set_option relaxedAutoImplicit false

namespace TokenLang.Token

/-! ### Turning round and reading backwards -/

@[simp] theorem turn_turn (c : Char) : turn (turn c) = c := by
  by_cases hmem : c ∈ ['(', ')', '[', ']', '\x7b', '\x7d']
  · simp only [List.mem_cons, List.not_mem_nil, or_false] at hmem
    rcases hmem with rfl | rfl | rfl | rfl | rfl | rfl <;> rfl
  · have hsame : turn c = c := by
      simp only [List.mem_cons, List.not_mem_nil, or_false, not_or] at hmem
      simp [turn, hmem]
    rw [hsame, hsame]

/-- The marker that closes what a marker opens, and opens what it closes. -/
def partner (marker : String) : String := String.ofList (marker.toList.map turn).reverse

@[simp] theorem toList_partner (marker : String) :
    (partner marker).toList = (marker.toList.map turn).reverse := by
  simp [partner]

@[simp] theorem partner_partner (marker : String) : partner (partner marker) = marker := by
  refine String.toList_inj.mp ?_
  simp [Function.comp_def]

theorem partner_ne_empty {marker : String} (h : marker ≠ "") : partner marker ≠ "" := by
  intro hempty
  have hback := partner_partner marker
  rw [hempty] at hback
  exact h hback.symm

theorem eq_partner_comm {a b : String} : b = partner a ↔ a = partner b := by
  constructor
  · rintro rfl
    exact (partner_partner a).symm
  · rintro rfl
    exact (partner_partner b).symm

/-- Partners are of one length, and each character of the one turns into its counterpart in the
other, counted from the end. -/
theorem eq_partner_iff_getElem? {a b : String} : b = partner a ↔
    b.toList.length = a.toList.length ∧
      ∀ i c, a.toList[i]? = some c →
        b.toList[b.toList.length - 1 - i]? = some (turn c) := by
  rw [← String.toList_inj, toList_partner]
  generalize a.toList = xs
  generalize b.toList = ys
  constructor
  · rintro rfl
    refine ⟨by simp, fun i c hi ↦ ?_⟩
    obtain ⟨hlt, -⟩ := List.getElem?_eq_some_iff.mp hi
    have hplace : xs.length - 1 - (xs.length - 1 - i) = i := by omega
    rw [List.length_reverse, List.length_map,
      List.getElem?_reverse (by rw [List.length_map]; omega), List.length_map, hplace,
      List.getElem?_map, hi, Option.map_some]
  · rintro ⟨hlength, hturned⟩
    refine List.ext_getElem? fun i ↦ ?_
    by_cases hlt : i < xs.length
    · have hmirror : xs.length - 1 - i < xs.length := by omega
      have hplace : xs.length - 1 - (xs.length - 1 - i) = i := by omega
      have hread := hturned _ _ (List.getElem?_eq_getElem hmirror)
      rw [hlength, hplace] at hread
      rw [List.getElem?_reverse (by rwa [List.length_map]), List.length_map, List.getElem?_map,
        List.getElem?_eq_getElem hmirror, Option.map_some, hread]
    · rw [List.getElem?_eq_none (by omega),
        List.getElem?_eq_none (by rw [List.length_reverse, List.length_map]; omega)]

/-! ### Matching -/

theorem faces_iff {a b : String} : faces a b = true ↔ b = partner a := by
  rw [← String.toList_inj, toList_partner, ← List.reverse_inj, List.reverse_reverse]
  exact beq_iff_eq

theorem closesWith_iff {a b : Token} : a.closesWith b = true ↔
    a.isDelimiter = true ∧ b.isDelimiter = true ∧ a.closes ≠ b.closes ∧
      b.bracket = partner a.bracket := by
  rw [closesWith, Bool.and_eq_true, Bool.and_eq_true, Bool.and_eq_true, bne_iff_ne, faces_iff,
    and_assoc, and_assoc]

theorem closesWith_comm (a b : Token) : a.closesWith b = b.closesWith a := by
  refine Bool.eq_iff_iff.mpr ?_
  rw [closesWith_iff, closesWith_iff, and_left_comm, eq_partner_comm, ne_comm]

/-- An opening and a closing bracket match when the markers are partners. -/
theorem opening_closesWith_closing_iff {a b : String} (ha : a ≠ "") (hb : b ≠ "") (mode : String)
    (pos pos' : Option Position) :
    (Token.opening a mode pos).closesWith (.closing b pos') = true ↔ b = partner a := by
  rw [closesWith_iff]
  simp [isDelimiter, isLiteral, bracket, closes, ha, hb]

/-- Matching is symmetric. Two tokens match exactly when both are brackets, one opens and the
other closes, and the marker of the one is the marker of the other read backwards with every
character turned round; so every opening marker has exactly one closing marker, and every closing
marker exactly one opening marker. -/
theorem closesWith_partner (a b : Token) :
    a.closesWith b = b.closesWith a ∧
    (a.closesWith b = true ↔ a.isDelimiter = true ∧ b.isDelimiter = true ∧
      a.closes ≠ b.closes ∧ b.bracket = partner a.bracket) ∧
    (b.bracket = partner a.bracket ↔ b.bracket.toList.length = a.bracket.toList.length ∧
      ∀ i c, a.bracket.toList[i]? = some c →
        b.bracket.toList[b.bracket.toList.length - 1 - i]? = some (turn c)) ∧
    ∀ marker : String, marker ≠ "" → ∀ (mode : String) (pos pos' : Option Position),
      (∃! closer, (Token.opening marker mode pos).closesWith (.closing closer pos') = true) ∧
      ∃! opener, (Token.opening opener mode pos).closesWith (.closing marker pos') = true := by
  refine ⟨closesWith_comm a b, closesWith_iff, eq_partner_iff_getElem?,
    fun marker hmarker mode pos pos' ↦ ⟨⟨partner marker, ?_, ?_⟩, ⟨partner marker, ?_, ?_⟩⟩⟩
  · exact (opening_closesWith_closing_iff hmarker (partner_ne_empty hmarker) mode pos pos').mpr rfl
  · intro closer hmatch
    exact (closesWith_iff.mp hmatch).2.2.2
  · exact (opening_closesWith_closing_iff (partner_ne_empty hmarker) hmarker mode pos pos').mpr
      (partner_partner marker).symm
  · intro opener hmatch
    exact eq_partner_comm.mp (closesWith_iff.mp hmatch).2.2.2

/-- The marker of two characters and a letter is closed by its mirror image and nothing else. -/
theorem closesWith_partner_several :
    "([x" ≠ "" ∧ (∃! closer,
      (Token.opening "([x" "map" none).closesWith (.closing closer none) = true) ∧
    (Token.opening "([x" "map" none).closesWith (.closing "x])" none) = true ∧
    (Token.closing "x])" none).closesWith (.opening "([x" "map" none) = true := by
  obtain ⟨hsymm, hmatch, -, hunique⟩ :=
    closesWith_partner (.opening "([x" "map" none) (.closing "x])" none)
  have hmarker : "([x" ≠ "" := by decide
  have hcloses := hmatch.mpr (by decide)
  exact ⟨hmarker, (hunique "([x" hmarker "map" none none).1, hcloses, hsymm ▸ hcloses⟩

end TokenLang.Token

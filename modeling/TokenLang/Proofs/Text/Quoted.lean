import TokenLang.Numeral
import TokenLang.Value.Show
import TokenLang.Text.Quoted
import Mathlib.Tactic

/-!
Quoted texts say where they end. What one character is written as can be taken off the front of any
text again (`Quoted.unescape_escaped`), so a quoted text is told apart from all others by the text
it begins (`Quoted.isCode_quote`). Words of which none begins another, put together with a space
between each two, can be taken apart again (`eq_of_spaced_eq`).
-/

set_option autoImplicit false
set_option relaxedAutoImplicit false

namespace TokenLang

/-! ### Words that say where they end -/

/-- Words that are not empty and of which none begins another. -/
def IsCode (words : Set String) : Prop :=
  ∀ s ∈ words, s ≠ "" ∧ ∀ t ∈ words, ∀ a b : List Char,
    s.toList ++ a = t.toList ++ b → s = t ∧ a = b

theorem toList_spaced_cons (s : String) (texts : List String) :
    (spaced (s :: texts)).toList = s.toList ++ texts.flatMap fun t ↦ ' ' :: t.toList := by
  induction texts generalizing s with
  | nil => simp [spaced, String.intercalate_singleton]
  | cons t texts ih =>
    have hstep : spaced (s :: t :: texts) = s ++ " " ++ spaced (t :: texts) := by
      simp [spaced, String.intercalate_cons_cons]
    rw [hstep, String.toList_append, ih, String.toList_append, List.flatMap_cons]
    simp

/-- Words with a space in front of each can be taken apart. -/
theorem eq_of_flatMap_space_eq {words : Set String} (hwords : IsCode words) {a b : List String}
    (ha : ∀ s ∈ a, s ∈ words) (hb : ∀ s ∈ b, s ∈ words)
    (h : (a.flatMap fun s ↦ ' ' :: s.toList) = b.flatMap fun s ↦ ' ' :: s.toList) : a = b := by
  induction a generalizing b with
  | nil =>
    cases b with
    | nil => rfl
    | cons t b => cases h
  | cons s a ih =>
    obtain ⟨hs, hwordsa⟩ := List.forall_mem_cons.mp ha
    cases b with
    | nil => cases h
    | cons t b =>
      obtain ⟨ht, hwordsb⟩ := List.forall_mem_cons.mp hb
      rw [List.flatMap_cons, List.flatMap_cons] at h
      obtain ⟨rfl, hrest⟩ := (hwords s hs).2 t ht _ _ (List.cons.inj h).2
      rw [ih hwordsa hwordsb hrest]

/-- Words with a space between each two can be taken apart. -/
theorem eq_of_spaced_eq {words : Set String} (hwords : IsCode words) {a b : List String}
    (ha : ∀ s ∈ a, s ∈ words) (hb : ∀ s ∈ b, s ∈ words) (h : spaced a = spaced b) : a = b := by
  have hempty : ∀ (s : String) (texts : List String), s ∈ words → spaced (s :: texts) ≠ "" := by
    intro s texts hs heq
    have hlist := congrArg String.toList heq
    rw [toList_spaced_cons] at hlist
    exact (hwords s hs).1 (String.toList_eq_nil_iff.mp (List.append_eq_nil_iff.mp hlist).1)
  cases a with
  | nil =>
    cases b with
    | nil => rfl
    | cons t b => exact absurd h.symm (hempty t b (hb t (List.mem_cons_self ..)))
  | cons s a =>
    obtain ⟨hs, hwordsa⟩ := List.forall_mem_cons.mp ha
    cases b with
    | nil => exact absurd h (hempty s a hs)
    | cons t b =>
      obtain ⟨ht, hwordsb⟩ := List.forall_mem_cons.mp hb
      have hlist := congrArg String.toList h
      rw [toList_spaced_cons, toList_spaced_cons] at hlist
      obtain ⟨rfl, hrest⟩ := (hwords s hs).2 t ht _ _ hlist
      rw [eq_of_flatMap_space_eq hwords hwordsa hwordsb hrest]

namespace Text.Quoted

/-! ### Digits -/

theorem digitValue_digitChar {n : Nat} (h : n < 16) : Numeral.digitValue n.digitChar = n := by
  interval_cases n <;> rfl

theorem ofDigits_append_singleton (base : Nat) (digits : List Char) (c : Char) :
    Numeral.ofDigits base (digits ++ [c]) =
      Numeral.ofDigits base digits * base + Numeral.digitValue c := by
  simp [Numeral.ofDigits]

theorem ofDigits_toDigits (n : Nat) : Numeral.ofDigits 16 (Nat.toDigits 16 n) = n := by
  induction n using Nat.strong_induction_on with
  | _ n ih =>
    by_cases hn : n < 16
    · rw [Nat.toDigits_of_lt_base hn]
      simpa [Numeral.ofDigits] using digitValue_digitChar hn
    · have hlast : n % 16 < 16 := Nat.mod_lt _ (by decide)
      rw [Nat.toDigits_of_base_le (by decide) (Nat.le_of_not_lt hn),
        ofDigits_append_singleton, ih _ (by omega), digitValue_digitChar hlast]
      omega

theorem ofDigits_zeros (count : Nat) (digits : List Char) :
    Numeral.ofDigits 16 (List.replicate count '0' ++ digits) = Numeral.ofDigits 16 digits := by
  induction count with
  | zero => rfl
  | succ count ih => exact ih

theorem ofDigits_hex (width n : Nat) : Numeral.ofDigits 16 (hex width n).toList = n := by
  rw [hex, String.toList_ofList, ofDigits_zeros, ofDigits_toDigits]

theorem length_hex {width n : Nat} (hwidth : 0 < width) (h : n < 16 ^ width) :
    (hex width n).toList.length = width := by
  have hlength := (Nat.length_toDigits_le_iff (by decide) hwidth).mpr h
  rw [hex, String.toList_ofList, List.length_append, List.length_replicate]
  omega

/-! ### One character -/

/-- How many digits follow a letter after a backslash, if they give a character by its number. -/
def digitsAfter : Char → Option Nat
  | 'x' => some 2
  | 'u' => some 4
  | 'U' => some 8
  | _ => none

/-- The character that another one after a backslash stands for. -/
def short : Char → Char
  | 'n' => '\n'
  | 'r' => '\r'
  | 't' => '\t'
  | 'a' => '\x07'
  | 'b' => '\x08'
  | 'v' => '\x0b'
  | 'f' => '\x0c'
  | c => c

/-- The character that stands after a backslash, and what follows it. -/
def unescapeLetter : List Char → Option (Char × List Char)
  | [] => none
  | letter :: rest =>
    match digitsAfter letter with
    | some count => some (.ofNat (Numeral.ofDigits 16 (rest.take count)), rest.drop count)
    | none => some (short letter, rest)

/-- The character at the front of a text between double quotes, and what follows it. -/
def unescape : List Char → Option (Char × List Char)
  | [] => none
  | c :: rest =>
    if c = '\x22' then none
    else if c = '\\' then unescapeLetter rest
    else some (c, rest)

theorem unescape_digits (letter : Char) {count : Nat} (hletter : digitsAfter letter = some count)
    (hcount : 0 < count) {c : Char} (hc : c.toNat < 16 ^ count) (rest : List Char) :
    unescape ('\\' :: letter :: ((hex count c.toNat).toList ++ rest)) = some (c, rest) := by
  have hlength := length_hex hcount hc
  rw [unescape, if_neg (by decide), if_pos rfl, unescapeLetter, hletter]
  dsimp only
  rw [List.take_left' hlength, List.drop_left' hlength, ofDigits_hex, Char.ofNat_toNat]

/-- What a character is written as is read as that character, whatever follows. -/
theorem unescape_escaped (c : Char) (rest : List Char) :
    unescape ((escaped c).toList ++ rest) = some (c, rest) := by
  unfold escaped
  split
  case h_10 hquote hbackslash _ _ _ _ _ _ _ =>
    split_ifs with hprintable hascii hshort
    · rw [Char.toString, String.toList_singleton, List.singleton_append, unescape, if_neg hquote,
        if_neg hbackslash]
    · have hdigits := unescape_digits 'x' rfl (by decide)
        (show c.toNat < 16 ^ 2 by omega) rest
      simpa using hdigits
    · have hdigits := unescape_digits 'u' rfl (by decide)
        (show c.toNat < 16 ^ 4 by omega) rest
      simpa using hdigits
    · have hvalid : c.toNat < 2 ^ 32 := c.val.toNat_lt
      have hdigits := unescape_digits 'U' rfl (by decide)
        (show c.toNat < 16 ^ 8 by omega) rest
      simpa using hdigits
  all_goals rfl

/-! ### Quoted texts -/

theorem toList_quote (s : String) : (quote s).toList =
    '\x22' :: ((s.toList.flatMap fun c ↦ (escaped c).toList) ++ ['\x22']) := by
  simp [quote, List.flatMap_map]

/-- The text between two double quotes is over at the second. -/
theorem eq_of_escaped_append_eq {s t a b : List Char}
    (h : (s.flatMap fun c ↦ (escaped c).toList) ++ '\x22' :: a =
      (t.flatMap fun c ↦ (escaped c).toList) ++ '\x22' :: b) : s = t ∧ a = b := by
  induction s generalizing t with
  | nil =>
    cases t with
    | nil => exact ⟨rfl, (List.cons.inj h).2⟩
    | cons d t =>
      have hfront := congrArg unescape h
      rw [List.flatMap_cons, List.append_assoc, unescape_escaped] at hfront
      cases hfront
  | cons c s ih =>
    have hfront := congrArg unescape h
    rw [List.flatMap_cons, List.append_assoc, unescape_escaped] at hfront
    cases t with
    | nil => cases hfront
    | cons d t =>
      rw [List.flatMap_cons, List.append_assoc, unescape_escaped] at hfront
      obtain ⟨rfl, hrest⟩ := Prod.mk.inj (Option.some.inj hfront)
      obtain ⟨rfl, rfl⟩ := ih hrest
      exact ⟨rfl, rfl⟩

theorem eq_of_quote_append_eq {s t : String} {a b : List Char}
    (h : (quote s).toList ++ a = (quote t).toList ++ b) : s = t ∧ a = b := by
  rw [toList_quote, toList_quote, List.cons_append, List.cons_append, List.append_assoc,
    List.append_assoc] at h
  obtain ⟨hst, hab⟩ := eq_of_escaped_append_eq (List.cons.inj h).2
  exact ⟨String.toList_injective hst, hab⟩

theorem quote_injective : Function.Injective quote := by
  intro s t h
  refine (eq_of_quote_append_eq (a := []) (b := []) ?_).1
  rw [h]

theorem quote_ne_empty (s : String) : quote s ≠ "" := by
  intro h
  have hlist := congrArg String.toList h
  rw [toList_quote] at hlist
  cases hlist

theorem isCode_quote : IsCode (Set.range quote) := by
  rintro _ ⟨s, rfl⟩
  refine ⟨quote_ne_empty s, ?_⟩
  rintro _ ⟨t, rfl⟩ a b h
  obtain ⟨rfl, rfl⟩ := eq_of_quote_append_eq h
  exact ⟨rfl, rfl⟩

end Text.Quoted

end TokenLang

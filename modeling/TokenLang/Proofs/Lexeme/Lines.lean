import TokenLang.Lexeme.Scan
import Mathlib.Data.List.Basic

/-!
Texts on successive lines. A scan that could end where a line ends starts afresh on the next line:
the units of `a`, a line break and `b` are those of `a` without its end and those of `b`, further
down by the lines of `a`, and a fault in `b` is the same fault further down. This holds of bytes as
well as of characters, since a line feed is never part of a longer UTF-8 sequence.
-/

set_option autoImplicit false
set_option relaxedAutoImplicit false

namespace TokenLang

/-! ### Further down -/

/-- The same column, `n` lines further down. -/
def Position.down (n : Nat) (p : Position) : Position := ⟨p.line + n, p.column⟩

theorem Position.advance_down (n : Nat) (p : Position) (c : Char) :
    (p.down n).advance c = (p.advance c).down n := by
  unfold Position.advance Position.down
  split_ifs
  · rw [Nat.add_right_comm]
  · rfl

theorem Position.down_down (m n : Nat) (p : Position) : (p.down m).down n = p.down (m + n) := by
  simp [Position.down, Nat.add_assoc]

namespace Lexeme

def down (n : Nat) (x : Lexeme) : Lexeme := { x with position := x.position.down n }

def Error.down (n : Nat) (e : Error) : Error := ⟨e.fault, e.position.down n⟩

namespace Scan

def State.down (n : Nat) : State → State
  | .default => .default
  | .word start seen => .word (start.down n) seen
  | .lineComment => .lineComment
  | .tildes start count => .tildes (start.down n) count
  | .blockComment start count matched => .blockComment (start.down n) count matched
  | .hash start => .hash (start.down n)
  | .mode start seen => .mode (start.down n) seen
  | .string start tag mark seen => .string (start.down n) tag mark seen
  | .stringEscape start tag mark seen => .stringEscape (start.down n) tag mark seen
  | .char start => .char (start.down n)
  | .charEscape start => .charEscape (start.down n)
  | .charEnd start c => .charEnd (start.down n) c
  | .failed e => .failed (e.down n)

/-- What a step gives, further down. -/
def stepDown (n : Nat) (r : State × List Lexeme) : State × List Lexeme :=
  (r.1.down n, r.2.map (Lexeme.down n))

theorem leave_down (n : Nat) (p : Position) (c : Char) :
    leave (p.down n) c = stepDown n (leave p c) := by
  unfold leave
  simp only [apply_ite (stepDown n)]
  rfl

theorem extendMode_down (n : Nat) (start : Position) (seen : List Char) (c : Char) :
    extendMode (start.down n) seen c = stepDown n (extendMode start seen c) := by
  unfold extendMode
  split_ifs <;> rfl

theorem extendComment_down (n : Nat) (start : Position) (count matched : Nat) (c : Char) :
    extendComment (start.down n) count matched c =
      (extendComment start count matched c).down n := by
  unfold extendComment
  split_ifs <;> rfl

/-- The scanner does not look at places; it only hands them on. -/
theorem next_down (n : Nat) (p : Position) (c : Char) (state : State) :
    next (p.down n) c (state.down n) = stepDown n (next p c state) := by
  cases state with
  | default => exact leave_down n p c
  | word start seen =>
    rw [State.down, next, next, leave_down]
    split_ifs <;> rfl
  | lineComment =>
    rw [State.down, next, next, leave_down]
    split_ifs <;> rfl
  | tildes start count =>
    rw [State.down, next, next]
    split_ifs <;> rfl
  | blockComment start count matched =>
    rw [State.down, next, next, extendComment_down]
    rfl
  | hash start =>
    rw [State.down, next, next, extendMode_down]
    split_ifs <;> rfl
  | mode start seen => exact extendMode_down n start seen c
  | string start tag mark seen =>
    rw [State.down, next, next]
    split_ifs <;> rfl
  | stringEscape start tag mark seen =>
    rw [State.down, next, next]
    cases escape? c <;> rfl
  | char start =>
    rw [State.down, next, next]
    split_ifs <;> rfl
  | charEscape start => rfl
  | charEnd start r =>
    rw [State.down, next, next]
    split_ifs <;> rfl
  | failed e => rfl

theorem finish_down (n : Nat) (p : Position) (state : State) :
    finish (p.down n) (state.down n) =
      ((finish p state).map (List.map (Lexeme.down n))).mapError (Error.down n) := by
  cases state <;> rfl

/-- A scan as it would be `n` lines further down, after the units `before`, last first. -/
def Progress.below (n : Nat) (before : List Lexeme) (s : Progress) : Progress :=
  ⟨s.position.down n, s.state.down n, s.emitted.map (Lexeme.down n) ++ before⟩

theorem Progress.feed_below (n : Nat) (before : List Lexeme) (s : Progress) (c : Char) :
    (s.below n before).feed c = (s.feed c).below n before := by
  simp [Progress.feed, Progress.below, next_down, stepDown, Position.advance_down]

theorem Progress.foldl_feed_below (n : Nat) (before : List Lexeme) (source : List Char)
    (s : Progress) :
    source.foldl Progress.feed (s.below n before) =
      (source.foldl Progress.feed s).below n before := by
  induction source generalizing s with
  | nil => rfl
  | cons c source ih => rw [List.foldl_cons, List.foldl_cons, Progress.feed_below, ih]

/-- An outcome `n` lines further down, after the units `before`. -/
def Outcome.below (n : Nat) (before : List Lexeme) (o : Outcome) : Outcome :=
  ⟨before ++ o.units.map (Lexeme.down n), o.error.map (Error.down n)⟩

theorem Progress.outcome_below (n : Nat) (before : List Lexeme) (s : Progress) :
    (s.below n before).outcome = s.outcome.below n before.reverse := by
  unfold Progress.outcome Progress.below
  rw [finish_down]
  cases finish s.position s.state <;>
    simp [Except.map, Except.mapError, Outcome.below]

/-! ### Line breaks -/

theorem line_foldl_feed (source : List Char) (s : Progress) :
    (source.foldl Progress.feed s).position.line = s.position.line + source.count '\n' := by
  induction source generalizing s with
  | nil => rfl
  | cons c source ih =>
    rw [List.foldl_cons, ih]
    by_cases hc : c = '\n'
    · subst hc
      rw [List.count_cons_self]
      simp only [Progress.feed, Position.advance, if_true]
      omega
    · rw [List.count_cons_of_ne hc]
      simp [Progress.feed, Position.advance, hc]

/-- Where a scan could end, a line break gives the units of that end, without the end itself, and
leaves the scanner between two units. -/
theorem feed_newline {s : Progress} {ends : List Lexeme}
    (h : finish s.position s.state = .ok ends) :
    s.feed '\n' =
      ⟨⟨s.position.line + 1, 1⟩, .default, ends.dropLast.reverse ++ s.emitted⟩ := by
  obtain ⟨position, state, emitted⟩ := s
  cases state <;> cases h <;> rfl

theorem exists_finish_of_error_eq_none {s : Progress} (h : s.outcome.error = none) :
    ∃ ends, finish s.position s.state = .ok ends ∧ ends ≠ [] ∧
      s.outcome.units = s.emitted.reverse ++ ends := by
  obtain ⟨position, state, emitted⟩ := s
  cases state <;> cases h <;> exact ⟨_, rfl, List.cons_ne_nil _ _, rfl⟩

/-- A text that could end is scanned apart from the lines after it. -/
theorem scan_newline {a : List Char} (h : (scan a).error = none) (b : List Char) :
    scan (a ++ '\n' :: b) = (scan b).below (a.count '\n' + 1) (scan a).units.dropLast := by
  obtain ⟨ends, hfinish, hends, hunits⟩ := exists_finish_of_error_eq_none h
  have hbreak : (a.foldl Progress.feed .start).feed '\n' = Progress.start.below
      (a.count '\n' + 1)
      (ends.dropLast.reverse ++ (a.foldl Progress.feed .start).emitted) := by
    rw [feed_newline hfinish, line_foldl_feed]
    simp [Progress.below, Progress.start, Position.down, Position.start, State.down]
    omega
  have hdrop : (scan a).units.dropLast =
      (ends.dropLast.reverse ++ (a.foldl Progress.feed .start).emitted).reverse := by
    rw [scan, hunits, List.dropLast_append_of_ne_nil hends]
    simp
  rw [hdrop, scan, List.foldl_append, List.foldl_cons, hbreak, Progress.foldl_feed_below,
    Progress.outcome_below]
  rfl

theorem foldl_feed_failed (source : List Char) (p : Position) (e : Error)
    (emitted : List Lexeme) :
    (source.foldl Progress.feed ⟨p, .failed e, emitted⟩).state = .failed e := by
  induction source generalizing p emitted with
  | nil => rfl
  | cons c source ih => exact ih _ _

/-- Modes and tildes do not reach over the end of a line. -/
theorem state_feed_newline {s : Progress} {e : Error} (h : finish s.position s.state = .error e)
    (hfault : e.fault = .danglingMode ∨ e.fault = .unexpectedChar) :
    (s.feed '\n').state = .failed e := by
  obtain ⟨position, state, emitted⟩ := s
  cases state <;> cases h <;> first | rfl | simp at hfault

end Scan

/-- What reading a text further down gives, after the units `before`. -/
def answerBelow (n : Nat) (before : List Lexeme) :
    Except Error (List Lexeme) → Except Error (List Lexeme)
  | .ok later => .ok (before ++ later.map (down n))
  | .error e => .error (e.down n)

theorem scan_of_read {source : List Char} {units : List Lexeme} (h : read source = .ok units) :
    Scan.scan source = ⟨units, none⟩ := by
  unfold read at h
  split at h
  · rename_i heq
    rw [heq, Except.ok.inj h]
  · cases h

theorem read_newline {a : List Char} {units : List Lexeme} (h : read a = .ok units)
    (b : List Char) :
    read (a ++ '\n' :: b) = answerBelow (a.count '\n' + 1) units.dropLast (read b) := by
  have hscan := scan_of_read h
  have hbelow := Scan.scan_newline (a := a) (by rw [hscan]) b
  rw [hscan] at hbelow
  unfold read
  rw [hbelow]
  obtain ⟨later, _ | e⟩ := Scan.scan b <;> rfl

/-- A mode or a run of tildes that is not complete at the end of a line never gets complete. -/
theorem read_newline_of_error {a : List Char} {e : Error} (h : read a = .error e)
    (hfault : e.fault = .danglingMode ∨ e.fault = .unexpectedChar) (b : List Char) :
    read (a ++ '\n' :: b) = .error e := by
  have hfinish : Scan.finish (a.foldl Scan.Progress.feed .start).position
      (a.foldl Scan.Progress.feed .start).state = .error e := by
    unfold read Scan.scan Scan.Progress.outcome at h
    cases hend : Scan.finish (a.foldl Scan.Progress.feed .start).position
        (a.foldl Scan.Progress.feed .start).state with
    | ok ends =>
      rw [hend] at h
      cases h
    | error e' =>
      rw [hend] at h
      cases h
      rfl
  have hfailed : ((a ++ '\n' :: b).foldl Scan.Progress.feed .start).state = .failed e := by
    rw [List.foldl_append, List.foldl_cons]
    generalize hs : (a.foldl Scan.Progress.feed .start).feed '\n' = s
    have hstate := Scan.state_feed_newline hfinish hfault
    rw [hs] at hstate
    obtain ⟨position, state, emitted⟩ := s
    obtain rfl : state = .failed e := hstate
    exact Scan.foldl_feed_failed b position e emitted
  unfold read Scan.scan Scan.Progress.outcome
  rw [hfailed]
  rfl

end Lexeme

/-! ### Line feeds among bytes -/

namespace Text.Source

open sequence?

theorem ofNat_ne_newline {n : Nat} (h : n ≠ 10) : Char.ofNat n ≠ '\n' := by
  intro heq
  by_cases hvalid : n.isValidChar
  · have hnat : (Char.ofNat n).toNat = n := by
      rw [Char.ofNat, dif_pos hvalid]
      rfl
    exact h (by rw [← hnat, heq]; rfl)
  · rw [Char.ofNat, dif_neg hvalid] at heq
    exact absurd heq (by decide)

theorem isContinuation_iff {b : UInt8} :
    isContinuation b = true ↔ 128 ≤ b.toNat ∧ b.toNat ≤ 191 := by
  simp [isContinuation, UInt8.le_iff_toNat_le]

theorem isContinuation_newline : isContinuation 10 = false := rfl

theorem short?_spec {lead b : UInt8} {r : Char} (h : short? lead b = some r) :
    isContinuation b = true ∧ r ≠ '\n' := by
  unfold short? at h
  split_ifs at h with hcond
  cases h
  simp only [UInt8.le_iff_toNat_le, UInt8.reduceToNat, Bool.and_eq_true, decide_eq_true_eq,
    isContinuation_iff] at hcond
  refine ⟨isContinuation_iff.mpr hcond.2, ofNat_ne_newline ?_⟩
  unfold payload
  omega

theorem middle?_spec {lead b c : UInt8} {r : Char} (h : middle? lead b c = some r) :
    isContinuation b = true ∧ isContinuation c = true ∧ r ≠ '\n' := by
  unfold middle? at h
  split_ifs at h with hcond
  cases h
  simp only [UInt8.le_iff_toNat_le, UInt8.reduceToNat, Bool.not_and, Bool.and_eq_true,
    decide_eq_true_eq, isContinuation_iff, Bool.or_eq_true, Bool.not_eq_eq_eq_not, Bool.not_true,
    beq_eq_false_iff_ne, ne_eq, ← UInt8.toNat_inj, decide_eq_false_iff_not, UInt8.not_lt] at hcond
  refine ⟨isContinuation_iff.mpr (by omega), isContinuation_iff.mpr (by omega),
    ofNat_ne_newline ?_⟩
  unfold payload
  omega

theorem long?_spec {lead b c d : UInt8} {r : Char} (h : long? lead b c d = some r) :
    isContinuation b = true ∧ isContinuation c = true ∧ isContinuation d = true ∧ r ≠ '\n' := by
  unfold long? at h
  split_ifs at h with hcond
  cases h
  simp only [UInt8.le_iff_toNat_le, UInt8.reduceToNat, Bool.not_and, Bool.and_eq_true,
    decide_eq_true_eq, isContinuation_iff, Bool.or_eq_true, Bool.not_eq_eq_eq_not, Bool.not_true,
    beq_eq_false_iff_ne, ne_eq, ← UInt8.toNat_inj, decide_eq_false_iff_not, UInt8.not_lt] at hcond
  refine ⟨isContinuation_iff.mpr (by omega), isContinuation_iff.mpr (by omega),
    isContinuation_iff.mpr (by omega), ofNat_ne_newline ?_⟩
  unfold payload
  omega

/-- A sequence lies within the bytes given, has only continuation bytes after its lead and is no
line feed. -/
theorem sequence?_spec {lead : UInt8} {bytes : List UInt8} {r : Char} {more : Nat}
    (h : sequence? lead bytes = some (r, more)) :
    more ≤ bytes.length ∧ r ≠ '\n' ∧ ∀ b ∈ bytes.take more, isContinuation b = true := by
  match bytes with
  | b :: c :: d :: rest =>
    simp only [sequence?] at h
    split at h
    · rename_i hshort
      cases h
      simpa using (short?_spec hshort).symm
    split at h
    · rename_i hmiddle
      cases h
      obtain ⟨hb, hc, hr⟩ := middle?_spec hmiddle
      simp [hb, hc, hr]
    obtain ⟨r', hlong, heq⟩ := Option.map_eq_some_iff.mp h
    cases heq
    obtain ⟨hb, hc, hd, hr⟩ := long?_spec hlong
    simp [hb, hc, hd, hr]
  | [b, c] =>
    simp only [sequence?] at h
    split at h
    · rename_i hshort
      cases h
      simpa using (short?_spec hshort).symm
    obtain ⟨r', hmiddle, heq⟩ := Option.map_eq_some_iff.mp h
    cases heq
    obtain ⟨hb, hc, hr⟩ := middle?_spec hmiddle
    simp [hb, hc, hr]
  | [b] =>
    obtain ⟨r', hshort, heq⟩ := Option.map_eq_some_iff.mp h
    cases heq
    simpa using (short?_spec hshort).symm
  | [] => cases h

@[simp]
theorem short?_newline (lead : UInt8) : short? lead 10 = none := by
  simp [short?, isContinuation_newline]

@[simp]
theorem middle?_newline (lead b : UInt8) : middle? lead b 10 = none ∧ middle? lead 10 b = none := by
  simp [middle?, isContinuation_newline]

@[simp]
theorem long?_newline (lead b c : UInt8) : long? lead b c 10 = none ∧
    long? lead b 10 c = none ∧ long? lead 10 b c = none := by
  simp [long?, isContinuation_newline]

/-- A line feed after some bytes does not continue the sequence that they begin. -/
theorem sequence?_newline (lead : UInt8) (bytes later : List UInt8) :
    sequence? lead (bytes ++ 10 :: later) = sequence? lead bytes := by
  match bytes with
  | b :: c :: d :: rest => rfl
  | [b, c] =>
    simp only [List.cons_append, List.nil_append, sequence?, long?_newline]
    cases short? lead b <;> cases middle? lead b c <;> rfl
  | [b] =>
    cases later <;> simp only [List.cons_append, List.nil_append, sequence?, middle?_newline,
      long?_newline] <;> cases short? lead b <;> rfl
  | [] =>
    match later with
    | [] => simp [sequence?]
    | [d] => simp [sequence?]
    | d :: e :: rest => simp [sequence?]

/-- Decoding starts afresh after a line feed. -/
theorem decodeFrom_newline (skip : Nat) (bytes later : List UInt8) (h : skip ≤ bytes.length) :
    decodeFrom skip (bytes ++ 10 :: later) =
      decodeFrom skip bytes ++ '\n' :: decode later := by
  fun_induction decodeFrom skip bytes with
  | case1 skip =>
    obtain rfl : skip = 0 := Nat.le_zero.mp h
    rfl
  | case2 skip b bytes ih => exact ih (Nat.le_of_succ_le_succ h)
  | case3 lead bytes hlead ih =>
    rw [List.cons_append, decodeFrom, if_pos hlead, ih (Nat.zero_le _)]
    rfl
  | case4 lead bytes hlead c more hsequence ih =>
    rw [List.cons_append, decodeFrom, if_neg hlead, sequence?_newline, hsequence]
    simp only [ih (sequence?_spec hsequence).1, List.cons_append]
  | case5 lead bytes hlead hsequence ih =>
    rw [List.cons_append, decodeFrom, if_neg hlead, sequence?_newline, hsequence]
    simp only [ih (Nat.zero_le _), List.cons_append]

theorem ofNat_eq_newline_iff {lead : UInt8} (h : lead < 0x80) :
    Char.ofNat lead.toNat = '\n' ↔ lead = 10 := by
  constructor
  · intro heq
    by_contra hne
    exact ofNat_ne_newline (fun hnat ↦ hne (UInt8.toNat_inj.mp hnat)) heq
  · rintro rfl
    rfl

theorem ne_newline_of_not_lt {lead : UInt8} (h : ¬lead < 0x80) : lead ≠ 10 := by
  rintro rfl
  exact h (by decide)

/-- The line breaks of a text are the line feeds of its bytes. -/
theorem count_newline_decodeFrom (skip : Nat) (bytes : List UInt8) :
    (decodeFrom skip bytes).count '\n' = (bytes.drop skip).count 10 := by
  fun_induction decodeFrom skip bytes with
  | case1 skip => simp
  | case2 skip b bytes ih => simpa using ih
  | case3 lead bytes hlead ih =>
    rw [List.count_cons, ih, List.drop_zero, List.drop_zero, List.count_cons]
    simp [ofNat_eq_newline_iff hlead]
  | case4 lead bytes hlead c more hsequence ih =>
    obtain ⟨-, hc, hmore⟩ := sequence?_spec hsequence
    have htaken : (bytes.take more).count 10 = 0 :=
      List.count_eq_zero.mpr fun hmem ↦ absurd (hmore 10 hmem) (by decide)
    rw [List.count_cons_of_ne hc, ih, List.drop_zero,
      List.count_cons_of_ne (ne_newline_of_not_lt hlead)]
    conv_rhs => rw [← List.take_append_drop more bytes, List.count_append, htaken, Nat.zero_add]
  | case5 lead bytes hlead hsequence ih =>
    rw [List.count_cons_of_ne (by decide), ih, List.drop_zero, List.drop_zero,
      List.count_cons_of_ne (ne_newline_of_not_lt hlead)]

/-! ### Byte order marks -/

theorem dropMark_newline (a b : List Char) :
    dropMark (a ++ '\n' :: b) = dropMark a ++ '\n' :: b := by
  cases a with
  | nil => rfl
  | cons c a =>
    simp only [List.cons_append, dropMark]
    split_ifs <;> rfl

theorem dropMark_of_head?_ne {source : List Char} (h : source.head? ≠ some byteOrderMark) :
    dropMark source = source := by
  cases source with
  | nil => rfl
  | cons c source => exact if_neg fun hc ↦ h (by rw [hc]; rfl)

theorem count_newline_dropMark (source : List Char) :
    (dropMark source).count '\n' = source.count '\n' := by
  cases source with
  | nil => rfl
  | cons c source =>
    rw [dropMark]
    split_ifs with hc
    · rw [hc, List.count_cons_of_ne (by decide)]
    · rfl

theorem ofBytes_newline (a : List UInt8) {b : List UInt8}
    (hb : (decode b).head? ≠ some byteOrderMark) :
    ofBytes (a ++ 10 :: b) = ofBytes a ++ '\n' :: ofBytes b := by
  rw [ofBytes, decode, decodeFrom_newline 0 a b (Nat.zero_le _), dropMark_newline, ofBytes, ofBytes,
    dropMark_of_head?_ne hb]
  rfl

theorem count_newline_ofBytes (bytes : List UInt8) :
    (ofBytes bytes).count '\n' = bytes.count 10 := by
  rw [ofBytes, count_newline_dropMark, decode, count_newline_decodeFrom, List.drop_zero]

end Text.Source

namespace Lexeme

/-- The last unit of a text is its end. -/
theorem exists_finish_last {source : List Char} {units : List Lexeme}
    (h : read source = .ok units) : ∃ last, units = units.dropLast ++ [last] ∧
      last.kind = .finish := by
  have hscan := scan_of_read h
  obtain ⟨ends, hfinish, hends, hunits⟩ := Scan.exists_finish_of_error_eq_none
    (s := source.foldl Scan.Progress.feed .start) (congrArg Scan.Outcome.error hscan)
  have hlast : ∃ last, ends = ends.dropLast ++ [last] ∧ last.kind = .finish := by
    generalize (source.foldl Scan.Progress.feed .start).state = state at hfinish
    cases state <;> cases hfinish <;> exact ⟨_, rfl, rfl⟩
  obtain ⟨last, heq, hkind⟩ := hlast
  refine ⟨last, ?_, hkind⟩
  have hall : units = (source.foldl Scan.Progress.feed .start).emitted.reverse ++ ends := by
    rw [← hunits]
    exact (congrArg Scan.Outcome.units hscan).symm
  rw [hall, List.dropLast_append_of_ne_nil hends, List.append_assoc, ← heq]

/-- Bytes that are read without a fault are read apart from the lines after them: the units are
those of the two parts, without the end of the first, and the second part, or the fault in it, is
further down by the lines of the first and the line break between them. -/
theorem read_ofBytes_newline {a b : List UInt8} {units : List Lexeme}
    (ha : read (Text.Source.ofBytes a) = .ok units)
    (hb : (Text.Source.decode b).head? ≠ some Text.Source.byteOrderMark) :
    ∃ before last, units = before ++ [last] ∧ last.kind = .finish ∧
      read (Text.Source.ofBytes (a ++ 10 :: b)) =
        match read (Text.Source.ofBytes b) with
        | .ok later => .ok (before ++ later.map (down (a.count 10 + 1)))
        | .error e => .error (e.down (a.count 10 + 1)) := by
  obtain ⟨last, hunits, hlast⟩ := exists_finish_last ha
  refine ⟨units.dropLast, last, hunits, hlast, ?_⟩
  rw [Text.Source.ofBytes_newline a hb, read_newline ha, Text.Source.count_newline_ofBytes]
  rfl

/-- The first line ends in half a character, the second begins with the other half and has a
fault. -/
theorem read_ofBytes_newline_halves :
    read (Text.Source.ofBytes ([0x61, 0xc3] ++ 10 :: [0xa9, 0x22])) =
      .error ⟨.unterminatedString, ⟨2, 2⟩⟩ := by
  have hread : read (Text.Source.ofBytes [0x61, 0xc3]) =
      .ok [⟨.word, "a\ufffd", "", "", ⟨1, 1⟩⟩, ⟨.finish, "", "", "", ⟨1, 3⟩⟩] := by decide +kernel
  have hfault : read (Text.Source.ofBytes [0xa9, 0x22]) =
      .error ⟨.unterminatedString, ⟨1, 2⟩⟩ := by decide +kernel
  obtain ⟨_, _, -, -, heq⟩ := read_ofBytes_newline (b := [0xa9, 0x22]) hread (by decide +kernel)
  rw [heq, hfault]
  rfl

end Lexeme

end TokenLang

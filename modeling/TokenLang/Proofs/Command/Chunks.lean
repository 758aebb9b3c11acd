import TokenLang.Command
import TokenLang.Proofs.Lexeme.Lines
import TokenLang.Proofs.RoundTrip.Lexing

/-!
Lines given one at a time. The interactive loop cuts its input into chunks, each the shortest run
of lines in which nothing waits for more, and evaluates the chunks that are not blank one after the
other (`feedAll_eq`). Read apart, the chunks give the tokens of the whole text, each at its place
in it, where no chunk ends inside a character literal, closes more brackets than it opens, or is
blank without being empty for the scanner, and where no chunk after the first, nor what is held back
after the last, begins with a byte order mark. Where one of these fails, the tokens differ.
-/

set_option autoImplicit false
set_option relaxedAutoImplicit false

namespace TokenLang.Command

/-- Lines put together, with line breaks between them. -/
def joined (lines : List String) : String := "\n".intercalate lines

/-- A line feed stands between two runs of lines. -/
theorem toList_joined_append {a b : List String} (ha : a ≠ []) (hb : b ≠ []) :
    (joined (a ++ b)).toList = (joined a).toList ++ '\n' :: (joined b).toList := by
  induction a with
  | nil => exact absurd rfl ha
  | cons line a ih =>
    cases a with
    | nil =>
      cases b with
      | nil => exact absurd rfl hb
      | cons other b => simp [joined, String.intercalate_cons_cons]
    | cons second a =>
      have hrest := ih (List.cons_ne_nil second a)
      simp only [joined, List.cons_append, String.intercalate_cons_cons] at hrest ⊢
      simp [hrest]

theorem joined_concat {held : List String} (h : held ≠ []) (line : String) :
    joined (held ++ [line]) = joined held ++ "\n" ++ line := by
  apply String.toList_injective
  rw [toList_joined_append h (List.cons_ne_nil line [])]
  simp [joined]

/-- Lines have one line break less than there are lines. -/
theorem count_newline_joined {lines : List String} (hne : lines ≠ [])
    (h : ∀ line ∈ lines, '\n' ∉ line.toList) :
    (joined lines).toList.count '\n' + 1 = lines.length := by
  induction lines with
  | nil => exact absurd rfl hne
  | cons line lines ih =>
    have hline : line.toList.count '\n' = 0 :=
      List.count_eq_zero.mpr (h line (List.mem_cons_self ..))
    cases lines with
    | nil => simp [joined, hline]
    | cons second lines =>
      have hrest := ih (List.cons_ne_nil second lines)
        fun other hother ↦ h other (List.mem_cons_of_mem line hother)
      rw [← List.singleton_append, toList_joined_append (List.cons_ne_nil line [])
        (List.cons_ne_nil second lines), List.count_append, List.count_cons_self]
      simp only [joined, String.intercalate_singleton, hline] at hrest ⊢
      simp only [List.length_append, List.length_singleton]
      omega

namespace Repl

/-! ### Cutting -/

/-- Cuts lines into chunks, after the lines `held` of the first of them: a chunk ends with the
first line after which nothing in it waits for more. Lines that still wait are left over. -/
def cutFrom (held : List String) : List String → List (List String) × List String
  | [] => ([], held)
  | line :: rest =>
    if Reader.isComplete (Text.Source.ofString (joined (held ++ [line]))) then
      let (chunks, left) := cutFrom [] rest
      ((held ++ [line]) :: chunks, left)
    else cutFrom (held ++ [line]) rest

def cut (lines : List String) : List (List String) × List String := cutFrom [] lines

theorem flatten_cutFrom (held lines : List String) :
    (cutFrom held lines).1.flatten ++ (cutFrom held lines).2 = held ++ lines := by
  induction lines generalizing held with
  | nil => simp [cutFrom]
  | cons line rest ih =>
    rw [cutFrom]
    split_ifs
    · simp [ih []]
    · rw [ih (held ++ [line])]
      simp

/-- A chunk has a line, nothing in it waits for more, and something does after each of its lines
but the last. -/
structure IsChunk (chunk : List String) : Prop where
  nonempty : chunk ≠ []
  complete : Reader.isComplete (Text.Source.ofString (joined chunk)) = true
  shortest : ∀ before after, chunk = before ++ after → before ≠ [] → after ≠ [] →
    Reader.isComplete (Text.Source.ofString (joined before)) = false

/-- Something waits for more after each of the lines. -/
def Waits (held : List String) : Prop :=
  ∀ before after, held = before ++ after → before ≠ [] →
    Reader.isComplete (Text.Source.ofString (joined before)) = false

theorem waits_nil : Waits [] := fun _ _ heq hbefore ↦
  absurd (List.append_eq_nil_iff.mp heq.symm).1 hbefore

theorem Waits.concat {held : List String} {line : String} (h : Waits held)
    (hline : ¬Reader.isComplete (Text.Source.ofString (joined (held ++ [line]))) = true) :
    Waits (held ++ [line]) := by
  intro before after heq hbefore
  rcases List.eq_nil_or_concat after with rfl | ⟨front, last, rfl⟩
  · rw [List.append_nil] at heq
    rw [← heq]
    exact Bool.eq_false_iff.mpr hline
  · rw [List.concat_eq_append, ← List.append_assoc] at heq
    exact h before front (List.append_inj_left' heq rfl) hbefore

theorem Waits.isChunk {held : List String} {line : String} (h : Waits held)
    (hline : Reader.isComplete (Text.Source.ofString (joined (held ++ [line]))) = true) :
    IsChunk (held ++ [line]) := by
  refine ⟨by simp, hline, fun before after heq hbefore hafter ↦ ?_⟩
  rcases List.eq_nil_or_concat after with rfl | ⟨front, last, rfl⟩
  · exact absurd rfl hafter
  · rw [List.concat_eq_append, ← List.append_assoc] at heq
    exact h before front (List.append_inj_left' heq rfl) hbefore

/-- Lines are cut into chunks, and those that are left over wait for more. -/
theorem isChunk_cutFrom {held : List String} (lines : List String) (h : Waits held) :
    (∀ chunk ∈ (cutFrom held lines).1, IsChunk chunk) ∧ Waits (cutFrom held lines).2 := by
  induction lines generalizing held with
  | nil => exact ⟨fun chunk hchunk ↦ absurd hchunk List.not_mem_nil, h⟩
  | cons line rest ih =>
    rw [cutFrom]
    split_ifs with hline
    · obtain ⟨hchunks, hleft⟩ := ih waits_nil
      refine ⟨fun chunk hchunk ↦ ?_, hleft⟩
      rcases List.mem_cons.mp hchunk with rfl | hchunk
      · exact h.isChunk hline
      · exact hchunks chunk hchunk
    · exact ih (h.concat hline)

/-! ### The loop evaluates the chunks -/

/-- Evaluates a text and shows how it ended. -/
def answer (w : World) (text : String) : String × World :=
  match runText w text with
  | (written, .failed f, w) => (written ++ f.message ++ "\n", w)
  | (written, _, w) => (written, w)

/-- Evaluates texts one after the other, each in the world that the one before left. -/
def answerAll (w : World) : List String → String × World
  | [] => ("", w)
  | text :: rest =>
    let (written, next) := answer w text
    let (later, last) := answerAll next rest
    (written ++ later, last)

/-- Takes lines one after the other: what is written, the prompts apart, and the loop after it. -/
def feedAll (r : Repl) : List String → String × Repl
  | [] => ("", r)
  | line :: rest =>
    let (written, next) := r.feed line
    let (later, last) := next.feedAll rest
    (written ++ later, last)

/-- The loop when the lines `held` wait for more. -/
def waiting (w : World) (held : List String) : Repl :=
  ⟨w, if held.isEmpty then none else some (joined held)⟩

/-- The texts of the chunks that are not blank. -/
def evaluated (chunks : List (List String)) : List String :=
  (chunks.map joined).filter fun text ↦ !Text.Blank.isBlankText text

/-- Takes all lines of a chunk so far as one text. -/
def take (w : World) (text : String) : String × Repl :=
  if !Reader.isComplete (Text.Source.ofString text) then ("", ⟨w, some text⟩)
  else if Text.Blank.isBlankText text then ("", ⟨w, none⟩)
  else ((answer w text).1, ⟨(answer w text).2, none⟩)

theorem feed_none (w : World) (line : String) : feed ⟨w, none⟩ line = take w line := by
  simp only [take, feed, answer]
  obtain ⟨written, _ | _ | _, w'⟩ := runText w line <;> rfl

theorem feed_some (w : World) (before line : String) :
    feed ⟨w, some before⟩ line = take w (before ++ "\n" ++ line) := by
  rw [← feed_none]
  rfl

theorem feed_waiting (w : World) (held : List String) (line : String) :
    (waiting w held).feed line = take w (joined (held ++ [line])) := by
  cases held with
  | nil =>
    rw [List.nil_append, joined, String.intercalate_singleton]
    exact feed_none w line
  | cons first held =>
    rw [joined_concat (List.cons_ne_nil first held)]
    exact feed_some w (joined (first :: held)) line

/-- Lines given one at a time have the effect of the chunks that are not blank. -/
theorem feedAll_waiting (w : World) (held lines : List String) :
    (waiting w held).feedAll lines =
      ((answerAll w (evaluated (cutFrom held lines).1)).1,
        waiting (answerAll w (evaluated (cutFrom held lines).1)).2 (cutFrom held lines).2) := by
  induction lines generalizing w held with
  | nil => rfl
  | cons line rest ih =>
    rw [feedAll, feed_waiting, take, cutFrom]
    by_cases hline : Reader.isComplete (Text.Source.ofString (joined (held ++ [line]))) = true
    · have hnext : ∀ w, feedAll ⟨w, none⟩ rest = _ := fun w ↦ ih w []
      by_cases hblank : Text.Blank.isBlankText (joined (held ++ [line])) = true
      · simp [hline, hblank, hnext, evaluated]
      · simp [hline, hblank, hnext, evaluated, answerAll]
    · have hwaiting :
          (⟨w, some (joined (held ++ [line]))⟩ : Repl) = waiting w (held ++ [line]) := by
        simp [waiting]
      simp [hline, hwaiting, ih]

theorem feedAll_eq (w : World) (lines : List String) :
    feedAll ⟨w, none⟩ lines =
      ((answerAll w (evaluated (cut lines).1)).1,
        waiting (answerAll w (evaluated (cut lines).1)).2 (cut lines).2) :=
  feedAll_waiting w [] lines

/-! ### Units of successive runs of lines -/

/-- The units of runs of lines that are read apart, without their ends, each further down by the
lines before it. -/
def unitsFrom (n : Nat) : List (List String) → Except Lexeme.Error (List Lexeme)
  | [] => .ok []
  | run :: rest => do
    let first ← Lexeme.read (Text.Source.ofString (joined run))
    let later ← unitsFrom (n + run.length) rest
    return first.dropLast.map (Lexeme.down n) ++ later

/-- The units of runs of lines are those of the first run, without its end, and those of the
others. -/
theorem exists_of_unitsFrom_cons {n : Nat} {run : List String} {rest : List (List String)}
    {units : List Lexeme} (h : unitsFrom n (run :: rest) = .ok units) :
    ∃ first later, Lexeme.read (Text.Source.ofString (joined run)) = .ok first ∧
      unitsFrom (n + run.length) rest = .ok later ∧
      units = first.dropLast.map (Lexeme.down n) ++ later := by
  rw [unitsFrom] at h
  cases hfirst : Lexeme.read (Text.Source.ofString (joined run)) with
  | error e =>
    rw [hfirst] at h
    cases h
  | ok first =>
    cases hlater : unitsFrom (n + run.length) rest with
    | error e =>
      rw [hfirst, hlater] at h
      cases h
    | ok later =>
      rw [hfirst, hlater] at h
      exact ⟨first, later, rfl, rfl, (Except.ok.inj h).symm⟩

/-- Whether a run of lines can be cut off where it ends: it may only have a fault of those that the
lines after it cannot mend. -/
def Severable (run : List String) : Prop :=
  ∀ e, Lexeme.read (Text.Source.ofString (joined run)) = .error e →
    e.fault = .danglingMode ∨ e.fault = .unexpectedChar

theorem ofString_joined_append {a b : List String} (ha : a ≠ []) (hb : b ≠ [])
    (hmark : (joined b).toList.head? ≠ some Text.Source.byteOrderMark) :
    Text.Source.ofString (joined (a ++ b)) =
      Text.Source.ofString (joined a) ++ '\n' :: Text.Source.ofString (joined b) := by
  unfold Text.Source.ofString
  rw [toList_joined_append ha hb, Text.Source.dropMark_newline,
    Text.Source.dropMark_of_head?_ne hmark]

/-- Where the whole is read without a fault, a run at its front that can be cut off is too, and so
are the lines after it. -/
theorem exists_read_append {run rest : List String} {units : List Lexeme} (hrun : run ≠ [])
    (hrest : rest ≠ []) (hlines : ∀ line ∈ run, '\n' ∉ line.toList) (hsever : Severable run)
    (hmark : (joined rest).toList.head? ≠ some Text.Source.byteOrderMark)
    (hread : Lexeme.read (Text.Source.ofString (joined (run ++ rest))) = .ok units) :
    ∃ first later, Lexeme.read (Text.Source.ofString (joined run)) = .ok first ∧
      Lexeme.read (Text.Source.ofString (joined rest)) = .ok later ∧
      units = first.dropLast ++ later.map (Lexeme.down run.length) := by
  rw [ofString_joined_append hrun hrest hmark] at hread
  cases hfirst : Lexeme.read (Text.Source.ofString (joined run)) with
  | error e =>
    rw [Lexeme.read_newline_of_error hfirst (hsever e hfirst)] at hread
    cases hread
  | ok first =>
    have hcount : (Text.Source.ofString (joined run)).count '\n' + 1 = run.length := by
      rw [Text.Source.ofString, Text.Source.count_newline_dropMark,
        count_newline_joined hrun hlines]
    rw [Lexeme.read_newline hfirst, hcount] at hread
    cases hlater : Lexeme.read (Text.Source.ofString (joined rest)) with
    | error e =>
      rw [hlater] at hread
      cases hread
    | ok later =>
      rw [hlater] at hread
      exact ⟨first, later, rfl, rfl, (Except.ok.inj hread).symm⟩

theorem head?_joined_append_ne {run : List String} (hrun : run ≠ [])
    (h : (joined run).toList.head? ≠ some Text.Source.byteOrderMark) (more : List String) :
    (joined (run ++ more)).toList.head? ≠ some Text.Source.byteOrderMark := by
  by_cases hmore : more = []
  · rwa [hmore, List.append_nil]
  · rw [toList_joined_append hrun hmore]
    cases hchars : (joined run).toList with
    | nil => simp [Text.Source.byteOrderMark]
    | cons c rest =>
      rw [hchars] at h
      exact h

/-- Runs of lines that can be cut off one after the other give the units of the whole: those of the
first run and, so many lines further down, those of the others. -/
theorem unitsFrom_eq {chunks : List (List String)} {last : List String} {units : List Lexeme}
    (n : Nat) (hchunks : ∀ run ∈ chunks, run ≠ [] ∧ Severable run) (hlast : last ≠ [])
    (hlines : ∀ line ∈ chunks.flatten ++ last, '\n' ∉ line.toList)
    (hmark : ∀ run ∈ (chunks ++ [last]).tail,
      (joined run).toList.head? ≠ some Text.Source.byteOrderMark)
    (hread : Lexeme.read (Text.Source.ofString (joined (chunks.flatten ++ last))) = .ok units) :
    unitsFrom n (chunks ++ [last]) = .ok (units.dropLast.map (Lexeme.down n)) := by
  induction chunks generalizing n units with
  | nil =>
    rw [List.flatten_nil, List.nil_append] at hread
    rw [List.nil_append, unitsFrom, hread]
    simp [unitsFrom, bind, Except.bind, pure, Except.pure]
  | cons run chunks ih =>
    obtain ⟨hrun, hsever⟩ := hchunks run (List.mem_cons_self ..)
    have hrest : chunks.flatten ++ last ≠ [] :=
      fun h ↦ hlast (List.append_eq_nil_iff.mp h).2
    have hmarks : ∀ run ∈ chunks ++ [last],
        (joined run).toList.head? ≠ some Text.Source.byteOrderMark := hmark
    have hfront : (joined (chunks.flatten ++ last)).toList.head? ≠
        some Text.Source.byteOrderMark := by
      cases chunks with
      | nil => exact hmarks last (List.mem_singleton_self last)
      | cons second chunks =>
        rw [List.flatten_cons, List.append_assoc]
        have hsecond := hchunks second (List.mem_cons_of_mem run (List.mem_cons_self ..))
        exact head?_joined_append_ne hsecond.1 (hmarks second (List.mem_cons_self ..)) _
    rw [List.flatten_cons, List.append_assoc] at hread hlines
    obtain ⟨first, later, hfirst, hlater, rfl⟩ := exists_read_append hrun hrest
      (fun line hline ↦ hlines line (List.mem_append_left _ hline)) hsever hfront hread
    obtain ⟨end_, hend, -⟩ := Lexeme.exists_finish_last hlater
    have hne : later ≠ [] := by
      rw [hend]
      simp
    have hdown : Lexeme.down n ∘ Lexeme.down run.length = Lexeme.down (n + run.length) := by
      funext x
      simp [Lexeme.down, Position.down_down, Nat.add_comm]
    have hnext := ih (n + run.length)
      (fun r hr ↦ hchunks r (List.mem_cons_of_mem run hr))
      (fun line hline ↦ hlines line (List.mem_append_right run hline))
      (fun r hr ↦ hmarks r (List.mem_of_mem_tail hr)) hlater
    rw [List.cons_append, unitsFrom, hfirst, hnext,
      List.dropLast_append_of_ne_nil (by simpa using hne), ← List.map_dropLast, List.map_append,
      List.map_map, hdown]
    rfl

/-! ### Tokens in their places -/

/-- A token without its reference number, and its place `n` lines further down. -/
def placed (n : Nat) (t : Token) : Token × Option Position := (t.bare, t.pos?.map (Position.down n))

/-- The tokens that the evaluated chunks are read as, in their places in the whole text, of which
the first `n` lines come before these chunks. Blank chunks are skipped. -/
def chunkTokens (base : Ref) (n : Nat) :
    List (List String) → Except Lexeme.Error (List (Token × Option Position))
  | [] => .ok []
  | chunk :: rest => do
    let first ← if Text.Blank.isBlankText (joined chunk) then pure []
      else (Reader.read base (Text.Source.ofString (joined chunk))).map (List.map (placed n))
    let later ← chunkTokens base (n + chunk.length) rest
    return first ++ later

/-- The token of a unit and its place, `n` lines further down. -/
def locate (n : Nat) (x : Lexeme) : Option (Token × Option Position) :=
  (Lexeme.Scan.tokenOf x).map fun t ↦ (t, some (x.position.down n))

/-- Every token has the place of its unit. -/
theorem pos?_ofLexeme {ref : Ref} {x : Lexeme} {t : Token} (h : Reader.ofLexeme ref x = some t) :
    t.pos? = some x.position := by
  obtain ⟨kind, text, mode, delimiter, position⟩ := x
  cases kind with
  | finish => cases h
  | string =>
    rw [Reader.ofLexeme] at h
    split_ifs at h <;> cases h <;> rfl
  | word =>
    obtain rfl : Reader.ofWord ref text position = t := Option.some.inj h
    unfold Reader.ofWord
    split <;> rfl
  | _ =>
    cases h
    rfl

theorem placed_ofLexeme (n : Nat) (ref : Ref) (x : Lexeme) :
    (Reader.ofLexeme ref x).map (placed n) = locate n x := by
  rw [locate, ← Lexeme.Scan.bare_ofLexeme ref x, Option.map_map]
  cases hx : Reader.ofLexeme ref x with
  | none => rfl
  | some t => simp [placed, pos?_ofLexeme hx]

theorem map_placed_ofLexemes (n : Nat) (base : Ref) (units : List Lexeme) :
    (Reader.ofLexemes base units).map (placed n) = units.filterMap (locate n) := by
  unfold Reader.ofLexemes
  rw [List.map_filterMap]
  simp only [placed_ofLexeme]
  induction units generalizing base with
  | nil => rfl
  | cons x units ih => rw [List.zipIdx_cons, List.filterMap_cons, List.filterMap_cons, ih]

theorem tokenOf_down (n : Nat) (x : Lexeme) :
    Lexeme.Scan.tokenOf (x.down n) = Lexeme.Scan.tokenOf x := by
  obtain ⟨kind, text, mode, delimiter, position⟩ := x
  cases kind with
  | word =>
    simp only [Lexeme.Scan.tokenOf, Lexeme.down, Reader.ofLexeme, Option.map_some,
      Lexeme.Scan.bare_ofWord]
  | string =>
    by_cases hmode : mode = "" <;>
      simp [Lexeme.Scan.tokenOf, Lexeme.down, Reader.ofLexeme, Token.bare, hmode]
  | _ => rfl

theorem locate_down (n : Nat) (x : Lexeme) : locate 0 (x.down n) = locate n x := by
  rw [locate, locate, tokenOf_down]
  rfl

/-- The end of a text is no token. -/
theorem filterMap_locate_dropLast {source : List Char} {units : List Lexeme}
    (h : Lexeme.read source = .ok units) (n : Nat) :
    (units.dropLast.map (Lexeme.down n)).filterMap (locate 0) = units.filterMap (locate n) := by
  obtain ⟨last, hlast, hfinish⟩ := Lexeme.exists_finish_last h
  have hend : locate n last = none := by
    simp [locate, Lexeme.Scan.tokenOf, Reader.ofLexeme, hfinish]
  have hdown : locate 0 ∘ Lexeme.down n = locate n := funext (locate_down n)
  rw [List.filterMap_map, hdown]
  conv_rhs => rw [hlast, List.filterMap_append]
  simp [hend]

/-- Separators alone have no tokens. -/
theorem rests_separators {source : List Char}
    (h : source.all Lexeme.Scan.isSeparator = true) : Lexeme.Scan.Rests source [] := by
  induction source with
  | nil => exact Lexeme.Scan.rests_nil
  | cons c source ih =>
    rw [List.all_cons, Bool.and_eq_true] at h
    have hleave (p : Position) :
        Lexeme.Scan.leave p c = (.default, (fun _ ↦ [] : Position → List Lexeme) p) := by
      simp [Lexeme.Scan.leave, h.1]
    have hfirst : Lexeme.Scan.Rests [c] [] := Lexeme.Scan.rests_of_leave hleave fun _ ↦ rfl
    exact hfirst.append (ih h.2)

/-- A text of separators gives no located unit. -/
theorem filterMap_locate_eq_nil {text : String} {units : List Lexeme} (n : Nat)
    (h : text.toList.all Lexeme.Scan.isSeparator = true)
    (hread : Lexeme.read (Text.Source.ofString text) = .ok units) :
    units.filterMap (locate n) = [] := by
  have hmark : Text.Source.ofString text = text.toList := by
    refine Text.Source.dropMark_of_head?_ne fun hhead ↦ ?_
    have hmem := List.mem_of_mem_head? hhead
    exact absurd (List.all_eq_true.mp h _ hmem) (by decide)
  obtain ⟨units', hunits, htokens⟩ := (rests_separators h).reads.exists_read
  rw [hmark, hunits] at hread
  obtain rfl : units' = units := Except.ok.inj hread
  rw [List.filterMap_eq_nil_iff] at htokens ⊢
  intro x hx
  rw [locate, htokens x hx]
  rfl

/-- Whether a chunk ends inside a character literal, for which the loop does not wait. -/
def endsInChar (chunk : List String) : Bool :=
  match Lexeme.read (Text.Source.ofString (joined chunk)) with
  | .error e => e.fault == .unterminatedChar
  | .ok _ => false

/-- Whether a chunk closes more brackets than it opens, which the loop takes as it is. -/
def overcloses (chunk : List String) : Bool :=
  match Lexeme.read (Text.Source.ofString (joined chunk)) with
  | .error _ => false
  | .ok units => units.countP (·.kind == .opening) < units.countP (·.kind == .closing)

/-- Whether a chunk is skipped as blank although the scanner finds a word in it. -/
def hidesWord (chunk : List String) : Bool :=
  Text.Blank.isBlankText (joined chunk) && !(joined chunk).toList.all Lexeme.Scan.isSeparator

theorem IsChunk.severable {chunk : List String} (h : IsChunk chunk)
    (hchar : endsInChar chunk = false) : Severable chunk := by
  intro e he
  have hcomplete := h.complete
  rw [Reader.isComplete, he] at hcomplete
  rw [endsInChar, he] at hchar
  obtain ⟨fault, position⟩ := e
  cases fault <;> simp_all

/-- The chunks that are read have the tokens of their units. -/
theorem chunkTokens_eq (base : Ref) {n : Nat} {chunks : List (List String)} {units : List Lexeme}
    (h : unitsFrom n chunks = .ok units) (hword : ∀ chunk ∈ chunks, hidesWord chunk = false) :
    chunkTokens base n chunks = .ok (units.filterMap (locate 0)) := by
  induction chunks generalizing n units with
  | nil =>
    cases h
    rfl
  | cons chunk chunks ih =>
    obtain ⟨first, later, hfirst, hlater, rfl⟩ := exists_of_unitsFrom_cons h
    have hnext := ih hlater fun c hc ↦ hword c (List.mem_cons_of_mem chunk hc)
    have hthis := hword chunk (List.mem_cons_self ..)
    rw [chunkTokens, hnext, List.filterMap_append, filterMap_locate_dropLast hfirst]
    split_ifs with hblank
    · rw [hidesWord, hblank, Bool.true_and, Bool.not_eq_false'] at hthis
      rw [filterMap_locate_eq_nil n hthis hfirst]
      rfl
    · rw [Reader.read, hfirst]
      simp only [Except.map, map_placed_ofLexemes]
      rfl

/-! ### The chunks of a whole text -/

section Whole

variable {lines : List String} {units : List Lexeme}

theorem flatten_cut (lines : List String) : (cut lines).1.flatten ++ (cut lines).2 = lines :=
  flatten_cutFrom [] lines

theorem isChunk_of_mem_cut {chunk : List String} (h : chunk ∈ (cut lines).1) : IsChunk chunk :=
  (isChunk_cutFrom lines waits_nil).1 chunk h

theorem isComplete_held (h : (cut lines).2 ≠ []) :
    Reader.isComplete (Text.Source.ofString (joined (cut lines).2)) = false :=
  (isChunk_cutFrom lines waits_nil).2 _ [] (List.append_nil _).symm h

/-- The chunks, and the lines held back if there are any, have the units of the whole text. -/
theorem unitsFrom_cut (hlines : ∀ line ∈ lines, '\n' ∉ line.toList)
    (hread : Lexeme.read (Text.Source.ofString (joined lines)) = .ok units)
    (hchar : ∀ chunk ∈ (cut lines).1, endsInChar chunk = false)
    (hmark : ∀ run ∈ ((cut lines).1 ++ [(cut lines).2]).tail,
      (joined run).toList.head? ≠ some Text.Source.byteOrderMark) :
    if (cut lines).2 = [] then unitsFrom 0 (cut lines).1 = .ok (units.dropLast.map (Lexeme.down 0))
    else unitsFrom 0 ((cut lines).1 ++ [(cut lines).2]) =
      .ok (units.dropLast.map (Lexeme.down 0)) := by
  have hflatten := flatten_cut lines
  have hsever : ∀ run ∈ (cut lines).1, run ≠ [] ∧ Severable run := fun run hrun ↦
    ⟨(isChunk_of_mem_cut hrun).nonempty, (isChunk_of_mem_cut hrun).severable (hchar run hrun)⟩
  split_ifs with hheld
  · rw [hheld, List.append_nil] at hflatten
    rcases List.eq_nil_or_concat (cut lines).1 with hnil | ⟨front, last, hlast⟩
    · rw [hnil, List.flatten_nil] at hflatten
      subst hflatten
      cases hread
      rfl
    · rw [List.concat_eq_append] at hlast
      rw [hlast] at hsever hmark hflatten ⊢
      rw [List.flatten_append, List.flatten_singleton] at hflatten
      have hlast := (hsever last (List.mem_append_right front (List.mem_singleton_self last))).1
      rw [← hflatten] at hlines hread
      refine unitsFrom_eq 0 (fun run hrun ↦ hsever run (List.mem_append_left _ hrun)) hlast hlines
        (fun run hrun ↦ hmark run ?_) hread
      rw [List.tail_append_of_ne_nil (by simp)]
      exact List.mem_append_left _ hrun
  · rw [← hflatten] at hlines hread
    exact unitsFrom_eq 0 hsever hheld hlines hmark hread

end Whole

/-! ### Nothing held back -/

/-- Ends and places do not count as brackets. -/
theorem countP_dropLast_down {source : List Char} {units : List Lexeme}
    (h : Lexeme.read source = .ok units) (n : Nat) {kind : Lexeme.Kind} (hkind : kind ≠ .finish) :
    (units.dropLast.map (Lexeme.down n)).countP (·.kind == kind) =
      units.countP (·.kind == kind) := by
  obtain ⟨last, hlast, hfinish⟩ := Lexeme.exists_finish_last h
  have hend : (last.kind == kind) = false := by
    rw [hfinish]
    exact beq_eq_false_iff_ne.mpr hkind.symm
  conv_rhs => rw [hlast, List.countP_append]
  rw [List.countP_map, List.countP_singleton, hend]
  rfl

/-- Chunks that close no more than they open do not make up for brackets that the lines after them
leave open. -/
theorem countP_closing_lt {n : Nat} {chunks : List (List String)} {held : List String}
    {units : List Lexeme} (h : unitsFrom n (chunks ++ [held]) = .ok units)
    (hchunks : ∀ chunk ∈ chunks, overcloses chunk = false)
    (hheld : Reader.isComplete (Text.Source.ofString (joined held)) = false) :
    units.countP (·.kind == .closing) < units.countP (·.kind == .opening) := by
  induction chunks generalizing n units with
  | nil =>
    obtain ⟨first, later, hfirst, hlater, rfl⟩ := exists_of_unitsFrom_cons h
    cases hlater
    rw [Reader.isComplete, hfirst, decide_eq_false_iff_not, Nat.not_le] at hheld
    rwa [List.append_nil, countP_dropLast_down hfirst n (by decide),
      countP_dropLast_down hfirst n (by decide)]
  | cons chunk chunks ih =>
    obtain ⟨first, later, hfirst, hlater, rfl⟩ := exists_of_unitsFrom_cons h
    have hnext := ih hlater fun c hc ↦ hchunks c (List.mem_cons_of_mem chunk hc)
    have hthis := hchunks chunk (List.mem_cons_self ..)
    rw [overcloses, hfirst, decide_eq_false_iff_not, Nat.not_lt] at hthis
    rw [List.countP_append, List.countP_append, countP_dropLast_down hfirst n (by decide),
      countP_dropLast_down hfirst n (by decide)]
    exact Nat.add_lt_add_of_le_of_lt hthis hnext

/-- Lines that are read without a fault and leave nothing open have the same tokens, in the same
places, when the loop evaluates them chunk by chunk, unless a chunk is one of those at which the two
readings part, or a byte order mark begins a later chunk or what is held back. The chunks are the
shortest runs of lines in which nothing waits for more, no line is held back after the last of them,
and the loop does what evaluating those that are not blank one after the other does. -/
theorem chunkTokens_cut {base : Ref} {lines : List String} {tokens : List Token}
    (hlines : ∀ line ∈ lines, '\n' ∉ line.toList)
    (hread : Reader.read base (Text.Source.ofString (joined lines)) = .ok tokens)
    (hcomplete : Reader.isComplete (Text.Source.ofString (joined lines)) = true)
    (hchunks : ∀ chunk ∈ (cut lines).1,
      endsInChar chunk = false ∧ overcloses chunk = false ∧ hidesWord chunk = false)
    (hmark : ∀ run ∈ ((cut lines).1 ++ [(cut lines).2]).tail,
      (joined run).toList.head? ≠ some Text.Source.byteOrderMark) :
    (cut lines).1.flatten = lines ∧ (cut lines).2 = [] ∧
      (∀ chunk ∈ (cut lines).1, IsChunk chunk) ∧
      chunkTokens base 0 (cut lines).1 = .ok (tokens.map (placed 0)) ∧
      ∀ w : World, feedAll ⟨w, none⟩ lines =
        ((answerAll w (evaluated (cut lines).1)).1,
          ⟨(answerAll w (evaluated (cut lines).1)).2, none⟩) := by
  obtain ⟨units, hunits, rfl⟩ := Lexeme.Scan.exists_lexemes hread
  have hcut := unitsFrom_cut hlines hunits (fun chunk h ↦ (hchunks chunk h).1) hmark
  have hheld : (cut lines).2 = [] := by
    by_contra hne
    rw [if_neg hne] at hcut
    have hlt := countP_closing_lt hcut (fun chunk h ↦ (hchunks chunk h).2.1) (isComplete_held hne)
    rw [countP_dropLast_down hunits 0 (by decide), countP_dropLast_down hunits 0 (by decide)] at hlt
    rw [Reader.isComplete, hunits, decide_eq_true_eq] at hcomplete
    omega
  rw [if_pos hheld] at hcut
  have hflatten := flatten_cut lines
  rw [hheld, List.append_nil] at hflatten
  refine ⟨hflatten, hheld, fun chunk ↦ isChunk_of_mem_cut, ?_, fun w ↦ ?_⟩
  · rw [chunkTokens_eq base hcut fun chunk h ↦ (hchunks chunk h).2.2, map_placed_ofLexemes,
      filterMap_locate_dropLast hunits]
  · rw [feedAll_eq, hheld]
    rfl

/-- Brackets, a string and a comment over several lines, and a line of commas and one of spaces. -/
theorem chunkTokens_cut_several :
    let lines := ["[1", "2] 'a", "b' x", ",", "  ", "~/", "/~ y"]
    ∃ tokens, Reader.read 0 (Text.Source.ofString (joined lines)) = .ok tokens ∧
      (cut lines).1.length = 4 ∧
      chunkTokens 0 0 (cut lines).1 = .ok (tokens.map (placed 0)) := by
  have hread : (Reader.read 0 (Text.Source.ofString
      (joined ["[1", "2] 'a", "b' x", ",", "  ", "~/", "/~ y"]))).isOk = true := by decide +kernel
  cases htokens : Reader.read 0 (Text.Source.ofString
      (joined ["[1", "2] 'a", "b' x", ",", "  ", "~/", "/~ y"])) with
  | error e =>
    rw [htokens] at hread
    cases hread
  | ok tokens =>
    exact ⟨tokens, htokens, by decide +kernel, (chunkTokens_cut (by decide +kernel) htokens
      (by decide +kernel) (by decide +kernel) (by decide +kernel)).2.2.2.1⟩

/-- Lines whose text is read without a fault and leaves nothing open, but whose chunks have other
tokens than it. -/
def Differ (lines : List String) : Prop :=
  (∀ line ∈ lines, '\n' ∉ line.toList) ∧
    Reader.isComplete (Text.Source.ofString (joined lines)) = true ∧
    ∃ tokens, Reader.read 0 (Text.Source.ofString (joined lines)) = .ok tokens ∧
      chunkTokens 0 0 (cut lines).1 ≠ .ok (tokens.map (placed 0))

/-- Lines differ if the tokens of their chunks are written otherwise than those of the whole. -/
theorem differ_of_texts {lines : List String} (hlines : ∀ line ∈ lines, '\n' ∉ line.toList)
    (hcomplete : Reader.isComplete (Text.Source.ofString (joined lines)) = true)
    (hread : (Reader.read 0 (Text.Source.ofString (joined lines))).isOk = true)
    (htexts : (chunkTokens 0 0 (cut lines).1).map (List.map fun t ↦ t.1.text) ≠
      (Reader.read 0 (Text.Source.ofString (joined lines))).map
        (List.map fun t ↦ t.bare.text)) : Differ lines := by
  refine ⟨hlines, hcomplete, ?_⟩
  cases htokens : Reader.read 0 (Text.Source.ofString (joined lines)) with
  | error e =>
    rw [htokens] at hread
    cases hread
  | ok tokens =>
    refine ⟨tokens, rfl, fun hsame ↦ htexts ?_⟩
    rw [hsame, htokens]
    simp [Except.map, placed]

/-- The tokens of the chunks are not those of the text for a character literal over two lines, for
a bracket that is closed before it is opened, for a space that separates nothing, and for a byte
order mark at the start of a later chunk or of the lines held back after the last one, which open a
bracket and a string where the whole text has a word that begins with the mark and a string. -/
theorem chunkTokens_cut_differ : Differ ["\x60", "\x60"] ∧ Differ ["]", "["] ∧
    Differ ["\u00a0"] ∧ Differ ["a", "\ufeffb"] ∧ Differ ["a", "\ufeff\x60'\x60[ '"] := by
  refine ⟨?_, ?_, ?_, ?_, ?_⟩ <;>
    exact differ_of_texts (by decide +kernel) (by decide +kernel) (by decide +kernel)
      (by decide +kernel)

end Repl

end TokenLang.Command

import TokenLang.Proofs.RoundTrip.Writing
import TokenLang.Proofs.Lexeme.Lines

/-!
Buffers written back. The tokens of a text, written one after the other, are read as the same tokens
again, up to places and reference numbers (`read_encode`). This needs that the writing of each token
says all of it: a quoted text with a mode is written without escapes, so it must have nothing in it
that reads as one or ends it, and a mode that begins with `!` is written as a line comment. The
text as a whole must not begin with a byte order mark either. Each of these can be read, and none
of them comes back (`read_encode_differs`).
-/

set_option autoImplicit false
set_option relaxedAutoImplicit false

namespace TokenLang

namespace Lexeme

open TokenLang.Lexeme.Scan

/-! ### The shape of units -/

/-- Words have the characters of words, brackets and quoted texts the delimiters and modes that the
scanner knows. -/
def IsShaped (x : Lexeme) : Prop :=
  match x.kind with
  | .opening => (∃ c, isOpening c = true ∧ x.delimiter = c.toString) ∧
      ∀ c ∈ x.mode.toList, breaksWord c = false
  | .closing => ∃ c, isClosing c = true ∧ x.delimiter = c.toString
  | .string => (∃ c, isQuoteMark c = true ∧ x.delimiter = c.toString) ∧
      ∀ c ∈ x.mode.toList, breaksWord c = false
  | .word => IsWord x.text.toList
  | _ => True

namespace Scan

/-- What is collected can become part of such a unit. -/
def State.IsShaped : State → Prop
  | .word _ seen => IsWord seen.reverse
  | .mode _ seen => ∀ c ∈ seen, breaksWord c = false
  | .string _ tag mark _ => isQuoteMark mark = true ∧ ∀ c ∈ tag.toList, breaksWord c = false
  | .stringEscape _ tag mark _ => isQuoteMark mark = true ∧ ∀ c ∈ tag.toList, breaksWord c = false
  | _ => True

/-- A state with its units, all in shape. -/
def Shaped (r : State × List Lexeme) : Prop := r.1.IsShaped ∧ ∀ x ∈ r.2, x.IsShaped

theorem shaped_quiet {state : State} (h : state.IsShaped) : Shaped (state, []) :=
  ⟨h, fun _ hx ↦ absurd hx List.not_mem_nil⟩

theorem shaped_unit {x : Lexeme} (h : x.IsShaped) : Shaped (.default, [x]) :=
  ⟨trivial, List.forall_mem_singleton.mpr h⟩

theorem shaped_ite {p : Prop} [Decidable p] {r s : State × List Lexeme} (hr : p → Shaped r)
    (hs : ¬p → Shaped s) : Shaped (if p then r else s) := by
  split_ifs with h
  · exact hr h
  · exact hs h

theorem shaped_leave (p : Position) (c : Char) : Shaped (leave p c) := by
  refine shaped_ite (fun _ ↦ shaped_quiet trivial) fun hseparator ↦ ?_
  refine shaped_ite (fun h ↦ shaped_unit ⟨⟨c, h, rfl⟩, by simp⟩) fun hopening ↦ ?_
  refine shaped_ite (fun h ↦ shaped_unit ⟨c, h, rfl⟩) fun hclosing ↦ ?_
  refine shaped_ite (fun h ↦ shaped_quiet ⟨h, by simp⟩) fun hquote ↦ ?_
  refine shaped_ite (fun _ ↦ shaped_quiet trivial) fun hmark ↦ ?_
  refine shaped_ite (fun _ ↦ shaped_unit trivial) fun hcolon ↦ ?_
  refine shaped_ite (fun _ ↦ shaped_unit trivial) fun hat ↦ ?_
  refine shaped_ite (fun _ ↦ shaped_quiet trivial) fun hcomment ↦ ?_
  refine shaped_ite (fun _ ↦ shaped_quiet trivial) fun hhash ↦ ?_
  refine shaped_ite (fun _ ↦ shaped_quiet trivial) fun htilde ↦ ?_
  refine shaped_quiet ⟨hmark, List.forall_mem_singleton.mpr ?_⟩
  simp [breaksWord, hseparator, hopening, hclosing, hquote, hcolon, hat, hcomment, hhash, htilde]

theorem shaped_extendMode (start : Position) {seen : List Char} (c : Char)
    (h : ∀ d ∈ seen, breaksWord d = false) : Shaped (extendMode start seen c) := by
  have hmode : ∀ d ∈ (collected seen).toList, breaksWord d = false := by
    intro d hd
    rw [collected, String.toList_ofList, List.mem_reverse] at hd
    exact h d hd
  unfold extendMode
  split_ifs with hbreaks hopening hquote
  · refine shaped_quiet fun d hd ↦ ?_
    rcases List.mem_cons.mp hd with rfl | hd
    · simpa using hbreaks
    · exact h d hd
  · exact shaped_unit ⟨⟨c, hopening, rfl⟩, hmode⟩
  · exact shaped_quiet ⟨hquote, hmode⟩
  · exact shaped_quiet trivial

/-- One case for each state of the scanner: a step keeps the shape of the unit under way, and what
it emits is in shape. -/
theorem shaped_next (p : Position) (c : Char) {state : State} (h : state.IsShaped) :
    Shaped (next p c state) := by
  cases state with
  | default => exact shaped_leave p c
  | word start seen =>
    rw [next]
    split_ifs with hbreaks
    · refine ⟨(shaped_leave p c).1, List.forall_mem_cons.mpr ⟨?_, (shaped_leave p c).2⟩⟩
      show IsWord (collected seen).toList
      rw [collected, String.toList_ofList]
      exact h
    · refine shaped_quiet ?_
      show IsWord (c :: seen).reverse
      rw [List.reverse_cons]
      exact IsWord.concat h (Bool.eq_false_iff.mpr hbreaks)
  | lineComment =>
    rw [next]
    split_ifs
    · exact shaped_leave p c
    · exact shaped_quiet trivial
  | tildes start count =>
    rw [next]
    split_ifs <;> exact shaped_quiet trivial
  | blockComment start count matched =>
    refine shaped_quiet ?_
    unfold extendComment
    split_ifs <;> exact trivial
  | hash start =>
    rw [next]
    split_ifs
    · exact shaped_quiet trivial
    · exact shaped_quiet fun d hd ↦ absurd hd List.not_mem_nil
    · exact shaped_extendMode start c fun d hd ↦ absurd hd List.not_mem_nil
  | mode start seen => exact shaped_extendMode start c h
  | string start tag mark seen =>
    rw [next]
    split_ifs
    · exact shaped_unit ⟨⟨mark, h.1, rfl⟩, h.2⟩
    · exact shaped_quiet h
    · exact shaped_quiet h
  | stringEscape start tag mark seen =>
    rw [next]
    cases escape? c <;> exact shaped_quiet h
  | char start =>
    rw [next]
    split_ifs <;> exact shaped_quiet trivial
  | charEscape start => exact shaped_quiet trivial
  | charEnd start r =>
    rw [next]
    split_ifs
    · exact shaped_unit trivial
    · exact shaped_quiet trivial
  | failed e => exact shaped_quiet trivial

theorem shaped_foldl (source : List Char) {s : Progress} (h : Shaped (s.state, s.emitted)) :
    Shaped ((source.foldl Progress.feed s).state, (source.foldl Progress.feed s).emitted) := by
  induction source generalizing s with
  | nil => exact h
  | cons c source ih =>
    have hnext := shaped_next s.position c h.1
    refine ih ⟨hnext.1, fun x hx ↦ ?_⟩
    rcases List.mem_append.mp hx with hx | hx
    · exact hnext.2 x (List.mem_reverse.mp hx)
    · exact h.2 x hx

theorem shaped_finish {p : Position} {state : State} {ends : List Lexeme} (h : state.IsShaped)
    (hfinish : finish p state = .ok ends) : ∀ x ∈ ends, x.IsShaped := by
  cases state with
  | word start seen =>
    cases hfinish
    refine List.forall_mem_cons.mpr ⟨?_, List.forall_mem_singleton.mpr trivial⟩
    show IsWord (collected seen).toList
    rw [collected, String.toList_ofList]
    exact h
  | default =>
    cases hfinish
    exact List.forall_mem_singleton.mpr trivial
  | lineComment =>
    cases hfinish
    exact List.forall_mem_singleton.mpr trivial
  | _ => cases hfinish

end Scan

/-- All units of a text are in shape. -/
theorem isShaped_of_read {source : List Char} {units : List Lexeme}
    (h : read source = .ok units) : ∀ x ∈ units, x.IsShaped := by
  have hfold := shaped_foldl source (s := .start) (shaped_quiet trivial)
  obtain ⟨ends, hfinish, rfl⟩ := exists_finish_of_read h
  intro x hx
  rcases List.mem_append.mp hx with hx | hx
  · exact hfold.2 x (List.mem_reverse.mp hx)
  · exact shaped_finish hfold.1 hfinish x hx

end Lexeme

namespace Token

open TokenLang.Lexeme.Scan

/-! ### Tokens that are written in full -/

/-- Whether a quoted text reads as itself when it is written without escapes: its mark does not
occur in it, and no backslash stands before a character that it changes. -/
def isVerbatim (mark : Char) : List Char → Bool
  | [] => true
  | '\\' :: c :: rest => (escape? c).isNone && isVerbatim mark rest
  | c :: rest => c != mark && c != '\\' && isVerbatim mark rest

/-- Whether the text of a token says all of it: modes do not begin like a line comment, and quoted
texts with a mode need no escapes. -/
def isWritable : Token → Bool
  | .opening _ mode _ => mode.toList.head? != some '!'
  | .literal delimiter text mode _ =>
    mode.toList.head? != some '!' && isVerbatim (delimiter.toList.headD default) text.toList
  | _ => true

/-- Characters that need no escape are taken as they stand between quote marks. -/
theorem foldl_feed_verbatim {mark : Char} (hmark : isQuoteMark mark = true) {l : List Char}
    (h : isVerbatim mark l = true) (position start : Position) (tag : String) (seen : List Char)
    (emitted : List Lexeme) : ∃ position',
    l.foldl Progress.feed ⟨position, .string start tag mark seen, emitted⟩ =
      ⟨position', .string start tag mark (l.reverse ++ seen), emitted⟩ := by
  have hslash : '\\' ≠ mark := by
    rintro rfl
    cases hmark
  fun_induction isVerbatim mark l generalizing position seen with
  | case1 => exact ⟨position, rfl⟩
  | case2 c rest ih =>
    rw [Bool.and_eq_true, Option.isNone_iff_eq_none] at h
    obtain ⟨position', hfold⟩ := ih h.2 ((position.advance '\\').advance c) (c :: '\\' :: seen)
    refine ⟨position', ?_⟩
    have hfeed : Progress.feed (Progress.feed ⟨position, .string start tag mark seen, emitted⟩
        '\\') c = ⟨(position.advance '\\').advance c,
          .string start tag mark (c :: '\\' :: seen), emitted⟩ := by
      simp [Progress.feed, next, hslash, h.1]
    rw [List.foldl_cons, List.foldl_cons, hfeed, hfold]
    simp
  | case3 c rest _ ih =>
    simp only [Bool.and_eq_true, bne_iff_ne] at h
    obtain ⟨position', hfold⟩ := ih h.2 (position.advance c) (c :: seen)
    refine ⟨position', ?_⟩
    have hfeed : Progress.feed ⟨position, .string start tag mark seen, emitted⟩ c =
        ⟨position.advance c, .string start tag mark (c :: seen), emitted⟩ := by
      simp [Progress.feed, next, h.1]
    rw [List.foldl_cons, hfeed, hfold]
    simp

/-- A quoted text with a mode, as it is written. -/
theorem rests_literal {mark : Char} (hmark : isQuoteMark mark = true) {text m : String}
    (hempty : m ≠ "") (hmode : isReadableMode m = true)
    (htext : isVerbatim mark text.toList = true) :
    Rests (Token.literal mark.toString text m none).text.toList
      [.literal mark.toString text m none] := by
  have hlist : (Token.literal mark.toString text m none).text.toList =
      ('#' :: m.toList) ++ (mark :: (text.toList ++ [mark])) := by
    simp [Token.text]
  rw [hlist]
  refine rests_of_foldl (fun p ↦ ⟨.string, text, m, mark.toString, p⟩) ?_ fun position ↦ ?_
  · intro position emitted
    obtain ⟨middle, hfold⟩ := foldl_feed_mode hempty hmode position emitted
    obtain ⟨position', hbody⟩ :=
      foldl_feed_verbatim hmark htext (middle.advance mark) position m [] emitted
    refine ⟨position'.advance mark, ?_⟩
    have hopen : ∀ before, Progress.feed ⟨middle, .mode position before, emitted⟩ mark =
        ⟨middle.advance mark, .string position (collected before) mark [], emitted⟩ := by
      intro before
      rw [isQuoteMark, Bool.or_eq_true, beq_iff_eq, beq_iff_eq] at hmark
      rcases hmark with rfl | rfl <;> rfl
    have hclose : Progress.feed ⟨position', .string position m mark (text.toList.reverse ++ []),
        emitted⟩ mark = ⟨position'.advance mark, .default,
          ⟨.string, text, m, mark.toString, position⟩ :: emitted⟩ := by
      simp [Progress.feed, next, collected_reverse]
    rw [List.foldl_append, hfold, List.foldl_cons, hopen, collected_reverse, List.foldl_append,
      hbody, List.foldl_cons, hclose, List.foldl_nil]
  · simp [tokensOf, tokenOf, Reader.ofLexeme, Token.bare, hempty]

/-- A word is read as the token that it was read as before. -/
theorem reads_ofWord (ref : Ref) {text : String} (pos : Position) (h : IsWord text.toList) :
    Reads (Reader.ofWord ref text pos).text.toList [(Reader.ofWord ref text pos).bare] := by
  unfold Reader.ofWord
  split
  · rename_i i _
    exact reads_int i
  · rename_i x _
    exact reads_float x ref
  · rename_i hnone
    have hreads := reads_word h
    have htoken : wordToken text = .symbol text none := by
      rw [wordToken, Reader.ofWord, hnone]
      rfl
    rwa [String.ofList_toList, htoken] at hreads

/-- Every unit in shape gives a token that is read back, if it is written in full. -/
theorem reads_text_ofLexeme {ref : Ref} {x : Lexeme} {t : Token} (hx : x.IsShaped)
    (h : Reader.ofLexeme ref x = some t) (ht : t.isWritable = true) :
    Reads t.text.toList [t.bare] := by
  obtain ⟨kind, text, mode, delimiter, position⟩ := x
  cases kind with
  | opening =>
    obtain rfl := Option.some.inj h
    obtain ⟨⟨c, hc, rfl⟩, hmode⟩ := hx
    exact (rests_moded hc (by simp_all [isReadableMode, isWritable])).reads
  | closing =>
    obtain rfl := Option.some.inj h
    obtain ⟨c, hc, rfl⟩ := hx
    have hlist : (Token.closing c.toString (some position)).text.toList = [c] := by
      simp [Token.text]
    rw [hlist]
    exact (rests_closing hc).reads
  | string =>
    rw [Reader.ofLexeme] at h
    split_ifs at h with hempty
    · obtain rfl := Option.some.inj h
      exact (rests_stringText text).reads
    · obtain rfl := Option.some.inj h
      obtain ⟨⟨mark, hmark, rfl⟩, hmode⟩ := hx
      simp only [isWritable, Bool.and_eq_true] at ht
      refine (rests_literal hmark hempty ?_ (by simpa using ht.2)).reads
      simp_all [isReadableMode]
  | char =>
    obtain rfl := Option.some.inj h
    exact (rests_charText _).reads
  | word =>
    obtain rfl := Option.some.inj h
    exact reads_ofWord ref position hx
  | quote =>
    obtain rfl := Option.some.inj h
    rw [Token.text, Token.bare]
    exact rests_colon.reads
  | unquote =>
    obtain rfl := Option.some.inj h
    rw [Token.text, Token.bare]
    exact rests_at.reads
  | finish => cases h

end Token

/-! ### Buffers -/

namespace Reader

/-- The tokens of a text, written back, are read as the same tokens, if each of them is written in
full and the text does not begin with a byte order mark. -/
theorem read_encode {base again : Ref} {source : List Char} {tokens : List Token}
    (h : read base source = .ok tokens) (hwritable : ∀ t ∈ tokens, t.isWritable = true)
    (hmark : (Token.encode tokens).toList.head? ≠ some Text.Source.byteOrderMark) :
    ∃ reread, read again (Text.Source.ofString (Token.encode tokens)) = .ok reread ∧
      reread.map Token.bare = tokens.map Token.bare := by
  obtain ⟨units, hread, rfl⟩ := Lexeme.Scan.exists_lexemes h
  have hreads : ∀ t ∈ ofLexemes base units, Lexeme.Scan.Reads t.text.toList [t.bare] := by
    intro t ht
    obtain ⟨⟨x, ref⟩, hx, hof⟩ := List.mem_filterMap.mp ht
    exact Token.reads_text_ofLexeme
      (Lexeme.isShaped_of_read hread x (List.fst_mem_of_mem_zipIdx hx))
      hof (hwritable t ht)
  obtain ⟨units', hunits, htokens⟩ := (Token.reads_spaced_texts hreads).exists_read
  refine ⟨ofLexemes again units', ?_, ?_⟩
  · rw [read, Text.Source.ofString, Text.Source.dropMark_of_head?_ne hmark, Token.encode, hunits]
    rfl
  · rw [Lexeme.Scan.map_bare_ofLexemes, htokens, Token.bares_eq_map]

/-- Brackets, modes, numbers, both markers, and a quoted text with a mode, the other mark and a
backslash that escapes nothing. -/
theorem read_encode_several :
    let source := Text.Source.ofString "(:x @y) #map[1.50 0x1f] #sym'a\\q\"' \"it's\" \x60\\n\x60"
    ∃ tokens, read 0 source = .ok tokens ∧ tokens.length = 13 ∧
      ∃ reread, read 0 (Text.Source.ofString (Token.encode tokens)) = .ok reread ∧
        reread.map Token.bare = tokens.map Token.bare := by
  intro source
  have hsource : (match read 0 source with
      | .ok tokens => tokens.length == 13 && tokens.all Token.isWritable &&
          (Token.encode tokens).toList.head? != some Text.Source.byteOrderMark
      | .error _ => false) = true := by
    decide +kernel
  cases h : read 0 source with
  | error e =>
    rw [h] at hsource
    cases hsource
  | ok tokens =>
    rw [h] at hsource
    simp only [Bool.and_eq_true, beq_iff_eq, List.all_eq_true, bne_iff_ne] at hsource
    exact ⟨tokens, rfl, hsource.1.1, read_encode h hsource.1.2 hsource.2⟩

/-- The tokens of a text are read again, up to places and reference numbers, from their writing. -/
def ComesBack (text : String) : Prop :=
  ∀ tokens, read 0 (Text.Source.ofString text) = .ok tokens →
    ∃ reread, read 0 (Text.Source.ofString (Token.encode tokens)) = .ok reread ∧
      reread.map Token.bare = tokens.map Token.bare

/-- Tokens whose writing is refused, or is read as tokens that are written otherwise, are lost. -/
theorem not_comesBack {text : String}
    (h : (match read 0 (Text.Source.ofString text) with
      | .ok tokens =>
        (match read 0 (Text.Source.ofString (Token.encode tokens)) with
          | .ok reread => reread.map (·.bare.text) != tokens.map (·.bare.text)
          | .error _ => true)
      | .error _ => false) = true) : ¬ComesBack text := by
  intro hback
  cases hread : read 0 (Text.Source.ofString text) with
  | error e =>
    rw [hread] at h
    cases h
  | ok tokens =>
    obtain ⟨reread, hreread, hsame⟩ := hback tokens hread
    simp only [hread, hreread, bne_iff_ne] at h
    apply h
    simpa [Function.comp_def] using congrArg (List.map Token.text) hsame

/-- The tokens written back are others, or none, for a quoted text whose escaped mark is written
bare, for a mode that begins like a line comment, and for a word that begins with a byte order
mark. -/
theorem read_encode_differs : ¬ComesBack "#sym'a\\'b'" ∧ ¬ComesBack "#~!x[ ]" ∧
    ¬ComesBack " \ufeffa b" :=
  ⟨not_comesBack (by decide +kernel), not_comesBack (by decide +kernel),
    not_comesBack (by decide +kernel)⟩

end Reader

end TokenLang

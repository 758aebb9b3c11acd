import TokenLang.Proofs.RoundTrip.Data

/-!
How texts are read. A text `Reads` as some tokens when the scanner, fed with it between two units,
comes to these tokens, wherever it started; a word at its end may still be open. A text `Rests` as
some tokens when the scanner is between two units again after it. Texts that rest can be followed
by any text, and texts that read by any character that ends a word.
-/

set_option autoImplicit false
set_option relaxedAutoImplicit false

namespace TokenLang.Lexeme.Scan

/-- The token of a lexical unit, without its place. -/
def tokenOf (x : Lexeme) : Option Token := (Reader.ofLexeme 0 x).map Token.bare

/-- The tokens of units that are kept last first. -/
def tokensOf (units : List Lexeme) : List Token := units.reverse.filterMap tokenOf

theorem tokensOf_append (later earlier : List Lexeme) :
    tokensOf (later ++ earlier) = tokensOf earlier ++ tokensOf later := by
  simp [tokensOf]

/-- The units of a scan that is between two units or in the middle of a word, if it were to end
the word. -/
def Progress.Settled (s : Progress) (units : List Lexeme) : Prop :=
  (s.state = .default ∧ s.emitted = units) ∨
    ∃ start seen, s.state = .word start seen ∧
      units = ⟨.word, collected seen, "", "", start⟩ :: s.emitted

/-- A character that ends words is taken as if the word before it had ended already. -/
theorem Progress.Settled.feed_eq {s : Progress} {units : List Lexeme} (h : s.Settled units)
    {c : Char} (hc : breaksWord c = true) :
    s.feed c = Progress.feed ⟨s.position, .default, units⟩ c := by
  obtain ⟨position, state, emitted⟩ := s
  rcases h with ⟨hstate, rfl⟩ | ⟨start, seen, hstate, rfl⟩
  · obtain rfl : state = .default := hstate
    rfl
  · obtain rfl : state = .word start seen := hstate
    simp [Progress.feed, next, hc]

/-- From between two units, a text gives these tokens, and perhaps the last of them is a word that
goes on. -/
def Reads (text : List Char) (tokens : List Token) : Prop :=
  ∀ s : Progress, s.state = .default → ∃ units,
    (text.foldl Progress.feed s).Settled (units ++ s.emitted) ∧ tokensOf units = tokens

/-- From between two units, a text gives these tokens and ends between two units. -/
def Rests (text : List Char) (tokens : List Token) : Prop :=
  ∀ s : Progress, s.state = .default → ∃ units,
    (text.foldl Progress.feed s).state = .default ∧
      (text.foldl Progress.feed s).emitted = units ++ s.emitted ∧ tokensOf units = tokens

/-! ### Texts one after the other -/

section Sequence

variable {a b : List Char} {s t : List Token}

theorem Rests.reads (h : Rests a s) : Reads a s := by
  intro p hp
  obtain ⟨units, hstate, hemitted, htokens⟩ := h p hp
  exact ⟨units, .inl ⟨hstate, hemitted⟩, htokens⟩

theorem rests_nil : Rests [] [] := fun _ hp ↦ ⟨[], hp, rfl, rfl⟩

theorem Rests.append_reads (ha : Rests a s) (hb : Reads b t) : Reads (a ++ b) (s ++ t) := by
  intro p hp
  obtain ⟨first, hstate, hemitted, rfl⟩ := ha p hp
  obtain ⟨second, hsettled, rfl⟩ := hb _ hstate
  refine ⟨second ++ first, ?_, tokensOf_append second first⟩
  rw [List.foldl_append, List.append_assoc, ← hemitted]
  exact hsettled

theorem Rests.append (ha : Rests a s) (hb : Rests b t) : Rests (a ++ b) (s ++ t) := by
  intro p hp
  obtain ⟨first, hstate, hemitted, rfl⟩ := ha p hp
  obtain ⟨second, hstate', hemitted', rfl⟩ := hb _ hstate
  refine ⟨second ++ first, ?_, ?_, tokensOf_append second first⟩
  · rw [List.foldl_append]
    exact hstate'
  · rw [List.foldl_append, List.append_assoc, ← hemitted]
    exact hemitted'

/-- A character that ends words ends the text before it. -/
theorem Reads.append_break (ha : Reads a s) {c : Char} (hc : breaksWord c = true)
    (hrests : Rests [c] t) : Rests (a ++ [c]) (s ++ t) := by
  intro p hp
  obtain ⟨first, hsettled, rfl⟩ := ha p hp
  obtain ⟨second, hstate, hemitted, rfl⟩ :=
    hrests ⟨(a.foldl Progress.feed p).position, .default, first ++ p.emitted⟩ rfl
  rw [List.foldl_cons, List.foldl_nil, ← hsettled.feed_eq hc] at hstate hemitted
  refine ⟨second ++ first, ?_, ?_, tokensOf_append second first⟩
  · rw [List.foldl_append]
    exact hstate
  · rw [List.foldl_append, List.append_assoc]
    exact hemitted

/-- A single character between two units that leaves the scanner there. -/
theorem rests_of_leave {c : Char} {units : Position → List Lexeme} {tokens : List Token}
    (hleave : ∀ p, leave p c = (.default, units p))
    (htokens : ∀ p, tokensOf (units p).reverse = tokens) : Rests [c] tokens := by
  intro p hp
  obtain ⟨position, state, emitted⟩ := p
  obtain rfl : state = .default := hp
  refine ⟨(units position).reverse, ?_, ?_, htokens position⟩
  · simp [Progress.feed, next, hleave]
  · simp [Progress.feed, next, hleave]

theorem rests_space : Rests [' '] [] := rests_of_leave (fun _ ↦ rfl) fun _ ↦ rfl

theorem rests_colon : Rests [':'] [.symbol ":" none] := rests_of_leave (fun _ ↦ rfl) fun _ ↦ rfl

theorem rests_at : Rests ['@'] [.symbol "@" none] := rests_of_leave (fun _ ↦ rfl) fun _ ↦ rfl

theorem isOpening_cases {c : Char} (h : isOpening c = true) : c = '(' ∨ c = '[' ∨ c = '\x7b' := by
  simpa [isOpening, or_assoc] using h

theorem isClosing_cases {c : Char} (h : isClosing c = true) : c = ')' ∨ c = ']' ∨ c = '\x7d' := by
  simpa [isClosing, or_assoc] using h

theorem rests_opening {c : Char} (h : isOpening c = true) :
    Rests [c] [.opening c.toString "" none] := by
  rcases isOpening_cases h with rfl | rfl | rfl
  all_goals exact rests_of_leave (fun _ ↦ rfl) fun _ ↦ rfl

theorem rests_closing {c : Char} (h : isClosing c = true) :
    Rests [c] [.closing c.toString none] := by
  rcases isClosing_cases h with rfl | rfl | rfl
  all_goals exact rests_of_leave (fun _ ↦ rfl) fun _ ↦ rfl

theorem Reads.space (ha : Reads a s) (hb : Reads b t) : Reads (a ++ ' ' :: b) (s ++ t) := by
  have hrests := ha.append_break (c := ' ') rfl rests_space
  rw [List.append_nil] at hrests
  simpa using hrests.append_reads hb

/-- What stands between two brackets. -/
theorem Rests.bracketed {c : Char} (ha : Rests a s) (hb : Reads b t) (hc : isClosing c = true) :
    Rests (a ++ b ++ [c]) (s ++ (t ++ [.closing c.toString none])) := by
  have hbreaks : breaksWord c = true := by
    rcases isClosing_cases hc with rfl | rfl | rfl <;> rfl
  rw [← List.append_assoc]
  exact (ha.append_reads hb).append_break hbreaks (rests_closing hc)

end Sequence

/-! ### Words -/

/-- The characters of a word: one that begins a word, and then only such that do not end it. -/
def IsWord : List Char → Prop
  | [] => False
  | c :: rest => c ≠ charMark ∧ ∀ d ∈ c :: rest, breaksWord d = false

instance : (l : List Char) → Decidable (IsWord l)
  | [] => .isFalse id
  | c :: rest =>
    decidable_of_iff (c ≠ charMark ∧ (c :: rest).all (fun d ↦ !breaksWord d) = true)
      (by simp only [List.all_eq_true, Bool.not_eq_true', IsWord])

theorem IsWord.concat {l : List Char} (h : IsWord l) {c : Char} (hc : breaksWord c = false) :
    IsWord (l ++ [c]) := by
  cases l with
  | nil => exact False.elim h
  | cons d rest =>
    refine ⟨h.1, fun e he ↦ ?_⟩
    rcases List.mem_append.mp (show e ∈ (d :: rest) ++ [c] from he) with he | he
    · exact h.2 e he
    · rwa [List.mem_singleton.mp he]

theorem leave_of_breaksWord_eq_false {c : Char} (h : breaksWord c = false) (hmark : c ≠ charMark)
    (p : Position) : leave p c = (.word p [c], []) := by
  simp only [breaksWord, Bool.or_eq_false_iff, beq_eq_false_iff_ne] at h
  simp [leave, h, hmark]

/-- Characters that are collected one by one. -/
theorem foldl_feed_collect (state : List Char → State) {l : List Char}
    (h : ∀ d ∈ l, ∀ p seen, next p d (state seen) = (state (d :: seen), []))
    (position : Position) (seen : List Char) (emitted : List Lexeme) :
    ∃ position', l.foldl Progress.feed ⟨position, state seen, emitted⟩ =
      ⟨position', state (l.reverse ++ seen), emitted⟩ := by
  induction l generalizing position seen with
  | nil => exact ⟨position, rfl⟩
  | cons d l ih =>
    have hd := h d (List.mem_cons_self ..)
    obtain ⟨position', hfold⟩ := ih (fun e he ↦ h e (List.mem_cons_of_mem d he))
      (position.advance d) (d :: seen)
    refine ⟨position', ?_⟩
    have hfeed : Progress.feed ⟨position, state seen, emitted⟩ d =
        ⟨position.advance d, state (d :: seen), emitted⟩ := by
      simp [Progress.feed, hd]
    rw [List.foldl_cons, hfeed, hfold]
    simp

/-- The token that a word is read as. -/
def wordToken (text : String) : Token := (Reader.ofWord 0 text .start).bare

theorem bare_ofWord (ref : Ref) (text : String) (pos : Position) :
    (Reader.ofWord ref text pos).bare = wordToken text := by
  unfold wordToken Reader.ofWord
  split <;> rfl

/-- A word is read as the token of that word. -/
theorem reads_word {l : List Char} (h : IsWord l) : Reads l [wordToken (String.ofList l)] := by
  cases l with
  | nil => exact False.elim h
  | cons c rest =>
    obtain ⟨hmark, hbreaks⟩ := h
    intro p hp
    obtain ⟨position, state, emitted⟩ := p
    obtain rfl : state = .default := hp
    have hfeed : Progress.feed ⟨position, .default, emitted⟩ c =
        ⟨position.advance c, .word position [c], emitted⟩ := by
      simp [Progress.feed, next,
        leave_of_breaksWord_eq_false (hbreaks c (List.mem_cons_self ..)) hmark]
    obtain ⟨position', hfold⟩ := foldl_feed_collect (l := rest) (.word position)
      (fun d hd p seen ↦ by simp [next, hbreaks d (List.mem_cons_of_mem c hd)])
      (position.advance c) [c] emitted
    refine ⟨[⟨.word, String.ofList (c :: rest), "", "", position⟩], ?_, ?_⟩
    · rw [List.foldl_cons, hfeed, hfold]
      exact .inr ⟨position, _, rfl, by simp [collected]⟩
    · show [Token.bare (Reader.ofWord 0 _ position)] = _
      rw [bare_ofWord]

/-! ### Readable words

A text that is read as one word, itself, is made of the characters of a word only: every word that
is emitted is shorter than what was fed, and so is a word that is under way, unless it took in
everything. -/

/-- What is known of the words of a scan after a text was fed from the start. -/
structure Progress.Bounded (s : Progress) (fed : List Char) : Prop where
  emitted : ∀ x ∈ s.emitted, x.kind = .word → x.text.toList.length < fed.length
  open_word : ∀ start seen, s.state = .word start seen →
    seen.length < fed.length ∨ seen = fed.reverse ∧ IsWord fed

/-- What comes out between two units is no word, and a word only begins there with a character of
a word. -/
theorem leave_no_word (p : Position) (c : Char) :
    (∀ x ∈ (leave p c).2, x.kind ≠ .word) ∧
      ∀ start seen, (leave p c).1 = .word start seen →
        seen = [c] ∧ c ≠ charMark ∧ breaksWord c = false := by
  generalize hr : leave p c = r
  unfold leave at hr
  split_ifs at hr with h1 h2 h3 h4 h5 h6 h7 h8 h9 h10 <;> subst hr
  case neg =>
    refine ⟨by simp, fun start seen h ↦ ?_⟩
    obtain ⟨-, rfl⟩ := State.word.inj h
    refine ⟨rfl, h5, ?_⟩
    simp only [breaksWord, Bool.or_eq_false_iff, beq_eq_false_iff_ne]
    simp [h1, h2, h3, h4, h6, h7, h8, h9, h10]
  all_goals exact ⟨by simp, fun start seen h ↦ by cases h⟩

/-- A step that has to do with no word. -/
def NoWord (r : State × List Lexeme) : Prop :=
  (∀ x ∈ r.2, x.kind ≠ .word) ∧ ∀ start seen, r.1 ≠ .word start seen

theorem noWord_extendMode (start : Position) (seen : List Char) (c : Char) :
    NoWord (extendMode start seen c) := by
  unfold extendMode
  split_ifs <;> simp [NoWord]

theorem noWord_extendComment (start : Position) (count matched : Nat) (c : Char) :
    NoWord (extendComment start count matched c, []) := by
  unfold extendComment
  split_ifs <;> simp [NoWord]

/-- Steps within anything but a word or a line comment. -/
theorem noWord_next (p : Position) (c : Char) {state : State} (hdefault : state ≠ .default)
    (hword : ∀ start seen, state ≠ .word start seen) (hcomment : state ≠ .lineComment) :
    NoWord (next p c state) := by
  cases state with
  | default => exact absurd rfl hdefault
  | word start seen => exact absurd rfl (hword start seen)
  | lineComment => exact absurd rfl hcomment
  | tildes start count =>
    rw [next]
    split_ifs <;> simp [NoWord]
  | blockComment start count matched => exact noWord_extendComment start count matched c
  | hash start =>
    rw [next]
    split_ifs
    · simp [NoWord]
    · simp [NoWord]
    · exact noWord_extendMode start [] c
  | mode start seen => exact noWord_extendMode start seen c
  | string start mode mark seen =>
    rw [next]
    split_ifs <;> simp [NoWord]
  | stringEscape start mode mark seen =>
    rw [next]
    split <;> simp [NoWord]
  | char start =>
    rw [next]
    split_ifs <;> simp [NoWord]
  | charEscape start => simp [next, NoWord]
  | charEnd start r =>
    rw [next]
    split_ifs <;> simp [NoWord]
  | failed e => simp [next, NoWord]

/-- Words come out of open words only, and open words of the characters of a word. -/
theorem next_words (p : Position) (c : Char) (state : State) :
    (∀ x ∈ (next p c state).2, x.kind = .word →
      ∃ start seen, state = .word start seen ∧ x.text = collected seen) ∧
    ∀ start seen, (next p c state).1 = .word start seen → breaksWord c = false ∧
      (seen = [c] ∧ c ≠ charMark ∨ ∃ before, state = .word start before ∧ seen = c :: before) := by
  obtain ⟨hunits, hopen⟩ := leave_no_word p c
  have hleave : ∀ start seen, (leave p c).1 = .word start seen → breaksWord c = false ∧
      (seen = [c] ∧ c ≠ charMark ∨ ∃ before, state = .word start before ∧ seen = c :: before) := by
    intro start seen h
    obtain ⟨rfl, hmark, hbreaks⟩ := hopen start seen h
    exact ⟨hbreaks, .inl ⟨rfl, hmark⟩⟩
  have hno : ∀ x ∈ (leave p c).2, x.kind = .word →
      ∃ start seen, state = .word start seen ∧ x.text = collected seen :=
    fun x hx hword ↦ absurd hword (hunits x hx)
  by_cases hdefault : state = .default
  · subst hdefault
    exact ⟨hno, hleave⟩
  by_cases hcomment : state = .lineComment
  · subst hcomment
    by_cases hc : c = '\n'
    · simp only [next, if_pos hc]
      exact ⟨hno, hleave⟩
    · simp only [next, if_neg hc]
      exact ⟨fun x hx ↦ absurd hx List.not_mem_nil, fun start seen h ↦ by cases h⟩
  by_cases hword : ∃ start seen, state = .word start seen
  · obtain ⟨start, seen, rfl⟩ := hword
    by_cases hbreaks : breaksWord c = true
    · simp only [next, if_pos hbreaks]
      refine ⟨fun x hx hword ↦ ?_, hleave⟩
      rcases List.mem_cons.mp hx with rfl | hx
      · exact ⟨start, seen, rfl, rfl⟩
      · exact hno x hx hword
    · simp only [next, if_neg hbreaks]
      refine ⟨fun x hx ↦ absurd hx List.not_mem_nil, fun start' seen' h ↦ ?_⟩
      obtain ⟨rfl, rfl⟩ := State.word.inj h
      exact ⟨Bool.eq_false_iff.mpr hbreaks, .inr ⟨seen, rfl, rfl⟩⟩
  · obtain ⟨hquiet, hclosed⟩ := noWord_next p c hdefault
      (fun start seen h ↦ hword ⟨start, seen, h⟩) hcomment
    exact ⟨fun x hx h ↦ absurd h (hquiet x hx), fun start seen h ↦ absurd h (hclosed start seen)⟩

/-- One character more: all words but the open one are shorter than what was fed, and the open one
may be all of it. -/
theorem Progress.Bounded.feed {s : Progress} {fed : List Char} (h : s.Bounded fed) (c : Char) :
    (s.feed c).Bounded (fed ++ [c]) := by
  obtain ⟨hunits, hopen⟩ := next_words s.position c s.state
  refine ⟨fun x hx hword ↦ ?_, fun start seen hstate ↦ ?_⟩
  · rw [List.length_append]
    rcases List.mem_append.mp hx with hx | hx
    · obtain ⟨start, seen, hstate, htext⟩ := hunits x (List.mem_reverse.mp hx) hword
      rw [htext, collected, String.toList_ofList, List.length_reverse]
      rcases h.open_word start seen hstate with hlt | ⟨rfl, -⟩
      · exact hlt.trans_le (Nat.le_add_right ..)
      · simp
    · exact (h.emitted x hx hword).trans_le (Nat.le_add_right ..)
  · obtain ⟨hbreaks, ⟨rfl, hmark⟩ | ⟨before, hbefore, rfl⟩⟩ := hopen start seen hstate
    · rcases List.eq_nil_or_concat fed with rfl | ⟨front, d, rfl⟩
      · exact .inr ⟨rfl, hmark, by simpa using hbreaks⟩
      · exact .inl (by simp)
    · rcases h.open_word start before hbefore with hlt | ⟨rfl, hword⟩
      · exact .inl (by simpa using hlt)
      · refine .inr ⟨by simp, ?_⟩
        cases fed with
        | nil => exact False.elim hword
        | cons d rest =>
          refine ⟨hword.1, fun e he ↦ ?_⟩
          rcases List.mem_append.mp (show e ∈ (d :: rest) ++ [c] from he) with he | he
          · exact hword.2 e he
          · rw [List.mem_singleton.mp he]
            exact hbreaks

theorem bounded_foldl (text : List Char) :
    (text.foldl Progress.feed .start).Bounded text := by
  induction text using List.reverseRecOn with
  | nil => exact ⟨fun x hx ↦ absurd hx List.not_mem_nil, fun start seen h ↦ by cases h⟩
  | append_singleton text c ih =>
    rw [List.foldl_append]
    exact ih.feed c

theorem length_dropMark_le (text : List Char) :
    (Text.Source.dropMark text).length ≤ text.length := by
  unfold Text.Source.dropMark
  split
  · split_ifs <;> simp
  · simp

/-- The units of a text are those emitted and those at its end. -/
theorem exists_finish_of_read {source : List Char} {units : List Lexeme}
    (h : Lexeme.read source = .ok units) : ∃ ends,
    finish (source.foldl Progress.feed .start).position
      (source.foldl Progress.feed .start).state = .ok ends ∧
    units = (source.foldl Progress.feed .start).emitted.reverse ++ ends := by
  unfold Lexeme.read scan Progress.outcome at h
  cases hfinish : finish (source.foldl Progress.feed .start).position
      (source.foldl Progress.feed .start).state with
  | ok ends =>
    rw [hfinish] at h
    exact ⟨ends, rfl, (Except.ok.inj h).symm⟩
  | error e =>
    rw [hfinish] at h
    cases h

theorem finish_words {p : Position} {state : State} {ends : List Lexeme}
    (h : finish p state = .ok ends) {x : Lexeme} (hx : x ∈ ends) (hword : x.kind = .word) :
    ∃ start seen, state = .word start seen ∧ x.text = collected seen := by
  cases state with
  | word start seen =>
    cases h
    rcases List.mem_pair.mp hx with rfl | rfl
    · exact ⟨start, seen, rfl, rfl⟩
    · cases hword
  | default =>
    cases h
    rw [List.mem_singleton.mp hx] at hword
    cases hword
  | lineComment =>
    cases h
    rw [List.mem_singleton.mp hx] at hword
    cases hword
  | _ => cases h

/-- A text that is read as one word, itself, has the characters of a word. -/
theorem isWord_of_isOneWord {text : String} (h : isOneWord text = true) : IsWord text.toList := by
  have hread : ∃ units, Lexeme.read (Text.Source.ofString text) = .ok units ∧
      ∃ x ∈ units, x.kind = .word ∧ x.text = text := by
    unfold isOneWord at h
    split at h
    · rename_i unit last hread
      simp only [Bool.and_eq_true, beq_iff_eq] at h
      exact ⟨_, hread, unit, List.mem_cons_self .., h.1⟩
    · cases h
  obtain ⟨units, hread, x, hx, hword, rfl⟩ := hread
  have hlength : (Text.Source.ofString x.text).length ≤ x.text.toList.length :=
    length_dropMark_le x.text.toList
  have hbounded := bounded_foldl (Text.Source.ofString x.text)
  obtain ⟨ends, hfinish, rfl⟩ := exists_finish_of_read hread
  rcases List.mem_append.mp hx with hx | hx
  · have hlt := hbounded.emitted x (List.mem_reverse.mp hx) hword
    omega
  · obtain ⟨start, seen, hstate, htext⟩ := finish_words hfinish hx hword
    have hseen : x.text.toList = seen.reverse := by
      rw [htext, collected, String.toList_ofList]
    rcases hbounded.open_word start seen hstate with hlt | ⟨hall, hsource⟩
    · rw [hseen, List.length_reverse] at hlength
      omega
    · rw [hseen, hall, List.reverse_reverse]
      exact hsource

/-! ### Characters and strings -/

/-- From between two units, a text that begins there and ends in one unit. -/
theorem rests_of_foldl {text : List Char} {tokens : List Token} (unit : Position → Lexeme)
    (hfold : ∀ position emitted, ∃ position',
      text.foldl Progress.feed ⟨position, .default, emitted⟩ =
        ⟨position', .default, unit position :: emitted⟩)
    (htokens : ∀ position, tokensOf [unit position] = tokens) : Rests text tokens := by
  intro p hp
  obtain ⟨position, state, emitted⟩ := p
  obtain rfl : state = .default := hp
  obtain ⟨position', heq⟩ := hfold position emitted
  refine ⟨[unit position], ?_, ?_, htokens position⟩
  · rw [heq]
  · rw [heq]
    rfl

/-- What a character is written as is read as that character. -/
theorem foldl_feed_charBody (c : Char) (position start : Position) (emitted : List Lexeme) :
    ∃ position', (Value.charBody c).toList.foldl Progress.feed ⟨position, .char start, emitted⟩ =
      ⟨position', .charEnd start c, emitted⟩ := by
  unfold Value.charBody
  split
  iterate 5 exact ⟨_, rfl⟩
  rename_i hslash
  split_ifs with hmark
  · subst hmark
    exact ⟨_, rfl⟩
  · refine ⟨position.advance c, ?_⟩
    simp [Progress.feed, next, show c ≠ '\\' from hslash]

theorem rests_charText (c : Char) : Rests (Value.charText c).toList [.done (.char c) none] := by
  refine rests_of_foldl (fun p ↦ ⟨.char, c.toString, "", charMark.toString, p⟩) ?_ ?_
  · intro position emitted
    obtain ⟨position', hbody⟩ :=
      foldl_feed_charBody c (position.advance charMark) position emitted
    refine ⟨position'.advance charMark, ?_⟩
    have htext : (Value.charText c).toList =
        charMark :: ((Value.charBody c).toList ++ [charMark]) := by
      simp [Value.charText, Value.charMark, charMark]
    have hopen : Progress.feed ⟨position, .default, emitted⟩ charMark =
        ⟨position.advance charMark, .char position, emitted⟩ := rfl
    rw [htext, List.foldl_cons, hopen, List.foldl_append, hbody]
    rfl
  · intro position
    simp [tokensOf, tokenOf, Reader.ofLexeme, Token.bare, Value.bare]

/-- What a character of a string is written as is read as that character. -/
theorem foldl_feed_stringEscape (c : Char) (position start : Position) (seen : List Char)
    (emitted : List Lexeme) : ∃ position',
    (Value.stringEscape c).toList.foldl Progress.feed
        ⟨position, .string start "" '\x22' seen, emitted⟩ =
      ⟨position', .string start "" '\x22' (c :: seen), emitted⟩ := by
  unfold Value.stringEscape
  split
  iterate 8 exact ⟨_, rfl⟩
  rename_i hslash hquote
  refine ⟨position.advance c, ?_⟩
  simp [Progress.feed, next, show c ≠ '\\' from hslash, show c ≠ '\x22' from hquote]

theorem foldl_feed_string (l : List Char) (position start : Position) (seen : List Char)
    (emitted : List Lexeme) : ∃ position',
    (l.flatMap fun c ↦ (Value.stringEscape c).toList).foldl Progress.feed
        ⟨position, .string start "" '\x22' seen, emitted⟩ =
      ⟨position', .string start "" '\x22' (l.reverse ++ seen), emitted⟩ := by
  induction l generalizing position seen with
  | nil => exact ⟨position, rfl⟩
  | cons c l ih =>
    obtain ⟨middle, hescape⟩ := foldl_feed_stringEscape c position start seen emitted
    obtain ⟨position', hrest⟩ := ih middle (c :: seen)
    refine ⟨position', ?_⟩
    rw [List.flatMap_cons, List.foldl_append, hescape, hrest]
    simp

theorem rests_stringText (text : String) :
    Rests (Value.stringText text).toList [.done (.string text) none] := by
  refine rests_of_foldl (fun p ↦ ⟨.string, text, "", "\"", p⟩) ?_ ?_
  · intro position emitted
    obtain ⟨position', hbody⟩ :=
      foldl_feed_string text.toList (position.advance '\x22') position [] emitted
    refine ⟨position'.advance '\x22', ?_⟩
    have htext : (Value.stringText text).toList =
        '\x22' :: ((text.toList.flatMap fun c ↦ (Value.stringEscape c).toList) ++ ['\x22']) := by
      simp [Value.stringText, List.flatMap_map]
    have hopen : Progress.feed ⟨position, .default, emitted⟩ '\x22' =
        ⟨position.advance '\x22', .string position "" '\x22' [], emitted⟩ := rfl
    rw [htext, List.foldl_cons, hopen, List.foldl_append, hbody]
    simp [Progress.feed, next, collected]
  · intro position
    simp [tokensOf, tokenOf, Reader.ofLexeme, Token.bare, Value.bare]

/-! ### Brackets with a mode -/

/-- A mode that can be written is collected after its mark. -/
theorem foldl_feed_mode {m : String} (hempty : m ≠ "") (hmode : isReadableMode m = true)
    (position : Position) (emitted : List Lexeme) : ∃ position',
    ('#' :: m.toList).foldl Progress.feed ⟨position, .default, emitted⟩ =
      ⟨position', .mode position m.toList.reverse, emitted⟩ := by
  simp only [isReadableMode, Bool.and_eq_true, List.all_eq_true, Bool.not_eq_true', bne_iff_ne]
    at hmode
  obtain ⟨hbreaks, hbang⟩ := hmode
  cases hchars : m.toList with
  | nil => exact absurd (String.toList_eq_nil_iff.mp hchars) hempty
  | cons d rest =>
    rw [hchars] at hbreaks hbang
    have hd := hbreaks d (List.mem_cons_self ..)
    have hbang' : d ≠ '!' := fun h ↦ hbang (by rw [h]; rfl)
    have htilde : d ≠ '~' := fun h ↦ by
      rw [h] at hd
      cases hd
    obtain ⟨position', hfold⟩ := foldl_feed_collect (l := rest) (.mode position)
      (fun e he p seen ↦ by simp [next, extendMode, hbreaks e (List.mem_cons_of_mem d he)])
      ((position.advance '#').advance d) [d] emitted
    refine ⟨position', ?_⟩
    have hhash : Progress.feed ⟨position, .default, emitted⟩ '#' =
        ⟨position.advance '#', .hash position, emitted⟩ := rfl
    have hfirst : Progress.feed ⟨position.advance '#', .hash position, emitted⟩ d =
        ⟨(position.advance '#').advance d, .mode position [d], emitted⟩ := by
      simp [Progress.feed, next, extendMode, hbang', htilde, hd]
    rw [List.foldl_cons, hhash, List.foldl_cons, hfirst, hfold, List.reverse_cons]

theorem collected_reverse (text : String) : collected text.toList.reverse = text := by
  rw [collected, List.reverse_reverse, String.ofList_toList]

/-- An opening bracket as it is written, with the mode it may have. -/
theorem rests_moded {c : Char} (hc : isOpening c = true) {m : String}
    (hmode : isReadableMode m = true) :
    Rests (Token.opening c.toString m none).text.toList [.opening c.toString m none] := by
  by_cases hempty : m = ""
  · subst hempty
    have htext : (Token.opening c.toString "" none).text.toList = [c] := by
      simp [Token.text]
    rw [htext]
    exact rests_opening hc
  have htext : (Token.opening c.toString m none).text.toList = '#' :: m.toList ++ [c] := by
    simp [Token.text, hempty]
  rw [htext]
  refine rests_of_foldl (fun p ↦ ⟨.opening, c.toString, m, c.toString, p⟩) ?_ fun _ ↦ rfl
  intro position emitted
  obtain ⟨position', hfold⟩ := foldl_feed_mode hempty hmode position emitted
  refine ⟨position'.advance c, ?_⟩
  have hlast : ∀ seen, Progress.feed ⟨position', .mode position seen, emitted⟩ c =
      ⟨position'.advance c, .default,
        ⟨.opening, c.toString, collected seen, c.toString, position⟩ :: emitted⟩ := by
    intro seen
    rcases isOpening_cases hc with rfl | rfl | rfl <;> rfl
  rw [List.foldl_append, hfold, List.foldl_cons, hlast, collected_reverse, List.foldl_nil]

/-! ### Whole texts -/

theorem Reads.exists_read {text : List Char} {tokens : List Token} (h : Reads text tokens) :
    ∃ units, Lexeme.read text = .ok units ∧ units.filterMap tokenOf = tokens := by
  obtain ⟨units, hsettled, rfl⟩ := h .start rfl
  have hfinish : ∃ ends, finish (text.foldl Progress.feed .start).position
      (text.foldl Progress.feed .start).state = .ok ends ∧
      ((text.foldl Progress.feed .start).emitted.reverse ++ ends).filterMap tokenOf =
        tokensOf units := by
    rw [show Progress.start.emitted = [] from rfl, List.append_nil] at hsettled
    rcases hsettled with ⟨hstate, hemitted⟩ | ⟨start, seen, hstate, rfl⟩
    · rw [hstate, hemitted]
      exact ⟨_, rfl, by simp [tokensOf, tokenOf, Reader.ofLexeme]⟩
    · rw [hstate]
      exact ⟨_, rfl, by simp [tokensOf, tokenOf, Reader.ofLexeme]⟩
  obtain ⟨ends, hends, htokens⟩ := hfinish
  refine ⟨_, ?_, htokens⟩
  rw [Lexeme.read, scan, Progress.outcome, hends]

theorem bare_ofLexeme (ref : Ref) (x : Lexeme) :
    (Reader.ofLexeme ref x).map Token.bare = tokenOf x := by
  unfold tokenOf Reader.ofLexeme
  split
  case h_7 => simp only [Option.map_some, bare_ofWord]
  all_goals rfl

theorem map_bare_ofLexemes (base : Ref) (units : List Lexeme) :
    (Reader.ofLexemes base units).map Token.bare = units.filterMap tokenOf := by
  unfold Reader.ofLexemes
  rw [List.map_filterMap]
  simp only [bare_ofLexeme]
  induction units generalizing base with
  | nil => rfl
  | cons x units ih =>
    rw [List.zipIdx_cons, List.filterMap_cons, List.filterMap_cons, ih]

/-- The tokens of a text come from its units. -/
theorem exists_lexemes {base : Ref} {source : List Char} {tokens : List Token}
    (h : Reader.read base source = .ok tokens) :
    ∃ units, Lexeme.read source = .ok units ∧ Reader.ofLexemes base units = tokens := by
  unfold Reader.read at h
  cases hread : Lexeme.read source with
  | error e =>
    rw [hread] at h
    cases h
  | ok units =>
    rw [hread] at h
    exact ⟨units, rfl, Except.ok.inj h⟩

end TokenLang.Lexeme.Scan

import TokenLang.Proofs.RoundTrip.Lexing
import Mathlib.Data.List.Infix

/-!
How a text divides into units, and where each of them stands. A text is cut from the left into
units, separators and comments until it ends or a unit of it is broken; the rules for the single
pieces say what is written and do not mention the scanner. Every unit of a scan carries the place
of the first character of its piece, a tag included, and so does the fault that ends a scan: the
scanner keeps what was written of the piece it is inside of (`Pending`), and the place behind it.
Main statement: `Lexeme.Scan.scan_positions`.
-/

set_option autoImplicit false
set_option relaxedAutoImplicit false

namespace TokenLang

/-! ### Places -/

/-- The place behind a text: one line for each line break in it, and one column for each character
after the last of them. -/
def Position.behind (before : List Char) : Position :=
  ⟨1 + before.count '\n', 1 + (before.reverse.takeWhile (· != '\n')).length⟩

theorem Position.behind_concat (before : List Char) (c : Char) :
    behind (before ++ [c]) = (behind before).advance c := by
  unfold behind advance
  by_cases hc : c = '\n'
  · subst hc
    simp [Nat.add_assoc]
  · simp [hc, Nat.add_comm]

namespace Lexeme.Scan

/-! ### Pieces of a text -/

/-- A tag, which may be absent, and the characters of its mode. -/
inductive Tag : List Char → List Char → Prop
  | absent : Tag [] []
  | plain {mode : List Char} (hmode : ∀ c ∈ mode, breaksWord c = false)
      (hbang : mode.head? ≠ some '!') : Tag ('#' :: mode) mode
  | marked {mode : List Char} (hmode : ∀ c ∈ mode, breaksWord c = false) :
      Tag ('#' :: '~' :: mode) mode

/-- What is written between two quote marks, and the characters it stands for. -/
inductive Body (mark : Char) : List Char → List Char → Prop
  | nil : Body mark [] []
  | plain {written text : List Char} {c : Char} (h : Body mark written text) (hmark : c ≠ mark)
      (hescape : c ≠ '\\') : Body mark (written ++ [c]) (text ++ [c])
  | escaped {written text : List Char} {c e : Char} (h : Body mark written text)
      (he : escape? c = some e) : Body mark (written ++ ['\\', c]) (text ++ [e])
  | kept {written text : List Char} {c : Char} (h : Body mark written text)
      (he : escape? c = none) : Body mark (written ++ ['\\', c]) (text ++ ['\\', c])

/-- What is written between the marks of a character literal, and its character. -/
inductive Letter : List Char → Char → Prop
  | plain {c : Char} (h : c ≠ '\\') : Letter [c] c
  | escaped (c : Char) : Letter ['\\', c] ((escape? c).getD c)

/-- A unit, its place apart, as it is written in front of `rest`. Only a word depends on what
follows it, as it goes as far as it can. -/
inductive Spelled : Lexeme → List Char → List Char → Prop
  | opening {tag mode rest : List Char} {c : Char} {p : Position} (htag : Tag tag mode)
      (hc : isOpening c = true) :
      Spelled ⟨.opening, c.toString, String.ofList mode, c.toString, p⟩ (tag ++ [c]) rest
  | closing {rest : List Char} {c : Char} {p : Position} (hc : isClosing c = true) :
      Spelled ⟨.closing, c.toString, "", c.toString, p⟩ [c] rest
  | string {tag mode written text rest : List Char} {mark : Char} {p : Position}
      (htag : Tag tag mode) (hmark : isQuoteMark mark = true) (hbody : Body mark written text) :
      Spelled ⟨.string, String.ofList text, String.ofList mode, mark.toString, p⟩
        (tag ++ mark :: written ++ [mark]) rest
  | char {written rest : List Char} {c : Char} {p : Position} (hletter : Letter written c) :
      Spelled ⟨.char, c.toString, "", charMark.toString, p⟩
        (charMark :: written ++ [charMark]) rest
  | word {l rest : List Char} {p : Position} (hword : IsWord l)
      (hrest : ∀ c ∈ rest.head?, breaksWord c = true) :
      Spelled ⟨.word, String.ofList l, "", "", p⟩ l rest
  | quote {rest : List Char} {p : Position} : Spelled ⟨.quote, ":", "", "", p⟩ [':'] rest
  | unquote {rest : List Char} {p : Position} : Spelled ⟨.unquote, "@", "", "", p⟩ ['@'] rest

/-- What closes a comment that `n` tildes opened. -/
def closer (n : Nat) : List Char := '/' :: List.replicate n '~'

/-- What begins a comment that ends with its line. -/
inductive LineMark : List Char → Prop
  | semicolon : LineMark [';']
  | hash : LineMark ['#', '!']

/-- A separator or a comment in front of `rest`. -/
inductive Skipped : List Char → List Char → Prop
  | separator {rest : List Char} {c : Char} (hc : isSeparator c = true) : Skipped [c] rest
  | line {mark body rest : List Char} (hmark : LineMark mark) (hbody : '\n' ∉ body)
      (hrest : ∀ c ∈ rest.head?, c = '\n') : Skipped (mark ++ body) rest
  /-- The comment ends where its closing mark is complete for the first time. -/
  | block {n : Nat} {body rest : List Char} (hn : 0 < n)
      (hfirst : ¬ closer n <:+: (body ++ closer n).dropLast) :
      Skipped (List.replicate n '~' ++ '/' :: (body ++ closer n)) rest

/-- Everything from the first character of a piece that is no unit and no comment. -/
inductive Broken : Fault → List Char → Prop
  | string {tag mode written text : List Char} {mark : Char} (htag : Tag tag mode)
      (hmark : isQuoteMark mark = true) (hbody : Body mark written text) :
      Broken .unterminatedString (tag ++ mark :: written)
  | stringEscape {tag mode written text : List Char} {mark : Char} (htag : Tag tag mode)
      (hmark : isQuoteMark mark = true) (hbody : Body mark written text) :
      Broken .unterminatedString (tag ++ mark :: written ++ ['\\'])
  | char : Broken .unterminatedChar [charMark]
  | charEscape : Broken .unterminatedChar [charMark, '\\']
  | charEnd {written rest : List Char} {c : Char} (hletter : Letter written c)
      (hrest : rest.head? ≠ some charMark) : Broken .unterminatedChar (charMark :: written ++ rest)
  | comment {n : Nat} {body : List Char} (hn : 0 < n) (hopen : ¬ closer n <:+: body) :
      Broken .unterminatedComment (List.replicate n '~' ++ '/' :: body)
  | tildes {n : Nat} {rest : List Char} (hn : 0 < n)
      (hrest : ∀ c ∈ rest.head?, c ≠ '~' ∧ c ≠ '/') :
      Broken .unexpectedChar (List.replicate n '~' ++ rest)
  /-- The tag goes as far as it can, so the tilde of a marked one is part of it. -/
  | mode {tag mode rest : List Char} (htag : Tag tag mode) (hpresent : tag ≠ [])
      (hrest : ∀ c ∈ rest.head?, breaksWord c = true ∧ isOpening c = false ∧
        isQuoteMark c = false ∧ (tag = ['#'] → c ≠ '~')) :
      Broken .danglingMode (tag ++ rest)

/-- How a text that stands behind `before` divides: its units with their offsets, and the offset
and the error of the piece that is broken, if one is. -/
inductive Divided : List Char → List Char → List (Nat × Lexeme) → Option (Nat × Error) → Prop
  | finish {before : List Char} :
      Divided before [] [(before.length, ⟨.finish, "", "", "", .behind before⟩)] none
  | skip {before text rest : List Char} {units : List (Nat × Lexeme)}
      {error : Option (Nat × Error)} (htext : Skipped text rest)
      (hrest : Divided (before ++ text) rest units error) :
      Divided before (text ++ rest) units error
  | unit {before text rest : List Char} {x : Lexeme} {units : List (Nat × Lexeme)}
      {error : Option (Nat × Error)} (htext : Spelled x text rest)
      (hplace : x.position = .behind before)
      (hrest : Divided (before ++ text) rest units error) :
      Divided before (text ++ rest) ((before.length, x) :: units) error
  | broken {before source : List Char} {fault : Fault} (hsource : Broken fault source) :
      Divided before source [] (some (before.length, ⟨fault, .behind before⟩))

/-! ### The piece under way -/

/-- A comment body in which the mark that closes `n` tildes is not complete, `matched` characters
into a closing mark. -/
def Unclosed (n matched : Nat) (body : List Char) : Prop :=
  ¬ closer n <:+: body ∧ ∀ k, closer k <:+ body ↔ matched = k + 1

/-- What was written of the piece that the scanner is inside of, from the place `start` on. -/
def Pending (start : Position) (text : List Char) : State → Prop
  | .default => text = []
  | .word p seen => p = start ∧ text = seen.reverse ∧ IsWord text
  | .lineComment => ∃ mark body, LineMark mark ∧ '\n' ∉ body ∧ text = mark ++ body
  | .tildes p n => p = start ∧ 0 < n ∧ text = List.replicate n '~'
  | .blockComment p n matched => p = start ∧ 0 < n ∧ ∃ body, Unclosed n matched body ∧
      text = List.replicate n '~' ++ '/' :: body
  | .hash p => p = start ∧ text = ['#']
  | .mode p seen => p = start ∧ Tag text seen.reverse ∧ 1 < text.length
  | .string p mode mark seen => p = start ∧ isQuoteMark mark = true ∧ ∃ tag tagged written,
      Tag tag tagged ∧ mode = String.ofList tagged ∧ Body mark written seen.reverse ∧
        text = tag ++ mark :: written
  | .stringEscape p mode mark seen => p = start ∧ isQuoteMark mark = true ∧
      ∃ tag tagged written, Tag tag tagged ∧ mode = String.ofList tagged ∧
        Body mark written seen.reverse ∧ text = tag ++ mark :: written ++ ['\\']
  | .char p => p = start ∧ text = [charMark]
  | .charEscape p => p = start ∧ text = [charMark, '\\']
  | .charEnd p c => p = start ∧ ∃ written, Letter written c ∧ text = charMark :: written
  | .failed e => e.position = start ∧ ∀ rest, Broken e.fault (text ++ rest)

/-- A piece that is written in full, with the unit it gives if it gives one. -/
inductive Piece (start : Position) : List Lexeme → List Char → List Char → Prop
  | skipped {text rest : List Char} (h : Skipped text rest) : Piece start [] text rest
  | unit {x : Lexeme} {text rest : List Char} (h : Spelled x text rest)
      (hplace : x.position = start) : Piece start [x] text rest

/-- What a step came to, with `text` written from `start` on: it is still inside of the piece, or
has completed it. -/
inductive Moved (start : Position) (text : List Char) : State × List Lexeme → Prop
  | inside {state : State} (h : Pending start text state) : Moved start text (state, [])
  | complete {units : List Lexeme} (h : ∀ rest, Piece start units text rest) :
      Moved start text (.default, units)

/-! ### Tags and closing marks -/

theorem Tag.concat {written mode : List Char} (h : Tag written mode) (hlength : 1 < written.length)
    {c : Char} (hc : breaksWord c = false) : Tag (written ++ [c]) (mode ++ [c]) := by
  have hall {l : List Char} (hl : ∀ d ∈ l, breaksWord d = false) :
      ∀ d ∈ l ++ [c], breaksWord d = false := by
    simpa [or_imp, forall_and, hc] using hl
  cases h with
  | absent => simp at hlength
  | plain hmode hbang =>
    have hhead : (mode ++ [c]).head? ≠ some '!' := by
      rwa [List.head?_append_of_ne_nil]
      rintro rfl
      simp at hlength
    exact Tag.plain (hall hmode) hhead
  | marked hmode => exact Tag.marked (hall hmode)

theorem concat_suffix_concat {l m : List Char} {c d : Char} :
    l ++ [c] <:+ m ++ [d] ↔ c = d ∧ l <:+ m := by
  rw [← List.reverse_prefix, List.reverse_concat, List.reverse_concat, List.cons_prefix_cons,
    List.reverse_prefix]

theorem closer_zero_suffix_concat {body : List Char} {c : Char} :
    closer 0 <:+ body ++ [c] ↔ c = '/' := by
  have hcloser : closer 0 = [] ++ ['/'] := rfl
  rw [hcloser, concat_suffix_concat, eq_comm]
  simp

theorem closer_succ (k : Nat) : closer (k + 1) = closer k ++ ['~'] := by
  simp [closer, List.replicate_succ']

theorem closer_succ_suffix_concat {k : Nat} {body : List Char} {c : Char} :
    closer (k + 1) <:+ body ++ [c] ↔ c = '~' ∧ closer k <:+ body := by
  rw [closer_succ, concat_suffix_concat, eq_comm]

theorem Unclosed.nil {n : Nat} : Unclosed n 0 [] := by
  refine ⟨?_, fun k ↦ ?_⟩
  · simp [closer]
  · simp [closer]

/-- A character that does not complete the closing mark of `n + 1` tildes leaves the comment
open. -/
theorem Unclosed.concat {n matched matched' : Nat} {body : List Char} {c : Char}
    (h : Unclosed (n + 1) matched body) (hopen : ¬ (c = '~' ∧ matched = n + 1))
    (hslash : c = '/' ↔ matched' = 1)
    (htilde : ∀ k, c = '~' ∧ matched = k + 1 ↔ matched' = k + 2) :
    Unclosed (n + 1) matched' (body ++ [c]) := by
  refine ⟨?_, fun k ↦ ?_⟩
  · rw [List.infix_concat_iff, closer_succ_suffix_concat, h.2]
    rintro (hsuffix | hinfix)
    · exact hopen hsuffix
    · exact h.1 hinfix
  · cases k with
    | zero => rw [closer_zero_suffix_concat, hslash]
    | succ k => rw [closer_succ_suffix_concat, h.2, htilde]

/-! ### One character -/

section Step

variable {start : Position} {text : List Char} {c : Char}

/-- The step from between two units begins a piece with its character, or is done with it. -/
theorem leave_moved (start : Position) (c : Char) : Moved start [c] (leave start c) := by
  unfold leave
  split_ifs with hseparator hopening hclosing hmark hchar hquote hunquote hsemicolon hhash htilde
  · exact .complete fun _ ↦ .skipped (.separator hseparator)
  · exact .complete fun _ ↦ .unit (.opening .absent hopening) rfl
  · exact .complete fun _ ↦ .unit (.closing hclosing) rfl
  · exact .inside ⟨rfl, hmark, [], [], [], .absent, rfl, .nil, rfl⟩
  · exact .inside ⟨rfl, by rw [hchar]⟩
  · subst hquote
    exact .complete fun _ ↦ .unit .quote rfl
  · subst hunquote
    exact .complete fun _ ↦ .unit .unquote rfl
  · subst hsemicolon
    exact .inside ⟨[';'], [], .semicolon, List.not_mem_nil, rfl⟩
  · exact .inside ⟨rfl, by rw [hhash]⟩
  · exact .inside ⟨rfl, Nat.one_pos, by rw [htilde]; rfl⟩
  · have hword : breaksWord c = false := by
      simp_all [breaksWord]
    exact .inside ⟨rfl, rfl, hchar, by simpa using hword⟩

/-- A tag goes on, or ends at a bracket, at the beginning of a quoted text or in a fault. -/
theorem extendMode_moved {seen : List Char} (htag : Tag text seen.reverse) (hpresent : text ≠ [])
    (hgrow : breaksWord c = false → Tag (text ++ [c]) (c :: seen).reverse)
    (htilde : text = ['#'] → c ≠ '~') :
    Moved start (text ++ [c]) (extendMode start seen c) := by
  unfold extendMode
  split_ifs with hgoes hopening hmark
  · refine .inside ⟨rfl, hgrow (by simpa using hgoes), ?_⟩
    simpa using List.length_pos_iff.mpr hpresent
  · exact .complete fun _ ↦ .unit (.opening htag hopening) rfl
  · exact .inside ⟨rfl, hmark, text, seen.reverse, [], htag, rfl, .nil, rfl⟩
  · refine .inside ⟨rfl, fun rest ↦ ?_⟩
    rw [List.append_assoc]
    refine .mode htag hpresent fun d hd ↦ ?_
    obtain rfl : c = d := by simpa using hd
    exact ⟨by simpa using hgoes, by simpa using hopening, by simpa using hmark, htilde⟩

/-- A comment goes on, or is closed by a mark with as many tildes as the one that opened it. -/
theorem extendComment_moved {n matched : Nat} {body : List Char} (hn : 0 < n)
    (hbody : Unclosed n matched body) :
    Moved start (List.replicate n '~' ++ '/' :: body ++ [c])
      (extendComment start n matched c, []) := by
  obtain ⟨n, rfl⟩ := Nat.exists_eq_succ_of_ne_zero hn.ne'
  have hinside {matched' : Nat} (h : Unclosed (n + 1) matched' (body ++ [c])) :
      Moved start (List.replicate (n + 1) '~' ++ '/' :: body ++ [c])
        (.blockComment start (n + 1) matched', []) :=
    .inside ⟨rfl, hn, body ++ [c], h, by simp⟩
  unfold extendComment
  split_ifs with hslash htilde hlast
  · subst hslash
    exact hinside (hbody.concat (by simp) (by simp) (by simp))
  · obtain ⟨rfl, -⟩ : c = '~' ∧ 0 < matched := by simpa using htilde
    obtain ⟨inner, hinner⟩ : closer (n + 1) <:+ body ++ ['~'] := by
      rw [closer_succ_suffix_concat, hbody.2]
      exact ⟨rfl, hlast⟩
    have hfirst : ¬ closer (n + 1) <:+: (inner ++ closer (n + 1)).dropLast := by
      rw [hinner, List.dropLast_concat]
      exact hbody.1
    rw [List.append_assoc, List.cons_append, ← hinner]
    exact .complete fun _ ↦ .skipped (.block hn hfirst)
  · obtain ⟨rfl, hmatched⟩ : c = '~' ∧ 0 < matched := by simpa using htilde
    exact hinside (hbody.concat (by simpa using hlast) (by simpa using hmatched.ne') (by simp))
  · have hnone (k : Nat) : ¬ (c = '~' ∧ matched = k + 1) := by
      rintro ⟨rfl, rfl⟩
      simp at htilde
    exact hinside (hbody.concat (hnone n) (by simpa using hslash) fun k ↦ by simpa using hnone k)

section Following

variable {p : Position}

theorem tildes_moved {n : Nat} (h : Pending start text (.tildes p n)) (here : Position) :
    Moved start (text ++ [c]) (next here c (.tildes p n)) := by
  obtain ⟨rfl, hn, rfl⟩ := h
  rw [next]
  split_ifs with htilde hslash
  · exact .inside ⟨rfl, Nat.succ_pos n, by rw [htilde, List.replicate_succ']⟩
  · exact .inside ⟨rfl, hn, [], .nil, by rw [hslash]⟩
  · refine .inside ⟨rfl, fun rest ↦ ?_⟩
    rw [List.append_assoc]
    exact .tildes hn (by simpa using ⟨htilde, hslash⟩)

theorem hash_moved (h : Pending start text (.hash p)) (here : Position) :
    Moved start (text ++ [c]) (next here c (.hash p)) := by
  obtain ⟨rfl, rfl⟩ := h
  rw [next]
  split_ifs with hbang htilde
  · exact .inside ⟨['#', '!'], [], .hash, List.not_mem_nil, by rw [hbang]; rfl⟩
  · exact .inside ⟨rfl, by rw [htilde]; exact .marked (by simp), by simp⟩
  · have htag : Tag ['#'] ([] : List Char).reverse := .plain (by simp) (by simp)
    refine extendMode_moved htag (by simp) (fun hbreaks ↦ ?_) fun _ ↦ htilde
    exact .plain (by simpa using hbreaks) (by simpa using hbang)

theorem mode_moved {seen : List Char} (h : Pending start text (.mode p seen)) :
    Moved start (text ++ [c]) (extendMode p seen c) := by
  obtain ⟨rfl, htag, hlength⟩ := h
  refine extendMode_moved htag ?_ (fun hbreaks ↦ ?_) ?_
  · rintro rfl
    simp at hlength
  · rw [List.reverse_cons]
    exact htag.concat hlength hbreaks
  · rintro rfl
    simp at hlength

theorem string_moved {mode : String} {mark : Char} {seen : List Char}
    (h : Pending start text (.string p mode mark seen)) (here : Position) :
    Moved start (text ++ [c]) (next here c (.string p mode mark seen)) := by
  obtain ⟨rfl, hmark, tag, tagged, written, htag, rfl, hbody, rfl⟩ := h
  rw [next]
  split_ifs with hend hescape
  · subst hend
    exact .complete fun _ ↦ .unit (.string htag hmark hbody) rfl
  · exact .inside ⟨rfl, hmark, tag, tagged, written, htag, rfl, hbody, by rw [hescape]⟩
  · refine .inside ⟨rfl, hmark, tag, tagged, written ++ [c], htag, rfl, ?_, by simp⟩
    rw [List.reverse_cons]
    exact .plain hbody hend hescape

theorem stringEscape_moved {mode : String} {mark : Char} {seen : List Char}
    (h : Pending start text (.stringEscape p mode mark seen)) (here : Position) :
    Moved start (text ++ [c]) (next here c (.stringEscape p mode mark seen)) := by
  obtain ⟨rfl, hmark, tag, tagged, written, htag, rfl, hbody, rfl⟩ := h
  rw [next]
  cases hescape : escape? c with
  | some e =>
    refine .inside ⟨rfl, hmark, tag, tagged, written ++ ['\\', c], htag, rfl, ?_, by simp⟩
    rw [List.reverse_cons]
    exact .escaped hbody hescape
  | none =>
    refine .inside ⟨rfl, hmark, tag, tagged, written ++ ['\\', c], htag, rfl, ?_, by simp⟩
    simpa using Body.kept hbody hescape

theorem charEnd_moved {r : Char} (h : Pending start text (.charEnd p r)) (here : Position) :
    Moved start (text ++ [c]) (next here c (.charEnd p r)) := by
  obtain ⟨rfl, written, hletter, rfl⟩ := h
  rw [next]
  split_ifs with hend
  · rw [hend]
    exact .complete fun _ ↦ .unit (.char hletter) rfl
  · refine .inside ⟨rfl, fun rest ↦ ?_⟩
    rw [List.append_assoc]
    exact .charEnd hletter (by simpa using hend)

end Following

end Step

/-- A character goes on with the piece under way, completes it, or shows that it was complete
already and stands at the beginning of the next one. Only words and line comments go on until a
character that is not theirs. -/
theorem next_moved {before text : List Char} {state : State} (c : Char)
    (h : Pending (.behind before) text state) :
    Moved (.behind before) (text ++ [c]) (next (.behind (before ++ text)) c state) ∨
      ∃ units, (∀ rest, Piece (.behind before) units text (c :: rest)) ∧
        next (.behind (before ++ text)) c state =
          ((leave (.behind (before ++ text)) c).1,
            units ++ (leave (.behind (before ++ text)) c).2) := by
  cases state with
  | default =>
    obtain rfl : text = [] := h
    rw [List.append_nil]
    exact .inl (leave_moved _ c)
  | word p seen =>
    obtain ⟨rfl, rfl, hword⟩ := h
    rw [next]
    split_ifs with hbreaks
    · exact .inr ⟨[_], fun rest ↦ .unit (.word hword (by simpa using hbreaks)) rfl, rfl⟩
    · exact .inl (.inside ⟨rfl, by simp, hword.concat (by simpa using hbreaks)⟩)
  | lineComment =>
    obtain ⟨mark, body, hmark, hbody, rfl⟩ := h
    rw [next]
    split_ifs with hbreak
    · exact .inr ⟨[], fun rest ↦ .skipped (.line hmark hbody (by simpa using hbreak)), rfl⟩
    · refine .inl (.inside ⟨mark, body ++ [c], hmark, ?_, List.append_assoc ..⟩)
      simpa [hbody] using Ne.symm hbreak
  | tildes p n => exact .inl (tildes_moved h _)
  | blockComment p n matched =>
    obtain ⟨rfl, hn, body, hbody, rfl⟩ := h
    exact .inl (extendComment_moved hn hbody)
  | hash p => exact .inl (hash_moved h _)
  | mode p seen => exact .inl (mode_moved h)
  | string p mode mark seen => exact .inl (string_moved h _)
  | stringEscape p mode mark seen => exact .inl (stringEscape_moved h _)
  | char p =>
    obtain ⟨rfl, rfl⟩ := h
    refine .inl ?_
    rw [next]
    split_ifs with hescape
    · exact .inside ⟨rfl, by rw [hescape]; rfl⟩
    · exact .inside ⟨rfl, [c], .plain hescape, rfl⟩
  | charEscape p =>
    obtain ⟨rfl, rfl⟩ := h
    exact .inl (.inside ⟨rfl, ['\\', c], .escaped c, rfl⟩)
  | charEnd p r => exact .inl (charEnd_moved h _)
  | failed e =>
    obtain ⟨hplace, hbroken⟩ := h
    refine .inl (.inside ⟨hplace, fun rest ↦ ?_⟩)
    rw [List.append_assoc]
    exact hbroken _

/-! ### Whole texts -/

/-- At the end of the text the piece under way is complete, or it is broken. -/
theorem finish_pending {start : Position} {text : List Char} {state : State} (p : Position)
    (h : Pending start text state) :
    (text = [] ∧ finish p state = .ok [⟨.finish, "", "", "", p⟩]) ∨
      (∃ units, Piece start units text [] ∧
        finish p state = .ok (units ++ [⟨.finish, "", "", "", p⟩])) ∨
      ∃ fault, Broken fault text ∧ finish p state = .error ⟨fault, start⟩ := by
  have hend {fault : Fault} {l : List Char} (hbroken : Broken fault (l ++ [])) :
      Broken fault l := by
    rwa [List.append_nil] at hbroken
  cases state with
  | default => exact .inl ⟨h, rfl⟩
  | word p seen =>
    obtain ⟨rfl, rfl, hword⟩ := h
    exact .inr (.inl ⟨[_], .unit (.word hword (by simp)) rfl, rfl⟩)
  | lineComment =>
    obtain ⟨mark, body, hmark, hbody, rfl⟩ := h
    exact .inr (.inl ⟨[], .skipped (.line hmark hbody (by simp)), rfl⟩)
  | tildes p n =>
    obtain ⟨rfl, hn, rfl⟩ := h
    exact .inr (.inr ⟨_, hend (.tildes hn (by simp)), rfl⟩)
  | blockComment p n matched =>
    obtain ⟨rfl, hn, body, hbody, rfl⟩ := h
    exact .inr (.inr ⟨_, .comment hn hbody.1, rfl⟩)
  | hash p =>
    obtain ⟨rfl, rfl⟩ := h
    have htag : Tag ['#'] [] := .plain (by simp) (by simp)
    exact .inr (.inr ⟨_, hend (.mode htag (by simp) (by simp)), rfl⟩)
  | mode p seen =>
    obtain ⟨rfl, htag, hlength⟩ := h
    have hpresent : text ≠ [] := List.ne_nil_of_length_pos (by omega)
    exact .inr (.inr ⟨_, hend (.mode htag hpresent (by simp)), rfl⟩)
  | string p mode mark seen =>
    obtain ⟨rfl, hmark, tag, tagged, written, htag, rfl, hbody, rfl⟩ := h
    exact .inr (.inr ⟨_, .string htag hmark hbody, rfl⟩)
  | stringEscape p mode mark seen =>
    obtain ⟨rfl, hmark, tag, tagged, written, htag, rfl, hbody, rfl⟩ := h
    exact .inr (.inr ⟨_, .stringEscape htag hmark hbody, rfl⟩)
  | char p =>
    obtain ⟨rfl, rfl⟩ := h
    exact .inr (.inr ⟨_, .char, rfl⟩)
  | charEscape p =>
    obtain ⟨rfl, rfl⟩ := h
    exact .inr (.inr ⟨_, .charEscape, rfl⟩)
  | charEnd p r =>
    obtain ⟨rfl, written, hletter, rfl⟩ := h
    exact .inr (.inr ⟨_, hend (.charEnd hletter (by simp)), rfl⟩)
  | failed e =>
    obtain ⟨rfl, hbroken⟩ := h
    exact .inr (.inr ⟨_, hend (hbroken []), rfl⟩)

/-- Fed with `rest`, the scan gives the units `emitted` and then those of a division of `text`,
which stands behind `before`. -/
def Progress.Divides (s : Progress) (rest : List Char) (emitted : List Lexeme)
    (before text : List Char) : Prop :=
  ∃ units error, Divided before text units error ∧
    (rest.foldl Progress.feed s).outcome =
      ⟨emitted.reverse ++ units.map Prod.snd, error.map Prod.snd⟩

theorem Progress.Divides.piece {s : Progress} {rest before text later : List Char}
    {emitted units : List Lexeme} (hpiece : Piece (.behind before) units text later)
    (h : s.Divides rest (units.reverse ++ emitted) (before ++ text) later) :
    s.Divides rest emitted before (text ++ later) := by
  obtain ⟨placed, error, hdivided, houtcome⟩ := h
  cases hpiece with
  | skipped htext => exact ⟨placed, error, .skip htext hdivided, houtcome⟩
  | unit htext hplace =>
    refine ⟨_, error, .unit htext hplace hdivided, ?_⟩
    rw [houtcome]
    simp

theorem divides_nil {before text : List Char} {state : State} {emitted : List Lexeme}
    (h : Pending (.behind before) text state) :
    Progress.Divides ⟨.behind (before ++ text), state, emitted⟩ [] emitted before text := by
  rcases finish_pending (.behind (before ++ text)) h with
    ⟨rfl, hfinish⟩ | ⟨units, hpiece, hfinish⟩ | ⟨fault, hbroken, hfinish⟩
  · refine ⟨_, none, .finish, ?_⟩
    rw [List.append_nil] at hfinish ⊢
    simp [Progress.outcome, hfinish]
  · have hend : Progress.Divides ⟨.behind (before ++ text), state, emitted⟩ []
        (units.reverse ++ emitted) (before ++ text) [] := by
      refine ⟨_, none, .finish, ?_⟩
      simp [Progress.outcome, hfinish]
    have hdivides := hend.piece hpiece
    rwa [List.append_nil] at hdivides
  · refine ⟨[], some _, .broken hbroken, ?_⟩
    simp [Progress.outcome, hfinish]

/-- A scan inside of a piece divides what was written of the piece, and `rest` after it. -/
def DividesBefore (rest : List Char) : Prop :=
  ∀ {before text : List Char} {state : State} (emitted : List Lexeme),
    Pending (.behind before) text state →
      Progress.Divides ⟨.behind (before ++ text), state, emitted⟩ rest emitted before (text ++ rest)

theorem Moved.divides {rest before text : List Char} {r : State × List Lexeme}
    (h : Moved (.behind before) text r) (hrest : DividesBefore rest) (emitted : List Lexeme) :
    Progress.Divides ⟨.behind (before ++ text), r.1, r.2.reverse ++ emitted⟩ rest emitted before
      (text ++ rest) := by
  cases h with
  | inside h => exact hrest emitted h
  | @complete units h =>
    have hempty : Pending (.behind (before ++ text)) [] .default := rfl
    have hnext := hrest (units.reverse ++ emitted) hempty
    rw [List.append_nil, List.nil_append] at hnext
    exact hnext.piece (h rest)

theorem Progress.feed_behind (before : List Char) (state : State) (emitted : List Lexeme)
    (c : Char) :
    Progress.feed ⟨.behind before, state, emitted⟩ c =
      ⟨.behind (before ++ [c]), (next (.behind before) c state).1,
        (next (.behind before) c state).2.reverse ++ emitted⟩ := by
  rw [Position.behind_concat]
  rfl

theorem dividesBefore (rest : List Char) : DividesBefore rest := by
  induction rest with
  | nil =>
    intro before text state emitted h
    rw [List.append_nil]
    exact divides_nil h
  | cons c rest ih =>
    intro before text state emitted h
    unfold Progress.Divides
    rw [List.foldl_cons, Progress.feed_behind]
    rcases next_moved c h with hmoved | ⟨units, hpiece, hnext⟩
    · rw [List.append_cons, List.append_assoc before]
      exact hmoved.divides ih emitted
    · have hdivides := (leave_moved (.behind (before ++ text)) c).divides ih
        (units.reverse ++ emitted)
      rw [← List.append_assoc, ← List.reverse_append] at hdivides
      rw [hnext]
      exact hdivides.piece (hpiece rest)

/-- A scan gives the units of a division of the text, and its error. -/
theorem scan_divided (source : List Char) :
    ∃ units error, Divided [] source units error ∧
      scan source = ⟨units.map Prod.snd, error.map Prod.snd⟩ := by
  have hempty : Pending (.behind []) [] .default := rfl
  exact dividesBefore source [] hempty

/-! ### Places in a divided text -/

theorem Spelled.length_pos {x : Lexeme} {text rest : List Char} (h : Spelled x text rest) :
    0 < text.length := by
  cases h with
  | word hword =>
    cases text with
    | nil => exact False.elim hword
    | cons => exact Nat.succ_pos _
  | _ => simp

section Division

variable {before text : List Char} {units : List (Nat × Lexeme)} {error : Option (Nat × Error)}

theorem Divided.length_le (h : Divided before text units error) :
    ∀ o ∈ units.map Prod.fst ++ (error.map Prod.fst).toList, before.length ≤ o := by
  induction h with
  | finish => simp
  | skip _ _ ih =>
    intro o ho
    have hle := ih o ho
    rw [List.length_append] at hle
    omega
  | unit _ _ _ ih =>
    intro o ho
    rcases List.mem_cons.mp ho with rfl | ho
    · exact le_rfl
    · have hle := ih o ho
      rw [List.length_append] at hle
      omega
  | broken => simp

theorem Divided.pairwise (h : Divided before text units error) :
    (units.map Prod.fst ++ (error.map Prod.fst).toList).Pairwise (· < ·) := by
  induction h with
  | finish => simp
  | skip _ _ ih => exact ih
  | unit htext _ hrest ih =>
    refine List.pairwise_cons.mpr ⟨fun o ho ↦ ?_, ih⟩
    have hle := hrest.length_le o ho
    have hpos := htext.length_pos
    rw [List.length_append] at hle
    omega
  | broken => simp

theorem Divided.position (h : Divided before text units error) :
    ∀ u ∈ units, u.2.position = .behind ((before ++ text).take u.1) := by
  induction h with
  | finish => simp
  | skip _ _ ih => simpa using ih
  | unit _ hplace _ ih =>
    intro u hu
    rcases List.mem_cons.mp hu with rfl | hu
    · rw [List.take_left]
      exact hplace
    · simpa using ih u hu
  | broken => simp

theorem Divided.getLast? (h : Divided before text units none) :
    units.getLast? = some ((before ++ text).length,
      ⟨.finish, "", "", "", .behind (before ++ text)⟩) := by
  generalize herror : none = error at h
  induction h with
  | finish => simp
  | skip _ _ ih => simpa using ih herror
  | unit _ _ _ ih =>
    rw [List.getLast?_cons, ih herror]
    simp
  | broken => cases herror

theorem Divided.broken_drop {o : Nat} {e : Error} (h : Divided before text units (some (o, e))) :
    e.position = .behind ((before ++ text).take o) ∧ Broken e.fault ((before ++ text).drop o) := by
  generalize herror : some (o, e) = error at h
  induction h with
  | finish => cases herror
  | skip _ _ ih => simpa using ih herror
  | unit _ _ _ ih => simpa using ih herror
  | broken hsource =>
    cases herror
    rw [List.take_left, List.drop_left]
    exact ⟨rfl, hsource⟩

end Division

/-- Places are exact. The text of any bytes divides into units and what stands between them, and
its scan gives these units. Each carries the place behind everything in front of its first
character, the `#` of a tag included; the first characters stand further and further on; without an
error the last unit is the end at the end of the text; and the message of an error begins with the
place of the first character of the piece that is broken, which is behind all units. -/
theorem scan_positions (bytes : List UInt8) :
    let source := Text.Source.ofBytes bytes
    ∃ units error, Divided [] source units error ∧
      scan source = ⟨units.map Prod.snd, error.map Prod.snd⟩ ∧
      (∀ u ∈ units, u.2.position = .behind (source.take u.1)) ∧
      (units.map Prod.fst ++ (error.map Prod.fst).toList).Pairwise (· < ·) ∧
      (error = none →
        units.getLast? = some (source.length, ⟨.finish, "", "", "", .behind source⟩)) ∧
      ∀ o e, error = some (o, e) →
        e.position = .behind (source.take o) ∧ Broken e.fault (source.drop o) ∧
          e.message = (Position.behind (source.take o)).text ++ ": " ++ e.fault.message := by
  intro source
  obtain ⟨units, error, hdivided, hscan⟩ := scan_divided source
  refine ⟨units, error, hdivided, hscan, hdivided.position, hdivided.pairwise, ?_, ?_⟩
  · rintro rfl
    exact hdivided.getLast?
  · rintro o e rfl
    obtain ⟨hplace, hbroken⟩ := hdivided.broken_drop
    refine ⟨hplace, hbroken, ?_⟩
    rw [Error.message, hplace]
    rfl

example : (scan "\n ~/é\n/~ #m'x\ny' \"\\".toList) =
    ⟨[⟨.string, "x\ny", "m", "'", ⟨3, 4⟩⟩], some ⟨.unterminatedString, ⟨4, 4⟩⟩⟩ := by decide

end Lexeme.Scan

end TokenLang

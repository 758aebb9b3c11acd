import TokenLang.Proofs.Eval.Bounds
import TokenLang.Proofs.Eval.Stepping
import TokenLang.Proofs.Prelude
import TokenLang.Proofs.RoundTrip.Writing

/-!
Data is evaluated to itself. A scan that comes to the tokens of a value which is data reaches that
value in their place, with the world as it was (`Value.reaches`): by induction over the value, the
items of a collection being passed one after the other into the frame of its bracket. So what data
is written as is read and evaluated to the same data (`eval_encode`).
-/

set_option autoImplicit false
set_option relaxedAutoImplicit false

namespace TokenLang

/-! ### Tokens up to their places -/

namespace Token

theorem eq_symbol_of_bare {t : Token} {name : String} (h : t.bare = .symbol name none) :
    ∃ pos, t = .symbol name pos := by
  cases t <;> simp_all [bare]

theorem eq_opening_of_bare {t : Token} {bracket mode : String}
    (h : t.bare = .opening bracket mode none) : ∃ pos, t = .opening bracket mode pos := by
  cases t <;> simp_all [bare]

theorem eq_closing_of_bare {t : Token} {bracket : String} (h : t.bare = .closing bracket none) :
    ∃ pos, t = .closing bracket pos := by
  cases t <;> simp_all [bare]

theorem eq_done_of_bare {t : Token} {v : Value} (h : t.bare = .done v none) :
    ∃ u pos, t = .done u pos ∧ u.bare = v := by
  cases t <;> simp_all [bare]

theorem isDelimiter_bare (t : Token) : t.bare.isDelimiter = t.isDelimiter := by
  cases t <;> rfl

theorem closes_bare (t : Token) : t.bare.closes = t.closes := by
  cases t <;> rfl

theorem bracket_bare (t : Token) : t.bare.bracket = t.bracket := by
  cases t <;> rfl

theorem closesWith_bare (s t : Token) : s.bare.closesWith t.bare = s.closesWith t := by
  simp only [closesWith, isDelimiter_bare, closes_bare, bracket_bare]

theorem closesWith_of_faces {a b : String} (ha : a ≠ "") (hb : b ≠ "") (h : faces a b = true)
    (mode : String) (pos pos' : Option Position) :
    (Token.opening a mode pos).closesWith (.closing b pos') = true := by
  simp [closesWith, isDelimiter, isLiteral, closes, bracket, ha, hb, h]

theorem nested_cons (stack : List Token) (t : Token) (rest : List Token) :
    nested stack (t :: rest) =
      if !t.isDelimiter then nested stack rest
      else if !t.closes then nested (t :: stack) rest
      else match stack with
        | [] => false
        | top :: below => top.closesWith t && nested below rest := by
  cases stack <;> rfl

theorem nested_bare (stack ts : List Token) :
    nested (stack.map bare) (ts.map bare) = nested stack ts := by
  induction ts generalizing stack with
  | nil => simp [nested]
  | cons t ts ih =>
    rw [List.map_cons, nested_cons, nested_cons, isDelimiter_bare, closes_bare, ih]
    have hcons := ih (t :: stack)
    rw [List.map_cons] at hcons
    rw [hcons]
    cases stack with
    | nil => rfl
    | cons top below => simp only [List.map_cons, closesWith_bare, ih]

end Token

/-! ### Regions -/

theorem Form.region_cons (outer : Token) (stack : List Token) (t : Token) (rest : List Token) :
    Form.region outer stack (t :: rest) =
      if !t.isDelimiter then
        (Form.region outer stack rest).map fun (inside, after) ↦ (t :: inside, after)
      else if !t.closes then
        (Form.region outer (t :: stack) rest).map fun (inside, after) ↦ (t :: inside, after)
      else match stack with
        | [] => .ok ([t], rest)
        | top :: below =>
          if !top.closesWith t then .error (.blaming t (.mismatched top.text t.text))
          else if below.isEmpty then .ok ([t], rest)
          else (Form.region outer below rest).map fun (inside, after) ↦ (t :: inside, after) := by
  cases stack <;> rfl

/-- A well nested region ends at the bracket that closes its opening one. -/
theorem Form.region_of_nested (outer opening closing : Token) (rest : List Token)
    (hdelimiter : closing.isDelimiter = true) (hcloses : closing.closes = true)
    (hmatch : opening.closesWith closing = true) (inner ts : List Token)
    (h : Token.nested inner ts = true) :
    Form.region outer (inner ++ [opening]) (ts ++ closing :: rest) =
      .ok (ts ++ [closing], rest) := by
  induction ts generalizing inner with
  | nil =>
    obtain rfl : inner = [] := by simpa [Token.nested] using h
    simp [Form.region, hdelimiter, hcloses, hmatch]
  | cons t ts ih =>
    rw [Token.nested_cons] at h
    rw [List.cons_append, Form.region_cons]
    split_ifs at h with hplain hopens
    · rw [if_pos hplain, ih inner h]
      rfl
    · rw [if_neg hplain, if_pos hopens, ← List.cons_append, ih (t :: inner) h]
      rfl
    · rw [if_neg hplain, if_neg hopens]
      cases inner with
      | nil => cases h
      | cons top below =>
        obtain ⟨htop, hbelow⟩ := Bool.and_eq_true_iff.mp h
        rw [List.cons_append]
        dsimp only
        rw [if_neg (by simp [htop]), if_neg (by simp), ih below hbelow]
        rfl

/-! ### Scopes with the standard library -/

/-- What an evaluation of data asks of a scope. -/
structure Scope.Standard (s : Scope) : Prop where
  null : s.get? "null" = some (.stable .null)
  yes : s.get? "true" = some (.stable (.bool true))
  no : s.get? "false" = some (.stable (.bool false))
  quote : ∃ ref, s.get? ":" = some (.envoy .quote ref)
  list : s.varying? "[" = some .list
  map : s.varying? "map" = some .map
  set : s.varying? "set" = some .set
  marker : ∀ name pos, name ≠ ":" → name ≠ "@" → s.isMarker (.symbol name pos) = false
  hops : 2 ≤ s.maxHops

/-- A new world is standard unless it allows one hop only. -/
theorem World.standard_new (settings : Settings) (h : settings.maxHops ≠ 1) :
    ((World.new settings).scope World.root).Standard where
  null := World.get?_new settings "null"
  yes := World.get?_new settings "true"
  no := World.get?_new settings "false"
  quote := ⟨_, World.get?_new settings ":"⟩
  list := by
    rw [Scope.varying?, if_neg (by decide), World.get?_new]
    rfl
  map := by
    rw [Scope.varying?, if_neg (by decide), World.get?_new]
    rfl
  set := by
    rw [Scope.varying?, if_neg (by decide), World.get?_new]
    rfl
  marker name pos hcolon hat := World.isMarker_new settings hcolon hat pos
  hops := by
    rw [World.maxHops_new]
    split_ifs with hzero
    · decide
    · omega

theorem ne_marker_of_isReadable {name : String} (h : isReadable name = true) :
    name ≠ ":" ∧ name ≠ "@" := by
  constructor
  · rintro rfl
    exact absurd h (by decide +kernel)
  · rintro rfl
    exact absurd h (by decide +kernel)

/-! ### Closing brackets of data -/

section Closing

variable {w : World} {id : ScopeId} (ev : Evaluator) (fuel : Nat)

/-- A region that becomes something without effects. -/
theorem Evaluator.close_of_apply {opening : Token} {inside placed : List Token} {v : Varying}
    (hv : ((w.scope id).varying? opening.mode).or ((w.scope id).varying? opening.bracket) = some v)
    (happly : v.apply ev fuel id (.bracketed opening inside) = EvalM.ofExcept (.ok placed)) :
    (ev.close fuel id opening inside).outcome w = .ok placed ∧
      (ev.close fuel id opening inside).after w = w := by
  rw [Evaluator.close, EvalM.outcome_bind, EvalM.after_bind, EvalM.outcome_scope,
    EvalM.after_scope]
  dsimp only
  rw [hv]
  dsimp only
  rw [happly]
  exact ⟨rfl, rfl⟩

variable (hs : (w.scope id).Standard) (pos : Option Position)
include hs

theorem Evaluator.close_list (inside : List Token) :
    (ev.close fuel id (.opening "[" "" pos) inside).outcome w =
        .ok [.done (.list inside) none] ∧
      (ev.close fuel id (.opening "[" "" pos) inside).after w = w := by
  refine close_of_apply ev fuel (v := .list) ?_ rfl
  show ((w.scope id).varying? "").or ((w.scope id).varying? "[") = some .list
  rw [hs.list]
  rfl

theorem Evaluator.close_map {entries : List Entry}
    (hvalues : ∀ e ∈ entries, e.key.value?.isSome = true)
    (hnodup : (entries.map Entry.keyText).Nodup) :
    (ev.close fuel id (.opening "[" "map" pos) (Entry.flatten entries)).outcome w =
        .ok [.done (.map entries) none] ∧
      (ev.close fuel id (.opening "[" "map" pos) (Entry.flatten entries)).after w = w := by
  refine close_of_apply ev fuel (v := .map) ?_ ?_
  · show ((w.scope id).varying? "map").or ((w.scope id).varying? "[") = some .map
    rw [hs.map]
    rfl
  · show (EvalM.ofExcept (Entry.putAll [] (Entry.flatten entries)) >>= _) = _
    rw [Entry.putAll_flatten hvalues hnodup]
    rfl

theorem Evaluator.close_set {members : List Token}
    (hvalues : ∀ t ∈ members, t.value?.isSome = true) (hnodup : (members.map Token.key).Nodup) :
    (ev.close fuel id (.opening "[" "set" pos) members).outcome w =
        .ok [.done (.set members) none] ∧
      (ev.close fuel id (.opening "[" "set" pos) members).after w = w := by
  refine close_of_apply ev fuel (v := .set) ?_ ?_
  · show ((w.scope id).varying? "set").or ((w.scope id).varying? "[") = some .set
    rw [hs.set]
    rfl
  · show (EvalM.ofExcept (Token.addMembers [] members) >>= _) = _
    rw [Token.addMembers_of_nodup hvalues hnodup]
    rfl

end Closing

/-- The tokens of what is written between two brackets. -/
theorem exists_of_bracketed_source {left right mode : String} {ts source : List Token}
    (h : ts.map Token.bare = .opening left mode none :: (source ++ [.closing right none])) :
    ∃ pos pos' inside, ts = .opening left mode pos :: (inside ++ [.closing right pos']) ∧
      inside.map Token.bare = source := by
  obtain ⟨t, ts', rfl, ht, hts'⟩ := List.map_eq_cons_iff.mp h
  obtain ⟨inside, last, rfl, hinside, hlast⟩ := List.map_eq_append_iff.mp hts'
  obtain ⟨c, rfl, hc⟩ := List.map_eq_singleton_iff.mp hlast
  obtain ⟨pos, rfl⟩ := Token.eq_opening_of_bare ht
  obtain ⟨pos', rfl⟩ := Token.eq_closing_of_bare hc
  exact ⟨pos, pos', inside, rfl, hinside⟩

/-! ### Reaching data -/

open Scan (Reaches)

section Reaching

variable {w : World} {id : ScopeId}

/-- A value at the front is passed into the frame. -/
theorem Scan.Reaches.pass {s : Scan} {f : Frame} {frames : List Frame} {v : Value}
    {pos : Option Position} {rest : List Token} {hops : Nat}
    (h : Reaches w id s ⟨f :: frames, .done v pos :: rest, hops⟩) :
    Reaches w id s ⟨⟨f.opening, .done v pos :: f.passed, f.inner⟩ :: frames, rest, 0⟩ :=
  h.trans (quiet_pass f v pos).reaches

/-- A token that is a value already. -/
theorem reaches_done {v : Value} {ts : List Token} (hts : ts.map Token.bare = [.done v none])
    (frames : List Frame) (rest : List Token) :
    ∃ u pos hops, u.bare = v ∧
      Reaches w id ⟨frames, ts ++ rest, 0⟩ ⟨frames, .done u pos :: rest, hops⟩ := by
  obtain ⟨t, rfl, ht⟩ := List.map_eq_singleton_iff.mp hts
  obtain ⟨u, pos, rfl, hu⟩ := Token.eq_done_of_bare ht
  exact ⟨u, pos, 0, hu, Reaches.refl _⟩

variable (hs : (w.scope id).Standard)
include hs

/-- A name that is bound to a value. -/
theorem reaches_bound {name : String} {v : Value} (h : (w.scope id).get? name = some (.stable v))
    {ts : List Token} (hts : ts.map Token.bare = [.symbol name none]) (frames : List Frame)
    (rest : List Token) :
    ∃ u pos hops, u.bare = v.bare ∧
      Reaches w id ⟨frames, ts ++ rest, 0⟩ ⟨frames, .done u pos :: rest, hops⟩ := by
  obtain ⟨t, rfl, ht⟩ := List.map_eq_singleton_iff.mp hts
  obtain ⟨pos, rfl⟩ := Token.eq_symbol_of_bare ht
  exact ⟨v, none, 1, rfl, (Scan.quiet_resolve h (le_trans (by decide) hs.hops)).reaches⟩

theorem reaches_quote {t : Token} {after form left : List Token}
    (hsplit : Form.split (w.scope id).isMarker (t :: after) = .ok (form, left))
    (hclosing : t.isClosing = false) (pos : Option Position) (frames : List Frame) :
    Reaches w id ⟨frames, .symbol ":" pos :: t :: after, 0⟩
      ⟨frames, Form.quote form :: left, 2⟩ := by
  obtain ⟨ref, hquote⟩ := hs.quote
  have hresolve : Reaches w id ⟨frames, .symbol ":" pos :: t :: after, 0⟩
      ⟨frames, .envoy .quote ref :: t :: after, 1⟩ :=
    (Scan.quiet_resolve hquote (le_trans (by decide) hs.hops)).reaches
  exact hresolve.trans (Scan.quiet_quote hsplit hclosing hs.hops).reaches

/-- A name that is no marker, quoted. -/
theorem reaches_atom {name : String} (hcolon : name ≠ ":") (hat : name ≠ "@")
    (pos pos' : Option Position) (frames : List Frame) (rest : List Token) :
    Reaches w id ⟨frames, .symbol ":" pos :: .symbol name pos' :: rest, 0⟩
      ⟨frames, .done (.atom name) pos' :: rest, 2⟩ := by
  have hsplit : Form.split (w.scope id).isMarker (.symbol name pos' :: rest) =
      .ok ([.symbol name pos'], rest) := by
    rw [Form.split, hs.marker name pos' hcolon hat]
    rfl
  exact reaches_quote hs hsplit rfl pos frames

/-- A well nested region in plain parentheses, quoted. -/
theorem reaches_quoted_region {items : List Token} (h : Token.nested [] items = true)
    (pos pos' pos'' : Option Position) (frames : List Frame) (rest : List Token) :
    Reaches w id
      ⟨frames, .symbol ":" pos :: .opening "(" "" pos' :: (items ++ .closing ")" pos'' :: rest), 0⟩
      ⟨frames, .done (.quote items) none :: rest, 2⟩ := by
  have hregion := Form.region_of_nested (.opening "(" "" pos') (.opening "(" "" pos')
    (.closing ")" pos'') rest rfl rfl
    (Token.closesWith_of_faces (by decide) (by decide) (by decide) "" pos' pos'') [] items h
  have hsplit : Form.split (w.scope id).isMarker
      (.opening "(" "" pos' :: (items ++ .closing ")" pos'' :: rest)) =
      .ok (.opening "(" "" pos' :: (items ++ [.closing ")" pos'']), rest) := by
    rw [List.nil_append] at hregion
    show (Form.region _ [_] _).map _ = _
    rw [hregion]
    rfl
  have hquote : Form.quote (.opening "(" "" pos' :: (items ++ [.closing ")" pos''])) =
      .done (.quote items) none := by
    have hstrip : Form.strip (.opening "(" "" pos' :: (items ++ [.closing ")" pos''])) = items := by
      simp [Form.strip]
    cases items with
    | nil => rfl
    | cons t items =>
      show Token.stable (.quote (Form.strip _)) = _
      rw [hstrip]
      rfl
  rw [← hquote]
  exact reaches_quote hs hsplit rfl pos frames

omit hs in
/-- What stands between square brackets is passed into their frame, which then closes. -/
theorem reaches_bracketed {mode : String} {pos pos' : Option Position} {frames : List Frame}
    {inside out rest : List Token} {v : Value}
    (hinside : Reaches w id
      ⟨.start (.opening "[" mode pos) :: frames, inside ++ .closing "]" pos' :: rest, 0⟩
      ⟨⟨.opening "[" mode pos, out.reverse ++ [], []⟩ :: frames, .closing "]" pos' :: rest, 0⟩)
    (hclose : ∀ (ev : Evaluator) (fuel : Nat),
      (ev.close fuel id (.opening "[" mode pos) out).outcome w = .ok [.done v none] ∧
        (ev.close fuel id (.opening "[" mode pos) out).after w = w) :
    Reaches w id ⟨frames, .opening "[" mode pos :: (inside ++ [.closing "]" pos']) ++ rest, 0⟩
      ⟨frames, .done v none :: rest, 0⟩ := by
  rw [List.cons_append, List.append_assoc, List.singleton_append]
  have hopen : Scan.Quiet w id
      ⟨frames, .opening "[" mode pos :: (inside ++ .closing "]" pos' :: rest), 0⟩
      ⟨.start (.opening "[" mode pos) :: frames, inside ++ .closing "]" pos' :: rest, 0⟩ :=
    Scan.quiet_open (by decide) (by decide) mode pos
  have hlast : Scan.Quiet w id
      ⟨⟨.opening "[" mode pos, out.reverse ++ [], []⟩ :: frames, .closing "]" pos' :: rest, 0⟩
      ⟨frames, .done v none :: rest, 0⟩ := by
    refine Scan.quiet_close [.done v none] (by decide) ?_ (by simpa using hclose)
    exact Token.closesWith_of_faces (by decide) (by decide) (by decide) mode pos pos'
  exact hopen.reaches.trans (hinside.trans hlast.reaches)

omit hs

mutual

/-- A scan that comes to the source of data reaches the data. -/
theorem Value.reaches (hs : (w.scope id).Standard) (v : Value) (h : v.IsData) (ts : List Token)
    (hts : ts.map Token.bare = v.source) (frames : List Frame) (rest : List Token) :
    ∃ u pos hops, u.bare = v.bare ∧
      Reaches w id ⟨frames, ts ++ rest, 0⟩ ⟨frames, .done u pos :: rest, hops⟩ := by
  match v, h with
  | .null, _ => exact reaches_bound hs hs.null hts frames rest
  | .bool true, _ => exact reaches_bound hs hs.yes hts frames rest
  | .bool false, _ => exact reaches_bound hs hs.no hts frames rest
  | .int i, _ => exact reaches_done hts frames rest
  | .float x ref, _ => exact reaches_done hts frames rest
  | .char c, _ => exact reaches_done hts frames rest
  | .string text, _ => exact reaches_done hts frames rest
  | .atom name, h =>
    obtain ⟨t, ts', rfl, ht, hts'⟩ := List.map_eq_cons_iff.mp hts
    obtain ⟨u, rfl, hu⟩ := List.map_eq_singleton_iff.mp hts'
    obtain ⟨pos, rfl⟩ := Token.eq_symbol_of_bare ht
    obtain ⟨pos', rfl⟩ := Token.eq_symbol_of_bare hu
    obtain ⟨hcolon, hat⟩ := ne_marker_of_isReadable h
    exact ⟨.atom name, pos', 2, rfl, reaches_atom hs hcolon hat pos pos' frames rest⟩
  | .list items, h =>
    obtain ⟨pos, pos', inside, rfl, hinside⟩ := exists_of_bracketed_source hts
    obtain ⟨out, hout, -, hreaches⟩ := Token.reaches_all hs items h inside hinside
      (.start (.opening "[" "" pos)) frames (.closing "]" pos' :: rest)
    refine ⟨.list out, none, 0, ?_, ?_⟩
    · rw [Value.bare, Value.bare, hout]
    · exact reaches_bracketed hreaches fun ev fuel ↦
        Evaluator.close_list ev fuel hs pos out
  | .quote items, ⟨_, h⟩ =>
    obtain ⟨colon, region, rfl, hcolon, hregion⟩ := List.map_eq_cons_iff.mp hts
    obtain ⟨pos, rfl⟩ := Token.eq_symbol_of_bare hcolon
    obtain ⟨pos', pos'', out, rfl, hout⟩ := exists_of_bracketed_source hregion
    have hnested : Token.nested [] out = true := by
      rw [← Token.nested_bare, hout, Token.bares_eq_map]
      exact (Token.nested_bare [] items).trans h
    refine ⟨.quote out, none, 2, ?_, ?_⟩
    · rw [Value.bare, Value.bare, Token.bares_eq_map out, hout]
    · rw [List.cons_append, List.cons_append, List.append_assoc, List.singleton_append]
      exact reaches_quoted_region hs hnested pos pos' pos'' frames rest
  | .map entries, ⟨h, hnodup⟩ =>
    obtain ⟨pos, pos', inside, rfl, hinside⟩ := exists_of_bracketed_source hts
    obtain ⟨out, hout, hvalues, hreaches⟩ := Entry.reaches_all hs entries h inside hinside
      (.start (.opening "[" "map" pos)) frames (.closing "]" pos' :: rest)
    refine ⟨.map out, none, 0, ?_, ?_⟩
    · rw [Value.bare, Value.bare, hout]
    · rw [← Entry.map_keyText_bares, ← hout, Entry.map_keyText_bares] at hnodup
      exact reaches_bracketed hreaches fun ev fuel ↦
        Evaluator.close_map ev fuel hs pos hvalues hnodup
  | .set members, ⟨h, hnodup⟩ =>
    obtain ⟨pos, pos', inside, rfl, hinside⟩ := exists_of_bracketed_source hts
    obtain ⟨out, hout, hvalues, hreaches⟩ := Token.reaches_all hs members h inside hinside
      (.start (.opening "[" "set" pos)) frames (.closing "]" pos' :: rest)
    refine ⟨.set out, none, 0, ?_, ?_⟩
    · rw [Value.bare, Value.bare, hout]
    · rw [← Token.map_key_bares, ← hout, Token.map_key_bares] at hnodup
      exact reaches_bracketed hreaches fun ev fuel ↦
        Evaluator.close_set ev fuel hs pos hvalues hnodup

/-- Items are passed into the frame around them. -/
theorem Token.reaches_all (hs : (w.scope id).Standard) (items : List Token)
    (h : Token.AllData items) (ts : List Token) (hts : ts.map Token.bare = Token.sources items)
    (f : Frame) (frames : List Frame) (rest : List Token) :
    ∃ out, Token.bares out = Token.bares items ∧ (∀ t ∈ out, t.value?.isSome = true) ∧
      Reaches w id ⟨f :: frames, ts ++ rest, 0⟩
        ⟨⟨f.opening, out.reverse ++ f.passed, f.inner⟩ :: frames, rest, 0⟩ := by
  match items, h with
  | [], _ =>
    obtain rfl := List.map_eq_nil_iff.mp hts
    exact ⟨[], rfl, by simp, Reaches.refl _⟩
  | .done v pos :: items, ⟨hv, hitems⟩ =>
    obtain ⟨first, more, rfl, hfirst, hmore⟩ := List.map_eq_append_iff.mp hts
    obtain ⟨u, pos', hops, hu, hvalue⟩ :=
      Value.reaches hs v hv first hfirst (f :: frames) (more ++ rest)
    obtain ⟨out, hout, hvalues, hreaches⟩ := Token.reaches_all hs items hitems more hmore
      ⟨f.opening, .done u pos' :: f.passed, f.inner⟩ frames rest
    refine ⟨.done u pos' :: out, ?_, ?_, ?_⟩
    · rw [Token.bares, Token.bares, Token.bare, Token.bare, hu, hout]
    · intro t ht
      rcases List.mem_cons.mp ht with rfl | ht
      · rfl
      · exact hvalues t ht
    · simpa using hvalue.pass.trans hreaches

/-- The entries of a map are reached one after the other, each key before its value. -/
theorem Entry.reaches_all (hs : (w.scope id).Standard) (entries : List Entry)
    (h : Entry.AllData entries) (ts : List Token) (hts : ts.map Token.bare = Entry.sources entries)
    (f : Frame) (frames : List Frame) (rest : List Token) :
    ∃ out, Entry.bares out = Entry.bares entries ∧
      (∀ e ∈ out, e.key.value?.isSome = true) ∧
      Reaches w id ⟨f :: frames, ts ++ rest, 0⟩
        ⟨⟨f.opening, (Entry.flatten out).reverse ++ f.passed, f.inner⟩ :: frames, rest, 0⟩ := by
  match entries, h with
  | [], _ =>
    obtain rfl := List.map_eq_nil_iff.mp hts
    exact ⟨[], rfl, by simp, Reaches.refl _⟩
  | .mk (.done key kpos) (.done value vpos) :: entries, ⟨hkey, hvalue, hentries⟩ =>
    obtain ⟨pair, more, rfl, hpair, hmore⟩ := List.map_eq_append_iff.mp hts
    obtain ⟨first, second, rfl, hfirst, hsecond⟩ := List.map_eq_append_iff.mp hpair
    obtain ⟨k, kpos', khops, hk, hkreaches⟩ :=
      Value.reaches hs key hkey first hfirst (f :: frames) (second ++ (more ++ rest))
    obtain ⟨u, vpos', vhops, hu, hureaches⟩ :=
      Value.reaches hs value hvalue second hsecond
        (⟨f.opening, .done k kpos' :: f.passed, f.inner⟩ :: frames) (more ++ rest)
    obtain ⟨out, hout, hvalues, hreaches⟩ := Entry.reaches_all hs entries hentries more hmore
      ⟨f.opening, .done u vpos' :: .done k kpos' :: f.passed, f.inner⟩ frames rest
    refine ⟨.mk (.done k kpos') (.done u vpos') :: out, ?_, ?_, ?_⟩
    · rw [Entry.bares, Entry.bares, hout, Token.bare, Token.bare, Token.bare, Token.bare, hk, hu]
    · intro e he
      rcases List.mem_cons.mp he with rfl | he
      · rfl
      · exact hvalues e he
    · simpa [Entry.flatten, Entry.key, Entry.value] using
        hkreaches.pass.trans (hureaches.pass.trans hreaches)

end

end Reaching

/-! ### Whole evaluations -/

section Evaluation

variable {w : World} {id : ScopeId} (hs : (w.scope id).Standard)
include hs

/-- The source of data at the front of a buffer is reduced to the data. -/
theorem exists_stepWithin {v : Value} (h : v.IsData) {ts : List Token}
    (hts : ts.map Token.bare = v.source) (rest : List Token) :
    ∃ n u pos, u.bare = v.bare ∧ ∀ bound ≥ n,
      (Program.stepWithin bound id (ts ++ rest)).run.run w =
        (.ok (.value (.done u pos) rest), w) := by
  obtain ⟨u, pos, hops, hu, hreaches⟩ := Value.reaches hs v h ts hts [] rest
  obtain ⟨n, hn⟩ := Scan.run_of_reaches hreaches
  refine ⟨n + 1, u, pos, hu, fun bound hbound ↦ ?_⟩
  obtain ⟨more, rfl⟩ := Nat.exists_eq_add_of_le hbound
  show (Scan.run (n + 1 + more) id (.start (ts ++ rest))).run.run w = _
  rw [show n + 1 + more = more + 1 + n by omega]
  exact hn (more + 1)

/-- All of it, one value after the other. -/
theorem exists_collect {vs : List Value} (h : ∀ v ∈ vs, v.IsData) {ts : List Token}
    (hts : ts.map Token.bare = vs.flatMap Value.source) :
    ∃ n out, (out.filterMap Token.value?).map Value.bare = vs.map Value.bare ∧
      ∀ bound ≥ n, ∀ rounds ≥ n, ∀ done,
        ((Program.stepWithin bound).collect id rounds done ts).run.run w =
          (.ok (done.reverse ++ out, none), w) := by
  induction vs generalizing ts with
  | nil =>
    obtain rfl := List.map_eq_nil_iff.mp hts
    refine ⟨1, [], rfl, fun bound hbound rounds hrounds done ↦ ?_⟩
    obtain ⟨bound, rfl⟩ := Nat.exists_eq_add_of_le' hbound
    obtain ⟨rounds, rfl⟩ := Nat.exists_eq_add_of_le' hrounds
    rw [List.append_nil]
    rfl
  | cons v vs ih =>
    rw [List.flatMap_cons] at hts
    obtain ⟨first, more, rfl, hfirst, hmore⟩ := List.map_eq_append_iff.mp hts
    obtain ⟨n, u, pos, hu, hstep⟩ :=
      exists_stepWithin hs (h v (List.mem_cons_self ..)) hfirst more
    obtain ⟨m, out, hout, hcollect⟩ := ih (fun x hx ↦ h x (List.mem_cons_of_mem v hx)) hmore
    refine ⟨max n m + 1, .done u pos :: out, ?_, fun bound hbound rounds hrounds done ↦ ?_⟩
    · simp [Token.value?, hu, hout]
    · obtain ⟨rounds, rfl⟩ := Nat.exists_eq_add_of_le' (Nat.one_le_of_lt hrounds)
      have hfront := hstep bound (by omega)
      have hback := hcollect bound (by omega) rounds (by omega) (.done u pos :: done)
      have houtcome : (Program.stepWithin bound id (first ++ more)).outcome w =
          .ok (.value (.done u pos) more) := congrArg Prod.fst hfront
      have hafter : (Program.stepWithin bound id (first ++ more)).after w = w :=
        congrArg Prod.snd hfront
      rw [Evaluator.collect, EvalM.run_bind, houtcome, hafter]
      simpa using hback

end Evaluation

/-- A text that reads as tokens: only the supply of reference numbers is changed. -/
theorem Program.exists_read {text : List Char} {tokens : List Token}
    (h : Lexeme.Scan.Reads text tokens) (w : World) :
    ∃ ts n, ts.map Token.bare = tokens ∧ (Program.read text).outcome w = .ok (.ok ts) ∧
      (Program.read text).after w = { w with nextRef := n } := by
  obtain ⟨units, hunits, rfl⟩ := h.exists_read
  have hrun : (Program.read text).run.run w = (.ok (.ok (Reader.ofLexemes w.nextRef units)),
      { w with nextRef := w.nextRef + units.length }) := by
    show (_, _) = _
    rw [hunits]
  exact ⟨Reader.ofLexemes w.nextRef units, _, Lexeme.Scan.map_bare_ofLexemes _ _,
    congrArg Prod.fst hrun, congrArg Prod.snd hrun⟩

/-- Reading what data is written as, then evaluating it, gives the data back and prints nothing:
in every new world, with any bound on the steps that is large enough. Only where a single hop is
allowed can a quoted name not be resolved. -/
theorem eval_encode (settings : Settings) (hhops : settings.maxHops ≠ 1) (vs : List Value)
    (h : ∀ v ∈ vs, v.IsData) :
    ∃ n us, us.map Value.bare = vs.map Value.bare ∧ ∀ bound ≥ n,
      (Program.evalWithin bound World.root (Text.Source.ofString (Value.encode vs))).outcome
          (World.new settings) = .ok ⟨us, none⟩ ∧
        ((Program.evalWithin bound World.root (Text.Source.ofString (Value.encode vs))).after
          (World.new settings)).output = "" := by
  have hnew := World.standard_new settings hhops
  have houtput : (World.new settings).output = "" := rfl
  generalize World.new settings = w at hnew houtput ⊢
  obtain ⟨ts, ref, hts, houtcome, hafter⟩ := Program.exists_read (Value.reads_encode h) w
  have hs : (({ w with nextRef := ref } : World).scope World.root).Standard := hnew
  obtain ⟨n, out, hout, hcollect⟩ := exists_collect hs h hts
  refine ⟨n, out.filterMap Token.value?, hout, fun bound hbound ↦ ?_⟩
  have hrun := hcollect bound hbound bound hbound []
  have hcollected : ((Program.stepWithin bound).collect World.root bound [] ts).outcome
      { w with nextRef := ref } = .ok (out, none) := congrArg Prod.fst hrun
  have hworld : ((Program.stepWithin bound).collect World.root bound [] ts).after
      { w with nextRef := ref } = { w with nextRef := ref } := congrArg Prod.snd hrun
  rw [Value.ofString_encode h, Program.evalWithin, EvalM.outcome_bind, EvalM.after_bind, houtcome,
    hafter]
  dsimp only
  rw [Program.evaluateWithin, EvalM.outcome_bind, EvalM.after_bind, hcollected, hworld]
  exact ⟨rfl, houtput⟩

/-- A list, a map that holds a set, and a quote, one after the other. -/
theorem eval_encode_nested :
    let vs : List Value :=
      [.list [.done (.atom "north") none, .done (.string "a\n'b'") none, .done (.char ' ') none],
        .map [.mk (.done (.int 7) none) (.done (.set [.done (.float 0.1 0) none]) none)],
        .quote [.opening "[" "map" none, .symbol "@" none, .symbol "x" none, .closing "]" none]]
    ∃ n us, us.map Value.bare = vs.map Value.bare ∧ ∀ bound ≥ n,
      (Program.evalWithin bound World.root (Text.Source.ofString (Value.encode vs))).outcome
          (World.new ⟨"", true, 0, 1⟩) = .ok ⟨us, none⟩ ∧
        ((Program.evalWithin bound World.root (Text.Source.ofString (Value.encode vs))).after
          (World.new ⟨"", true, 0, 1⟩)).output = "" := by
  have hatom : isReadable "north" = true := by decide +kernel
  have hword : isReadable "x" = true := by decide +kernel
  refine eval_encode ⟨"", true, 0, 1⟩ (by decide) _ ?_
  intro v hv
  fin_cases hv
  · exact ⟨hatom, trivial, trivial, trivial⟩
  · exact ⟨⟨trivial, ⟨⟨trivial, trivial⟩, by decide⟩, trivial⟩, by decide⟩
  · refine ⟨fun t ht ↦ ?_, by decide⟩
    fin_cases ht
    · exact ⟨.inr (.inl rfl), by decide⟩
    · exact .inr (.inr rfl)
    · exact .inl hword
    · exact .inr (.inl rfl)

/-- Where a single hop is allowed, what an atom is written as ends over that limit, with any
bound on the steps that is large enough: the marker takes one hop, and the envoy it is bound to
another. -/
theorem eval_encode_overflows :
    (Value.atom "a").IsData ∧ ∃ f : Failure, f.cause.family = .indirectionOverflow ∧ ∀ bound ≥ 30,
      (Program.evalWithin bound World.root (Text.Source.ofString
        (Value.encode [.atom "a"]))).outcome (World.new ⟨"", false, 1, 1⟩) = .ok ⟨[], some f⟩ := by
  have hatom : isReadable "a" = true := by decide +kernel
  have hends : ((Program.evalWithin 30 World.root (Text.Source.ofString
      (Value.encode [.atom "a"]))).outcome (World.new ⟨"", false, 1, 1⟩)).toOption.any (fun answer ↦
        answer.values.isEmpty && answer.failure.any (·.cause.family == .indirectionOverflow)) =
          true := by decide +kernel
  cases hthirty : (Program.evalWithin 30 World.root (Text.Source.ofString
      (Value.encode [.atom "a"]))).outcome (World.new ⟨"", false, 1, 1⟩) with
  | error stop =>
    rw [hthirty] at hends
    cases hends
  | ok answer =>
    rw [hthirty] at hends
    obtain ⟨values, failure⟩ := answer
    obtain ⟨hvalues, hfailure⟩ := (Bool.and_eq_true _ _).mp hends
    obtain rfl : values = [] := List.isEmpty_iff.mp hvalues
    obtain ⟨f, rfl, hfamily⟩ := (Option.any_eq_true _ _).mp hfailure
    refine ⟨hatom, f, beq_iff_eq.mp hfamily, fun bound hbound ↦ ?_⟩
    rcases Program.evalWithin_extends hbound World.root (Text.Source.ofString
      (Value.encode [.atom "a"])) (World.new ⟨"", false, 1, 1⟩) with hexhausted | hsame
    · rw [hthirty] at hexhausted
      cases hexhausted
    · exact (congrArg Prod.fst hsame).trans hthirty

end TokenLang

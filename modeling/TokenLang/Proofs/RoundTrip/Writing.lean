import TokenLang.Proofs.RoundTrip.Floats

/-!
What data is written as. The text of a value that is data is read as the tokens of its source
(`Value.reads_text`), and so is the text of several values (`Value.reads_encode`).
-/

set_option autoImplicit false
set_option relaxedAutoImplicit false

namespace TokenLang

open Lexeme.Scan

/-! ### Single tokens -/

theorem reads_readable {w : String} (h : isReadable w = true) :
    Reads w.toList [.symbol w none] := by
  simp only [isReadable, Bool.and_eq_true, Option.isNone_iff_eq_none] at h
  have hreads := reads_word (isWord_of_isOneWord h.1)
  have htoken : wordToken w = .symbol w none := by
    rw [wordToken, Reader.ofWord, h.2]
    rfl
  rwa [String.ofList_toList, htoken] at hreads

theorem reads_int (i : Int64) : Reads (Value.int i).text.toList [.done (.int i) none] := by
  have hreads := reads_word (Numeral.isWord_toString i.toInt)
  rwa [String.ofList_toList, Numeral.wordToken_toString] at hreads

theorem reads_float (x : Float) (ref : Ref) :
    Reads (Value.float x ref).text.toList [.done (.float x 0) none] := by
  have hreads := reads_word (Decimal.write_isWord x).1
  rwa [String.ofList_toList, Numeral.wordToken_write x] at hreads

/-- One case for each way a readable token is written. -/
theorem Token.reads_text {t : Token} (h : t.IsReadable) : Reads t.text.toList [t.bare] := by
  match t, h with
  | .symbol name pos, h =>
    rw [Token.text, Token.bare]
    rcases h with h | rfl | rfl
    · exact reads_readable h
    · exact rests_colon.reads
    · exact rests_at.reads
  | .opening bracket mode pos, ⟨hbracket, hmode⟩ =>
    rcases hbracket with rfl | rfl | rfl
    · exact (rests_moded (c := '(') rfl hmode).reads
    · exact (rests_moded (c := '[') rfl hmode).reads
    · exact (rests_moded (c := '\x7b') rfl hmode).reads
  | .closing bracket pos, h =>
    rw [Token.text, Token.bare]
    rcases h with rfl | rfl | rfl
    · exact (rests_closing (c := ')') rfl).reads
    · exact (rests_closing (c := ']') rfl).reads
    · exact (rests_closing (c := '\x7d') rfl).reads
  | .done (.int i) pos, _ => exact reads_int i
  | .done (.float x ref) pos, _ => exact reads_float x ref
  | .done (.char c) pos, _ => exact (rests_charText c).reads
  | .done (.string s) pos, _ => exact (rests_stringText s).reads

/-! ### Several texts -/

theorem reads_spaced_cons {text : String} {texts : List String} {s t : List Token}
    (htext : Reads text.toList s) (htexts : Reads (spaced texts).toList t)
    (hnil : texts = [] → t = []) : Reads (spaced (text :: texts)).toList (s ++ t) := by
  cases texts with
  | nil =>
    rw [hnil rfl, List.append_nil, spaced, String.intercalate_singleton]
    exact htext
  | cons next rest =>
    have hlist : (spaced (text :: next :: rest)).toList =
        text.toList ++ ' ' :: (spaced (next :: rest)).toList := by
      simp [spaced, String.intercalate_cons_cons]
    rw [hlist]
    exact htext.space htexts

theorem Token.texts_eq_nil_iff (ts : List Token) : Token.texts ts = [] ↔ ts = [] := by
  cases ts <;> simp [Token.texts]

theorem Entry.texts_eq_nil_iff (entries : List Entry) :
    Entry.texts entries = [] ↔ entries = [] := by
  rcases entries with _ | ⟨⟨key, value⟩, rest⟩ <;> simp [Entry.texts]

theorem reads_spaced_nil : Reads (spaced []).toList [] := rests_nil.reads

theorem Token.reads_spaced_texts {ts : List Token} (h : ∀ t ∈ ts, Reads t.text.toList [t.bare]) :
    Reads (spaced (Token.texts ts)).toList (Token.bares ts) := by
  induction ts with
  | nil => exact reads_spaced_nil
  | cons t ts ih =>
    refine reads_spaced_cons (s := [t.bare]) (h t (List.mem_cons_self ..))
      (ih fun u hu ↦ h u (List.mem_cons_of_mem t hu)) fun hnil ↦ ?_
    rw [(Token.texts_eq_nil_iff ts).mp hnil]
    rfl

/-! ### Values -/

/-- What stands between two brackets, after an opening that rests. -/
theorem reads_bracketed {a b : String} {c : Char} {s t : List Token} (ha : Rests a.toList s)
    (hb : Reads b.toList t) (hc : isClosing c = true) :
    Reads (a ++ b ++ c.toString).toList (s ++ (t ++ [.closing c.toString none])) := by
  have hlist : (a ++ b ++ c.toString).toList = a.toList ++ b.toList ++ [c] := by simp
  rw [hlist]
  exact (ha.bracketed hb hc).reads

mutual

/-- The text of data is read as its source. -/
theorem Value.reads_text (v : Value) (h : v.IsData) : Reads v.text.toList v.source := by
  match v, h with
  | .null, _ => exact reads_readable (w := "null") (by decide +kernel)
  | .bool true, _ => exact reads_readable (w := "true") (by decide +kernel)
  | .bool false, _ => exact reads_readable (w := "false") (by decide +kernel)
  | .int i, _ => exact reads_int i
  | .float x ref, _ => exact reads_float x ref
  | .char c, _ => exact (rests_charText c).reads
  | .string s, _ => exact (rests_stringText s).reads
  | .atom name, h =>
    rw [Value.text, String.toList_append]
    exact rests_colon.append_reads (reads_readable h)
  | .list items, h =>
    exact reads_bracketed (a := "[") (c := ']') (rests_opening (c := '[') rfl)
      (Token.reads_texts items h) rfl
  | .quote items, ⟨h, _⟩ =>
    exact reads_bracketed (a := ":(") (c := ')')
      (rests_colon.append (rests_opening (c := '(') rfl))
      (Token.reads_spaced_texts fun t ht ↦ Token.reads_text (h t ht)) rfl
  | .map entries, ⟨h, _⟩ =>
    exact reads_bracketed (a := "#map[") (c := ']')
      (rests_moded (c := '[') (m := "map") rfl (by decide +kernel))
      (Entry.reads_texts entries h) rfl
  | .set members, ⟨h, _⟩ =>
    exact reads_bracketed (a := "#set[") (c := ']')
      (rests_moded (c := '[') (m := "set") rfl (by decide +kernel))
      (Token.reads_texts members h) rfl

theorem Token.reads_texts (ts : List Token) (h : Token.AllData ts) :
    Reads (spaced (Token.texts ts)).toList (Token.sources ts) := by
  match ts, h with
  | [], _ => exact reads_spaced_nil
  | .done v pos :: ts, ⟨hv, hts⟩ =>
    refine reads_spaced_cons (Value.reads_text v hv) (Token.reads_texts ts hts) fun hnil ↦ ?_
    rw [(Token.texts_eq_nil_iff ts).mp hnil]
    rfl

theorem Entry.reads_texts (entries : List Entry) (h : Entry.AllData entries) :
    Reads (spaced (Entry.texts entries)).toList (Entry.sources entries) := by
  match entries, h with
  | [], _ => exact reads_spaced_nil
  | .mk (.done key kpos) (.done value vpos) :: entries, ⟨hkey, hvalue, hentries⟩ =>
    refine reads_spaced_cons ?_ (Entry.reads_texts entries hentries) fun hnil ↦ ?_
    · rw [String.append_assoc, String.toList_append, String.toList_append (s := " ")]
      exact (Value.reads_text key hkey).space (Value.reads_text value hvalue)
    · rw [(Entry.texts_eq_nil_iff entries).mp hnil]
      rfl

end

theorem Value.reads_encode {vs : List Value} (h : ∀ v ∈ vs, v.IsData) :
    Reads (Value.encode vs).toList (vs.flatMap Value.source) := by
  unfold Value.encode
  induction vs with
  | nil => exact reads_spaced_nil
  | cons v vs ih =>
    rw [List.map_cons, List.flatMap_cons]
    refine reads_spaced_cons (Value.reads_text v (h v (List.mem_cons_self ..)))
      (ih fun u hu ↦ h u (List.mem_cons_of_mem v hu)) fun hnil ↦ ?_
    rw [List.map_eq_nil_iff.mp hnil]
    rfl

/-! ### The beginning of a text -/

theorem Value.head?_text_ne (v : Value) (h : v.IsData) :
    v.text.toList.head? ≠ some Text.Source.byteOrderMark := by
  match v, h with
  | .null, _ => decide
  | .bool true, _ => decide
  | .bool false, _ => decide
  | .int i, _ =>
    intro hhead
    exact absurd (Numeral.numberText_toString _ _ (List.mem_of_head? hhead)) (by decide)
  | .float x ref, _ => exact (Decimal.write_isWord x).2.2
  | .char c, _ => simp [Value.text, Value.charText, Value.charMark, Text.Source.byteOrderMark]
  | .string s, _ => simp [Value.text, Value.stringText, Text.Source.byteOrderMark]
  | .atom name, _ => simp [Value.text, Text.Source.byteOrderMark]
  | .list items, _ => simp [Value.text, Text.Source.byteOrderMark]
  | .quote items, _ => simp [Value.text, Text.Source.byteOrderMark]
  | .map entries, _ => simp [Value.text, Text.Source.byteOrderMark]
  | .set members, _ => simp [Value.text, Text.Source.byteOrderMark]

/-- Nothing is dropped from what data is written as. -/
theorem Value.ofString_encode {vs : List Value} (h : ∀ v ∈ vs, v.IsData) :
    Text.Source.ofString (Value.encode vs) = (Value.encode vs).toList := by
  have hdrop : ∀ {l : List Char}, l.head? ≠ some Text.Source.byteOrderMark →
      Text.Source.dropMark l = l := by
    intro l hl
    cases l with
    | nil => rfl
    | cons c rest => exact if_neg fun hc ↦ hl (congrArg some hc)
  refine hdrop ?_
  cases vs with
  | nil => decide
  | cons v vs =>
    have hv := v.head?_text_ne (h v (List.mem_cons_self ..))
    cases vs with
    | nil => simpa [Value.encode, spaced] using hv
    | cons u vs =>
      have hlist : (Value.encode (v :: u :: vs)).toList =
          v.text.toList ++ ' ' :: (Value.encode (u :: vs)).toList := by
        simp [Value.encode, spaced, String.intercalate_cons_cons]
      rw [hlist]
      cases htext : v.text.toList with
      | nil => simp [Text.Source.byteOrderMark]
      | cons c rest =>
        rw [htext] at hv
        exact hv

end TokenLang

/-
Tokens as parts of the bytes of their text.

The offsets of a token count bytes, so a token is a slice of the bytes of the text. `Token.Marks` says which slices are
tokens: the bytes of its lexeme, at places between two characters, with no separator inside and one on either side, and
the line is counted by the line feeds in front.

- `Layout.isWordOf`: the tokens of a layout are words of the text where they stand;
- `Token.IsWordOf.marks`: what that says in bytes;
- `tokenize_marks`: in either mode, the tokens are slices of the part that is read;
- `Layout.pairwise`, `Layout.covers`: tokens stand in order with a gap between them, and outside of them there are only
  separators;
- `tokenize_spans`: all of this for the tokens of a text, which are also what one gets by asking one by one.
-/
import Mathlib.Tactic
import PolishCalc.Proofs.Token.Layout

namespace PolishCalc

open Text

/-- the token is a slice of the bytes of the text, a whole word of it, and has its line -/
structure Token.Marks (t : Token) (text : String) : Prop where
  start_lt_stop : t.span.start.toNat < t.span.stop.toNat
  start_valid : String.Pos.Raw.IsValid text ⟨t.span.start.toNat⟩
  stop_valid : String.Pos.Raw.IsValid text ⟨t.span.stop.toNat⟩
  lexeme : encode t.lexeme.toList = (encode text.toList).extract t.span.start.toNat t.span.stop.toNat
  inside : ∀ b ∈ encode t.lexeme.toList, isSeparatorByte b = false
  before : ∀ b ∈ ((encode text.toList).take t.span.start.toNat).getLast?, isSeparatorByte b = true
  behind : ∀ b ∈ (encode text.toList)[t.span.stop.toNat]?, isSeparatorByte b = true
  line : t.span.line = 1 + ((encode text.toList).take t.span.start.toNat).count 10

/-- the token is a word of the text, between separators or the ends, and knows where it stands -/
structure Token.IsWordOf (t : Token) (l u w v : List Char) : Prop where
  text : l = u ++ w ++ v
  nonempty : w ≠ []
  inside : ∀ c ∈ w, isSeparator c = false
  before : ∀ c ∈ u.getLast?, isSeparator c = true
  behind : ∀ c ∈ v.head?, isSeparator c = true
  place : t.IsAt (encode u).length (1 + u.count '\n') w

theorem Layout.isWordOf (o n : ℕ) (l : List Char) (ts : List Token) (h : Layout o n l ts) (pre : List Char)
    (ho : o = (encode pre).length) (hn : n = 1 + pre.count '\n')
    (hb : (∀ c ∈ pre.getLast?, isSeparator c = true) ∨ ∀ c ∈ l.head?, isSeparator c = true) :
    ∀ t ∈ ts, ∃ u w v, t.IsWordOf (pre ++ l) u w v := by
  induction h generalizing pre with
  | nil => simp
  | gap o n c l ts hc _ ih =>
    intro t ht
    have hpre : pre ++ c :: l = (pre ++ [c]) ++ l := by simp
    rw [hpre]
    refine ih (pre ++ [c]) ?_ ?_ (Or.inl (by simpa using hc)) t ht
    · simp [ho, encode]
    · by_cases hlf : c = '\n' <;> simp [hn, hlf, Nat.add_assoc]
  | word o n w l t ts hw hsep hl hat _ ih =>
    obtain ⟨d, r, hd, hdsep⟩ := isSeparator_head_word w l hw hsep
    refine List.forall_mem_cons.2 ⟨⟨pre, w, l, by simp, hw, hsep, ?_, hl, ho ▸ hn ▸ hat⟩, fun u hu => ?_⟩
    · refine hb.resolve_right fun hhead => ?_
      have := hhead d (by simp [hd])
      rw [hdsep] at this
      cases this
    · have hlf : '\n' ∉ w := fun hmem => absurd (hsep '\n' hmem) (by decide)
      rw [← List.append_assoc]
      refine ih (pre ++ w) ?_ ?_ (Or.inr hl) u hu
      · rw [encode_append, List.length_append, ho]
      · rw [List.count_append, List.count_eq_zero_of_not_mem hlf, hn, Nat.add_zero]

theorem isValid_of_append (text : String) (u v : List Char) (h : text.toList = u ++ v) :
    String.Pos.Raw.IsValid text ⟨(encode u).length⟩ := by
  rw [String.Pos.Raw.isValid_iff_exists_append]
  refine ⟨String.ofList u, String.ofList v, ?_, ?_⟩
  · rw [← String.ofList_append, ← h, String.ofList_toList]
  · have hsize := length_encode (String.ofList u)
    rw [String.toList_ofList] at hsize
    rw [hsize]
    rfl

/-- the first byte of a text belongs to its first character -/
theorem exists_of_mem_head? (l : List Char) (b : UInt8) (h : b ∈ (encode l).head?) :
    ∃ c ∈ l.head?, b ∈ String.utf8EncodeChar c := by
  cases l with
  | nil => cases h
  | cons c l =>
    rw [encode_cons, List.head?_append_of_ne_nil _ String.utf8EncodeChar_ne_nil] at h
    exact ⟨c, rfl, List.mem_of_mem_head? h⟩

/-- the last byte of a text belongs to its last character -/
theorem exists_of_mem_getLast? (l : List Char) (b : UInt8) (h : b ∈ (encode l).getLast?) :
    ∃ c ∈ l.getLast?, b ∈ String.utf8EncodeChar c := by
  rcases List.eq_nil_or_concat' l with rfl | ⟨l, c, rfl⟩
  · cases h
  · have hc : encode [c] = String.utf8EncodeChar c := by simp [encode]
    rw [encode_append, hc, List.getLast?_append_of_ne_nil _ String.utf8EncodeChar_ne_nil] at h
    exact ⟨c, by simp, List.mem_of_getLast? h⟩

theorem Token.IsWordOf.marks (t : Token) (text : String) (u w v : List Char) (h : t.IsWordOf text.toList u w v) :
    t.Marks text := by
  obtain ⟨htext, hne, hin, hbefore, hbehind, hlex, hline, hstart, hstop⟩ := h
  have hbytes : encode text.toList = encode u ++ (encode w ++ encode v) := by
    rw [htext, encode_append, encode_append, List.append_assoc]
  have hlexeme : t.lexeme.toList = w := by rw [hlex, String.toList_ofList]
  have htake : (encode text.toList).take t.span.start.toNat = encode u := by rw [hbytes, hstart, List.take_left]
  have hpos : 0 < (encode w).length := List.length_pos_of_ne_nil ((encode_eq_nil_iff w).not.2 hne)
  refine ⟨by omega, ?_, ?_, ?_, fun b hb => ?_, fun b hb => ?_, fun b hb => ?_, ?_⟩
  · rw [hstart]
    exact isValid_of_append text u (w ++ v) (by rw [htext, List.append_assoc])
  · rw [hstop, ← List.length_append, ← encode_append]
    exact isValid_of_append text (u ++ w) v htext
  · rw [hlexeme, hbytes, hstart, hstop, List.extract_eq_take_drop, List.drop_left, Nat.add_sub_cancel_left,
      List.take_left]
  · rw [hlexeme, encode, List.mem_flatMap] at hb
    obtain ⟨c, hc, hbc⟩ := hb
    rw [isSeparatorByte_of_mem c b hbc, hin c hc]
  · rw [htake] at hb
    obtain ⟨c, hc, hbc⟩ := exists_of_mem_getLast? u b hb
    rw [isSeparatorByte_of_mem c b hbc, hbefore c hc]
  · rw [hbytes, hstop, ← List.append_assoc, ← List.length_append, List.getElem?_append_right le_rfl, Nat.sub_self,
      ← List.head?_eq_getElem?] at hb
    obtain ⟨c, hc, hbc⟩ := exists_of_mem_head? v b hb
    rw [isSeparatorByte_of_mem c b hbc, hbehind c hc]
  · rw [htake, hline, count_encode]

/-- a word of a part of the text is a word of the text, if the part ends with a separator where the text goes on -/
theorem Token.IsWordOf.append (t : Token) (l u w v r : List Char) (h : t.IsWordOf l u w v)
    (hend : r = [] ∨ ∀ c ∈ l.getLast?, isSeparator c = true) : t.IsWordOf (l ++ r) u w (v ++ r) := by
  refine ⟨by rw [h.text, List.append_assoc], h.nonempty, h.inside, h.before, ?_, h.place⟩
  cases v with
  | cons c v => exact h.behind
  | nil =>
    -- then the part ends with the word, so it does not end with a separator
    obtain ⟨x, d, rfl⟩ := (List.eq_nil_or_concat' w).resolve_left h.nonempty
    have hsep : isSeparator d = false := h.inside d (by simp)
    rcases hend with rfl | hlast
    · simp
    · have := hlast d (by simp [h.text])
      rw [hsep] at this
      cases this

/-- the tokens are slices of the text, within the part of it that is read -/
theorem tokenize_marks (text : String) (mode : InputMode) (h : text.utf8ByteSize ≤ ByteOffset.last) :
    ∀ t ∈ tokenize text mode,
      t.Marks text ∧ t.span.stop.toNat ≤ (encode (mode.portion text.toList)).length := by
  intro t ht
  obtain ⟨u, w, v, hword⟩ := (layout_tokenize text mode h).isWordOf _ _ _ _ [] rfl rfl (Or.inl (by simp)) t ht
  rw [List.nil_append] at hword
  obtain ⟨r, hr, hend⟩ := mode.exists_portion_append text.toList
  have hall : t.IsWordOf text.toList u w (v ++ r) := by
    rw [hr]
    refine hword.append t _ u w v r (hend.imp_right fun hlast c hc => ?_)
    rw [hlast c hc]
    rfl
  refine ⟨hall.marks, ?_⟩
  rw [hword.place.stop, hword.text, encode_append, encode_append, List.length_append, List.length_append]
  exact Nat.le_add_right _ _

/-! ## Order and gaps -/

theorem Layout.le_start (o n : ℕ) (l : List Char) (ts : List Token) (h : Layout o n l ts) :
    ∀ t ∈ ts, o ≤ t.span.start.toNat := by
  induction h with
  | nil => simp
  | gap o n c l ts _ _ ih => exact fun t ht => le_trans (Nat.le_add_right _ _) (ih t ht)
  | word o n w l t ts _ _ _ hat _ ih =>
    exact List.forall_mem_cons.2 ⟨hat.start.ge, fun u hu => le_trans (Nat.le_add_right _ _) (ih u hu)⟩

/-- behind a separator there is no token at once -/
theorem Layout.lt_start (o n : ℕ) (l : List Char) (ts : List Token) (h : Layout o n l ts)
    (hl : ∀ c ∈ l.head?, isSeparator c = true) : ∀ t ∈ ts, o < t.span.start.toNat := by
  cases h with
  | nil => simp
  | gap _ _ c l _ _ h =>
    intro t ht
    have hle := h.le_start _ _ _ _ t ht
    have hsize := c.utf8Size_pos
    omega
  | word _ _ w l t ts hw hsep =>
    obtain ⟨c, r, hc, hcsep⟩ := isSeparator_head_word w l hw hsep
    have := hl c (by simp [hc])
    rw [hcsep] at this
    cases this

/-- each token ends before the next one starts, with a gap between them -/
theorem Layout.pairwise (o n : ℕ) (l : List Char) (ts : List Token) (h : Layout o n l ts) :
    ts.Pairwise fun t u => t.span.stop.toNat < u.span.start.toNat := by
  induction h with
  | nil => exact .nil
  | gap _ _ _ _ _ _ _ ih => exact ih
  | word o n w l t ts _ _ hl hat h ih =>
    refine .cons (fun u hu => ?_) ih
    rw [hat.stop]
    exact h.lt_start _ _ _ _ hl u hu

/-- outside of the tokens there are only separators -/
theorem Layout.covers (o n : ℕ) (l : List Char) (ts : List Token) (h : Layout o n l ts) (i : ℕ) (b : UInt8)
    (hb : (encode l)[i]? = some b)
    (hout : ∀ t ∈ ts, ¬ (t.span.start.toNat ≤ o + i ∧ o + i < t.span.stop.toNat)) : isSeparatorByte b = true := by
  induction h generalizing i with
  | nil => simp [encode] at hb
  | gap o n c l ts hc _ ih =>
    rw [encode_cons] at hb
    by_cases hi : i < c.utf8Size
    · rw [List.getElem?_append_left (by simpa using hi)] at hb
      rw [isSeparatorByte_of_mem c b (List.mem_of_getElem? hb), hc]
    · rw [List.getElem?_append_right (by simpa using hi), String.length_utf8EncodeChar] at hb
      refine ih (i - c.utf8Size) hb fun t ht => ?_
      have hi' : o + c.utf8Size + (i - c.utf8Size) = o + i := by omega
      rw [hi']
      exact hout t ht
  | word o n w l t ts _ _ _ hat _ ih =>
    obtain ⟨ht, hts⟩ := List.forall_mem_cons.1 hout
    rw [hat.start, hat.stop] at ht
    have hi : (encode w).length ≤ i := by omega
    rw [encode_append, List.getElem?_append_right hi] at hb
    refine ih (i - (encode w).length) hb fun u hu => ?_
    have hi' : o + (encode w).length + (i - (encode w).length) = o + i := by omega
    rw [hi']
    exact hts u hu

/-! ## The tokens of a text -/

/-- **The tokens of a text are its words.** In a text whose offsets fit, the tokens stand in order with a gap between
them; each is a whole word, a slice of the bytes between two characters, with its line; and all bytes outside of the
tokens are separators. In either mode, tokens asked for one by one are the same tokens in order, then none for ever;
what was not yet asked for is left, and no call fails to answer. -/
theorem tokenize_spans (text : String) (h : text.utf8ByteSize ≤ ByteOffset.last) :
    ((tokenize text .file).Pairwise fun t u => t.span.stop.toNat < u.span.start.toNat) ∧
    (∀ t ∈ tokenize text .file, t.Marks text) ∧
    (∀ i b, (encode text.toList)[i]? = some b →
      (∀ t ∈ tokenize text .file, ¬ (t.span.start.toNat ≤ i ∧ i < t.span.stop.toNat)) → isSeparatorByte b = true) ∧
    ∀ mode k,
      (Lexer.calls k (Lexer.ofText text mode)).1 = (List.range k).map (fun i => (tokenize text mode)[i]?) ∧
      (Lexer.calls k (Lexer.ofText text mode)).2.tokens = (tokenize text mode).drop k ∧
      (Lexer.calls k (Lexer.ofText text mode)).2.next ≠ .stalled := by
  have hlay : Layout 0 1 text.toList (tokenize text .file) := layout_tokenize text .file h
  refine ⟨hlay.pairwise, fun t ht => (tokenize_marks text .file h t ht).1, fun i b hb hout => ?_, fun mode k => ?_⟩
  · exact hlay.covers _ _ _ _ i b hb (by simpa using hout)
  · obtain ⟨hanswers, hleft⟩ := Lexer.calls_eq k (Lexer.ofText text mode)
    exact ⟨hanswers, hleft, Lexer.calls_next_ne_stalled k _ (Or.inr (hasRoom_start text mode h))⟩

/-- two words, one of them wide, with a return and a line feed between them -/
theorem tokenize_spans_wide :
    "é\r\n=x".utf8ByteSize ≤ ByteOffset.last ∧
    tokenize "é\r\n=x" .file = [⟨"é", .between 1 (.ofNat 0) (.ofNat 2)⟩, ⟨"=x", .between 2 (.ofNat 4) (.ofNat 6)⟩] ∧
    ∀ t ∈ tokenize "é\r\n=x" .file, t.Marks "é\r\n=x" := by
  have hfirst : (Lexer.ofText "é\r\n=x" .file).next =
      .token ⟨"é", .between 1 (.ofNat 0) (.ofNat 2)⟩ ⟨.file, ⟨['\r', '\n', '=', 'x'], .ofNat 2, 1⟩, false, false⟩ := by
    cbv
  have hsecond : (Lexer.mk .file ⟨['\r', '\n', '=', 'x'], .ofNat 2, 1⟩ false false).next =
      .token ⟨"=x", .between 2 (.ofNat 4) (.ofNat 6)⟩ ⟨.file, ⟨[], .ofNat 6, 2⟩, false, false⟩ := by cbv
  have hend : (Lexer.mk .file ⟨[], .ofNat 6, 2⟩ false false).next =
      .finished ⟨.file, ⟨[], .ofNat 6, 2⟩, false, true⟩ := by cbv
  have hsize : "é\r\n=x".utf8ByteSize ≤ ByteOffset.last := by decide
  refine ⟨hsize, ?_, (tokenize_spans _ hsize).2.1⟩
  rw [tokenize, Lexer.tokens_of_token _ _ _ hfirst, Lexer.tokens_of_token _ _ _ hsecond,
    Lexer.tokens_of_finished _ _ hend]

end PolishCalc

/-
Tokens that differ in their places only.

Two tokens are alike when they have one lexeme and their spans are related. What relation that is depends on the texts
they come from: the same words may stand further on, or on other lines. Sequences of tokens are compared one by one.

- `Layout.further`: the tokens of a text that starts further on are further on by as much;
- `tokenize_append_line`: the tokens of a text behind another one, on a line of their own;
- `Layout.numbered`: lexemes and lines alone are the words of the lines, each with the number of its line.
-/
import Mathlib.Tactic
import PolishCalc.Proofs.Token.Layout

namespace PolishCalc

open Text

/-- two tokens with one lexeme, and spans in the relation `S` -/
structure Token.Alike (S : Span → Span → Prop) (t u : Token) : Prop where
  lexeme : t.lexeme = u.lexeme
  span : S t.span u.span

/-- the span `s'` is the span `s`, so many bytes and lines further on -/
structure Span.Further (bytes lines : ℕ) (s s' : Span) : Prop where
  line : s'.line = s.line + lines
  start : s'.start.toNat = s.start.toNat + bytes
  stop : s'.stop.toNat = s.stop.toNat + bytes

/-- the spans are on one line -/
def Span.OnOneLine (s s' : Span) : Prop := s.line = s'.line

/-! ## The same text further on -/

theorem Token.IsAt.further (t u : Token) (o n bytes lines : ℕ) (w : List Char) (ht : t.IsAt o n w)
    (hu : u.IsAt (o + bytes) (n + lines) w) : t.Alike (Span.Further bytes lines) u := by
  refine ⟨by rw [ht.lexeme, hu.lexeme], by rw [ht.line, hu.line], by rw [ht.start, hu.start], ?_⟩
  rw [ht.stop, hu.stop, Nat.add_right_comm]

theorem Layout.further (o n bytes lines : ℕ) (l : List Char) (ts us : List Token) (h : Layout o n l ts)
    (h' : Layout (o + bytes) (n + lines) l us) : List.Forall₂ (Token.Alike (Span.Further bytes lines)) ts us := by
  induction h generalizing us with
  | nil o n =>
    rw [h'.eq_nil]
    exact .nil
  | gap o n c l ts hc _ ih =>
    have hgap := h'.of_separator _ _ c l us hc
    have hline : (if c = '\n' then n + lines + 1 else n + lines) = (if c = '\n' then n + 1 else n) + lines := by
      split_ifs <;> omega
    rw [Nat.add_right_comm, hline] at hgap
    exact ih us hgap
  | word o n w l t ts hw hsep hl ht _ ih =>
    obtain ⟨u, vs, rfl, hu, hvs⟩ := h'.of_word _ _ w l us hw hsep hl
    rw [Nat.add_right_comm] at hvs
    exact .cons (ht.further t u o n bytes lines w hu) (ih vs hvs)

/-! ## One text behind another -/

/-- two texts with a line feed between them are laid out one after the other -/
theorem Layout.append_line (o n : ℕ) (l l' : List Char) (ts us : List Token) (h : Layout o n l ts)
    (h' : Layout (o + ((encode l).length + 1)) (n + (1 + l.count '\n')) l' us) :
    Layout o n (l ++ '\n' :: l') (ts ++ us) := by
  induction h with
  | nil o n => exact .gap o n '\n' l' us rfl h'
  | gap o n c l ts hc _ ih =>
    refine .gap o n c _ _ hc (ih ?_)
    have hoff : o + ((encode (c :: l)).length + 1) = o + c.utf8Size + ((encode l).length + 1) := by
      rw [encode_cons, List.length_append, String.length_utf8EncodeChar]
      omega
    have hline : n + (1 + (c :: l).count '\n') = (if c = '\n' then n + 1 else n) + (1 + l.count '\n') := by
      by_cases hlf : c = '\n' <;> simp [hlf]
      omega
    rwa [hoff, hline] at h'
  | word o n w l t ts hw hsep hl ht _ ih =>
    have hlf : '\n' ∉ w := fun hmem => absurd (hsep '\n' hmem) (by decide)
    rw [List.append_assoc, List.cons_append]
    refine .word o n w _ t _ hw hsep ?_ ht (ih ?_)
    · cases l with
      | nil => simp [isSeparator]
      | cons c l => exact hl
    · have hoff : o + ((encode (w ++ l)).length + 1) = o + (encode w).length + ((encode l).length + 1) := by
        rw [encode_append, List.length_append]
        omega
      rwa [hoff, List.count_append, List.count_eq_zero_of_not_mem hlf, Nat.zero_add] at h'

/-- the tokens of a text that starts at an offset on a line -/
theorem exists_layout (l : List Char) (o n : ℕ) (h : o + (encode l).length ≤ ByteOffset.last) :
    ∃ ts, Layout o n l ts := by
  have hroom : Cursor.HasRoom ⟨l, ⟨o, by omega⟩, n⟩ := h
  exact ⟨_, Lexer.lays_tokens ⟨.file, ⟨l, ⟨o, by omega⟩, n⟩, true, false⟩ hroom⟩

/-- behind a text and a line feed, the tokens of another text come after those of the first, and further on by as much
as the first text and the line feed take -/
theorem tokenize_append_line (s t : String) (h : (s ++ "\n" ++ t).utf8ByteSize ≤ ByteOffset.last) :
    ∃ us, tokenize (s ++ "\n" ++ t) .file = tokenize s .file ++ us ∧
      List.Forall₂ (Token.Alike (Span.Further (s.utf8ByteSize + 1) (1 + (encode s.toList).count 10)))
        (tokenize t .file) us := by
  have htext : (s ++ "\n" ++ t).toList = s.toList ++ '\n' :: t.toList := by simp
  have hsize : s.utf8ByteSize + 1 + t.utf8ByteSize ≤ ByteOffset.last := by
    rw [← length_encode, htext, length_encode_line, length_encode, length_encode] at h
    omega
  have hs : Layout 0 1 s.toList (tokenize s .file) := layout_tokenize s .file (by omega)
  have ht : Layout 0 1 t.toList (tokenize t .file) := layout_tokenize t .file (by omega)
  have hst : Layout 0 1 (s.toList ++ '\n' :: t.toList) (tokenize (s ++ "\n" ++ t) .file) :=
    htext ▸ layout_tokenize (s ++ "\n" ++ t) .file h
  obtain ⟨us, hus⟩ := exists_layout t.toList (0 + (s.utf8ByteSize + 1)) (1 + (1 + (encode s.toList).count 10))
    (by rw [length_encode]; omega)
  refine ⟨us, hst.unique _ _ _ _ _ (hs.append_line 0 1 _ _ _ us ?_), ht.further 0 1 _ _ _ _ us hus⟩
  rwa [length_encode, ← count_encode]

/-! ## Lexemes and lines -/

/-- the lexemes and the lines of the tokens are the words of the lines with their numbers -/
theorem Layout.numbered (o n : ℕ) (l : List Char) (ts : List Token) (h : Layout o n l ts) :
    ts.map (fun t => (t.lexeme.toList, t.span.line)) = numberedWords n (l.splitOn '\n') := by
  induction h with
  | nil => rfl
  | gap o n c l ts hc _ ih =>
    rw [ih]
    by_cases hlf : c = '\n'
    · rw [if_pos hlf, hlf, List.splitOn_cons_eq_if_modifyHead, if_pos (by simp)]
      rfl
    · obtain ⟨p, ps, hps, -⟩ := exists_splitOn_cons l
      have hsplit : (c :: l).splitOn '\n' = (c :: p) :: ps :=
        splitOn_append_of_splitOn [c] l p ps (by simpa using Ne.symm hlf) hps
      rw [if_neg hlf, hsplit, hps, numberedWords, numberedWords, words_cons_separator c p hc]
  | word o n w l t ts hw hsep hl ht _ ih =>
    have hlf : '\n' ∉ w := fun hmem => absurd (hsep '\n' hmem) (by decide)
    obtain ⟨p, ps, hps, hhead⟩ := exists_splitOn_cons l
    have hp : words (w ++ p) = w :: words p := words_append_word w p hw hsep fun c hc => hl c (hhead c hc)
    rw [splitOn_append_of_splitOn w l p ps hlf hps, numberedWords, hp, List.map_cons, List.map_cons, List.cons_append,
      ht.lexeme, ht.line, String.toList_ofList, ih, hps, numberedWords]

/-- tokens with the same lexemes on the same lines -/
theorem alike_of_numbered (ts us : List Token) (h : ts.map (fun t => (t.lexeme.toList, t.span.line)) =
    us.map (fun t => (t.lexeme.toList, t.span.line))) : List.Forall₂ (Token.Alike Span.OnOneLine) ts us := by
  rw [← List.forall₂_eq_eq_eq, List.forall₂_map_left_iff, List.forall₂_map_right_iff] at h
  refine h.imp fun t u htu => ?_
  obtain ⟨hlex, hline⟩ := Prod.mk.inj htu
  exact ⟨String.toList_inj.1 hlex, hline⟩

end PolishCalc

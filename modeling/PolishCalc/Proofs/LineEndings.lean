/-
Line feeds with and without a return in front.

`crlf` puts a carriage return in front of every line feed, also where there is one already. To the lexer a return is a
separator like any other, so it moves what follows and parts nothing that was not parted. The assembler drops one return
at the end of a line, and what is left of others separates no words. The terminator line is looked for without white
space at its ends, and a return is white space.

- `portion_withReturns`: the terminator line is where it was;
- `Layout.withReturns`: a token starts later by one byte for each line above it;
- `words_pieces_withReturns`: the lines have the same words;
- `crlf_eq_lf`: tokens, code and results of a text, whichever line ends it has.
-/
import Mathlib.Tactic
import PolishCalc.Compilation
import PolishCalc.Proofs.Code.Grammar
import PolishCalc.Proofs.Token.Alike
import PolishCalc.Proofs.Token.Spans

namespace PolishCalc

open Text

/-! ## Returns at the end of lines -/

namespace Text

/-- the text with a return in front of each line feed -/
def withReturns (l : List Char) : List Char := l.flatMap fun c => if c = '\n' then ['\r', '\n'] else [c]

theorem withReturns_cons (c : Char) (l : List Char) (h : c ≠ '\n') : withReturns (c :: l) = c :: withReturns l := by
  rw [withReturns, List.flatMap_cons, if_neg h]
  rfl

theorem withReturns_append (p l : List Char) (h : '\n' ∉ p) : withReturns (p ++ l) = p ++ withReturns l := by
  induction p with
  | nil => rfl
  | cons c p ih =>
    obtain ⟨hc, hp⟩ := List.ne_and_not_mem_of_not_mem_cons h
    rw [List.cons_append, withReturns_cons c _ hc.symm, ih hp, List.cons_append]

theorem withReturns_of_not_mem (p : List Char) (h : '\n' ∉ p) : withReturns p = p := by
  have hp := withReturns_append p [] h
  rwa [List.append_nil, show withReturns [] = [] from rfl, List.append_nil] at hp

/-- a line and its line end -/
theorem withReturns_line (p l : List Char) (h : '\n' ∉ p) :
    withReturns (p ++ '\n' :: l) = (p ++ ['\r']) ++ '\n' :: withReturns l := by
  rw [withReturns_append p _ h, List.append_assoc]
  rfl

theorem not_mem_append_return (p : List Char) (h : '\n' ∉ p) : '\n' ∉ p ++ ['\r'] := by simpa using h

/-- no word starts where none started -/
theorem isSeparator_head_withReturns (l : List Char) (h : ∀ c ∈ l.head?, isSeparator c = true) :
    ∀ c ∈ (withReturns l).head?, isSeparator c = true := by
  cases l with
  | nil => exact h
  | cons d l =>
    by_cases hd : d = '\n'
    · rw [hd]
      exact fun c hc => by cases hc; rfl
    · rw [withReturns_cons d l hd]
      exact h

theorem length_le_withReturns (l : List Char) : (encode l).length ≤ (encode (withReturns l)).length := by
  induction l using line_induction '\n' with
  | last p hp => rw [withReturns_of_not_mem p hp]
  | line p l hp ih =>
    rw [withReturns_line p l hp, length_encode_line, length_encode_line, encode_append, List.length_append]
    omega

end Text

def crlf (text : String) : String := String.ofList (withReturns text.toList)

theorem size_le_crlf (text : String) : text.utf8ByteSize ≤ (crlf text).utf8ByteSize := by
  rw [← length_encode, ← length_encode, crlf, String.toList_ofList]
  exact length_le_withReturns text.toList

theorem beforeTerminator_withReturns (l : List Char) :
    beforeTerminator (withReturns l) = withReturns (beforeTerminator l) := by
  induction l using line_induction '\n' with
  | last p hp =>
    rw [withReturns_of_not_mem p hp, beforeTerminator_of_not_mem p hp]
    split
    · rfl
    · exact (withReturns_of_not_mem p hp).symm
  | line p l hp ih =>
    rw [withReturns_line p l hp, beforeTerminator_append _ _ (not_mem_append_return p hp), beforeTerminator_append p l hp,
      isTerminatorLine_concat_return, ih]
    split
    · rfl
    · exact (withReturns_line p _ hp).symm

/-- the part of a text that is read ends on the same line -/
theorem portion_withReturns (mode : InputMode) (l : List Char) :
    mode.portion (withReturns l) = withReturns (mode.portion l) := by
  cases mode with
  | file => rfl
  | interactive => exact beforeTerminator_withReturns l

/-! ## Tokens -/

/-- the span `s'` is on the line of `s`, and later by one byte for each line above -/
structure Span.LaterByLines (s s' : Span) : Prop where
  line : s'.line = s.line
  start : s'.start.toNat + 1 = s.start.toNat + s.line
  stop : s'.stop.toNat + 1 = s.stop.toNat + s.line

/-- the span `s'` is on the line of `s`, and later by one byte for each line feed of the text in front of `s` -/
structure Span.PastReturns (text : String) (s s' : Span) : Prop where
  line : s'.line = s.line
  start : s'.start.toNat = s.start.toNat + ((encode text.toList).take s.start.toNat).count 10
  stop : s'.stop.toNat = s.stop.toNat + ((encode text.toList).take s.start.toNat).count 10

theorem Layout.withReturns (o o' n : ℕ) (l : List Char) (ts us : List Token) (h : Layout o n l ts)
    (h' : Layout o' n (Text.withReturns l) us) (ho : o' + 1 = o + n) :
    List.Forall₂ (Token.Alike Span.LaterByLines) ts us := by
  induction h generalizing o' us with
  | nil o n =>
    rw [h'.eq_nil]
    exact .nil
  | gap o n c l ts hc _ ih =>
    by_cases hlf : c = '\n'
    · subst hlf
      -- the return is one more separator, on the line that ends
      have hreturn : Layout o' n ('\r' :: '\n' :: Text.withReturns l) us := h'
      have hfeed : Layout (o' + 1 + 1) (n + 1) (Text.withReturns l) us :=
        (hreturn.of_separator _ _ _ _ us rfl).of_separator _ _ _ _ us rfl
      have hone : '\n'.utf8Size = 1 := rfl
      rw [if_pos rfl] at ih
      exact ih _ us hfeed (by omega)
    · rw [withReturns_cons c l hlf] at h'
      have hgap := h'.of_separator _ _ c _ us hc
      rw [if_neg hlf] at hgap ih
      exact ih _ us hgap (by omega)
  | word o n w l t ts hw hsep hl ht _ ih =>
    have hlf : '\n' ∉ w := fun hmem => absurd (hsep '\n' hmem) (by decide)
    rw [withReturns_append w l hlf] at h'
    obtain ⟨u, vs, rfl, hu, hvs⟩ := h'.of_word _ _ w _ us hw hsep (isSeparator_head_withReturns l hl)
    refine .cons ⟨by rw [ht.lexeme, hu.lexeme], by rw [ht.line, hu.line], ?_, ?_⟩ (ih _ vs hvs (by omega))
    · rw [hu.start, ht.start, ht.line, ho]
    · rw [hu.stop, ht.stop, ht.line]
      omega

theorem tokenize_crlf (text : String) (mode : InputMode) (h : (crlf text).utf8ByteSize ≤ ByteOffset.last) :
    List.Forall₂ (Token.Alike (Span.PastReturns text)) (tokenize text mode) (tokenize (crlf text) mode) := by
  have hsize := le_trans (size_le_crlf text) h
  have hreturns := layout_tokenize (crlf text) mode h
  rw [crlf, String.toList_ofList, portion_withReturns, ← crlf] at hreturns
  have hlater := (layout_tokenize text mode hsize).withReturns 0 0 1 _ _ _ hreturns rfl
  refine List.forall₂_iff_zip.2 ⟨hlater.length_eq, fun {t u} hmem => ?_⟩
  obtain ⟨hlex, hspan⟩ := (List.forall₂_iff_zip.1 hlater).2 hmem
  -- the lines above a token are as many as the line feeds in front of it
  have hline := (tokenize_marks text mode hsize t (List.of_mem_zip hmem).1).1.line
  have hstart := hspan.start
  have hstop := hspan.stop
  exact ⟨hlex, hspan.line, by omega, by omega⟩

/-! ## Code -/

namespace Code

/-- the pieces that are read have the same words -/
theorem words_pieces_withReturns (mode : InputMode) (l : List Char) :
    (((Text.withReturns l).splitOn '\n').takeWhile fun p => !mode.endsAt p).map words =
      ((l.splitOn '\n').takeWhile fun p => !mode.endsAt p).map words := by
  induction l using line_induction '\n' with
  | last p hp => rw [withReturns_of_not_mem p hp]
  | line p l hp ih =>
    have hends : mode.endsAt (p ++ ['\r']) = mode.endsAt p := by
      rw [InputMode.endsAt, isTerminatorLine_concat_return]
      rfl
    rw [withReturns_line p l hp, List.splitOn_append_cons_self_of_not_mem (not_mem_append_return p hp),
      List.splitOn_append_cons_self_of_not_mem hp, List.takeWhile_cons, List.takeWhile_cons, hends]
    split
    · rw [List.map_cons, List.map_cons, words_concat_separator p '\r' rfl, ih]
    · rfl

theorem assemble_crlf (text : String) (mode : InputMode) : assemble (crlf text) mode = assemble text mode := by
  rw [assemble_eq_pieces, assemble_eq_pieces]
  refine assembleAfter_congr _ _ ?_ #[] 1
  rw [pieces, crlf, String.toList_ofList]
  exact words_pieces_withReturns mode text.toList

end Code

/-- **Line endings do not matter.** With a return in front of each line feed, a text keeps its lexemes and their lines in
either mode, as far as the offsets fit, and each token is later by as many bytes as there are line feeds in front of it.
It is assembled to the same code or the same error, and run with the same result. -/
theorem crlf_eq_lf (text : String) (mode : InputMode) :
    ((crlf text).utf8ByteSize ≤ ByteOffset.last →
      List.Forall₂ (Token.Alike (Span.PastReturns text)) (tokenize text mode) (tokenize (crlf text) mode)) ∧
    Code.assemble (crlf text) mode = Code.assemble text mode ∧
    assembleAndRun (crlf text) mode = assembleAndRun text mode := by
  refine ⟨tokenize_crlf text mode, Code.assemble_crlf text mode, ?_⟩
  rw [assembleAndRun, Code.assemble_crlf]
  rfl

/-- a lone return in a line, one before a line feed already, and one at a terminator line -/
theorem crlf_eq_lf_returns :
    crlf "@ 1\r2\r\né\n.\r\n@" = "@ 1\r2\r\r\né\r\n.\r\r\n@" ∧
    (crlf "@ 1\r2\r\né\n.\r\n@").utf8ByteSize ≤ ByteOffset.last ∧
    List.Forall₂ (Token.Alike (Span.PastReturns "@ 1\r2\r\né\n.\r\n@"))
      (tokenize "@ 1\r2\r\né\n.\r\n@" .interactive) (tokenize "@ 1\r2\r\r\né\r\n.\r\r\n@" .interactive) ∧
    Code.assemble "@ 1\r2\r\r\né\r\n.\r\r\n@" .interactive = .error ⟨.illegalInstruction, 1, "@"⟩ := by
  have htext : crlf "@ 1\r2\r\né\n.\r\n@" = "@ 1\r2\r\r\né\r\n.\r\r\n@" := by decide
  have hsize : (crlf "@ 1\r2\r\né\n.\r\n@").utf8ByteSize ≤ ByteOffset.last := by
    rw [htext]
    decide
  obtain ⟨htokens, hcode, -⟩ := crlf_eq_lf "@ 1\r2\r\né\n.\r\n@" .interactive
  rw [htext] at hcode
  refine ⟨htext, hsize, htext ▸ htokens hsize, ?_⟩
  rw [hcode]
  decide +kernel

end PolishCalc

/-
Parse errors point at the text they are about.

An error of the parser carries the lexeme and the span of a token, and the tokens come from a text. So the error tells
a reader of the text where to look: the bytes between its offsets are the lexeme it names, and its line is the line they
stand on. The one other error says that the text ended too early; it has no place, and nothing of the text is left.

- `program_error_cases`: the parser fails at one of its tokens or has taken them all;
- `ofText_error_place`: what this says about the text, and what the kind of the error says about the lexeme.
-/
import Mathlib.Tactic
import PolishCalc.Proofs.Program.Remainder
import PolishCalc.Proofs.Token.Spans

namespace PolishCalc

open Lexeme Text PolishCalc.Parser

namespace ParseError

/-- the error names the token, which is a slice of the text within the part of it that is read -/
structure PointsAt (e : ParseError) (text : String) (mode : InputMode) (t : Token) : Prop where
  mem : t ∈ tokenize text mode
  span : e.span = some t.span
  found : e.found = some t.lexeme
  marks : t.Marks text
  stop_le : t.span.stop.toNat ≤ (encode (mode.portion text.toList)).length

/-- the error says that the text ended too early: it names no token, and the parser has taken all of them -/
structure IsAtEnd (e : ParseError) (text : String) (mode : InputMode) : Prop where
  span : e.span = none
  found : e.found = none
  kind : e.kind = .prematureEnd
  taken : Parser.program Parser.defaultNesting (tokenize text mode) = .error e []

end ParseError

theorem program_error_cases (limit : ℕ) (ts rest : List Token) (e : ParseError)
    (h : Parser.program limit ts = .error e rest) :
    (e.span = none ∧ e.found = none ∧ e.kind = .prematureEnd ∧ rest = []) ∨
      ∃ t ∈ ts, e.span = some t.span ∧ e.found = some t.lexeme := by
  cases actionsAfter_stops limit #[] ts rest e h with
  | exhausted hk hs hf _ => exact Or.inl ⟨hs, hf, hk, rfl⟩
  | behind pre post t hts hs hf => exact Or.inr ⟨t, by simp [hts], hs, hf⟩
  | before pre post t hts hs hf => exact Or.inr ⟨t, by simp [hts], hs, hf⟩

/-- **Parse errors point at the text.** In a text whose offsets fit, read in either mode, a parse error names a token: the
bytes between its offsets are the lexeme that is named, its line is that of these bytes, and it ends before the
terminator line if there is one. Otherwise the error says that the text ended too early, and the parser has taken all
tokens. And the lexeme that is named is of the sort that the kind of the error is about. -/
theorem ofText_error_place (text : String) (mode : InputMode) (e : ParseError)
    (hsize : text.utf8ByteSize ≤ ByteOffset.last) (he : Program.ofText text mode = .error e) :
    ((∃ t, e.PointsAt text mode t) ∨ e.IsAtEnd text mode) ∧ ∀ s, e.found = some s → e.kind.Blames s := by
  obtain ⟨rest, hrun⟩ := (ofTokens_eq_error_iff _ _ e).1 he
  refine ⟨?_, actionsAfter_apt _ _ _ _ _ hrun⟩
  rcases program_error_cases _ _ _ e hrun with ⟨hs, hf, hk, rfl⟩ | ⟨t, ht, hs, hf⟩
  · exact Or.inr ⟨hs, hf, hk, hrun⟩
  · obtain ⟨hmarks, hstop⟩ := tokenize_marks text mode hsize t ht
    exact Or.inl ⟨t, ht, hs, hf, hmarks, hstop⟩

/-- a wide word on the second line, with a terminator line somewhere behind it, is no marker -/
theorem ofText_error_place_wide :
    "\n é\r\n .\n@".utf8ByteSize ≤ ByteOffset.last ∧
    Program.ofText "\n é\r\n .\n@" .interactive = .error (.illegalAction ⟨"é", .between 2 (.ofNat 2) (.ofNat 4)⟩) ∧
    (ParseError.illegalAction ⟨"é", .between 2 (.ofNat 2) (.ofNat 4)⟩).PointsAt "\n é\r\n .\n@" .interactive
      ⟨"é", .between 2 (.ofNat 2) (.ofNat 4)⟩ ∧
    ParseError.Kind.illegalAction.Blames "é" := by
  have hsize : "\n é\r\n .\n@".utf8ByteSize ≤ ByteOffset.last := by decide
  have hlay : Layout 0 1 (InputMode.interactive.portion "\n é\r\n .\n@".toList)
      [⟨"é", .between 2 (.ofNat 2) (.ofNat 4)⟩] :=
    .gap _ _ '\n' _ _ rfl <| .gap _ _ ' ' _ _ rfl <|
      .word _ _ ['é'] ['\r', '\n'] _ _ (by decide) (List.forall_mem_singleton.2 rfl) (by simp; rfl) ⟨rfl, rfl, rfl, rfl⟩ <|
        .gap _ _ '\r' _ _ rfl <| .gap _ _ '\n' _ _ rfl <| .nil _ _
  have htokens := (layout_tokenize _ _ hsize).unique _ _ _ _ _ hlay
  have herror : Program.ofText "\n é\r\n .\n@" .interactive =
      .error (.illegalAction ⟨"é", .between 2 (.ofNat 2) (.ofNat 4)⟩) := by
    rw [Program.ofText, htokens, ofTokens_eq_error_iff]
    exact ⟨[], actionsAfter_of_error _ _ _ _ _ _ (action_illegal _ _ _ (by decide) (by decide))⟩
  obtain ⟨hplace, hkind⟩ := ofText_error_place _ _ _ hsize herror
  obtain ⟨t, ht⟩ := hplace.resolve_right fun hend => by cases hend.span
  have hmem := ht.mem
  rw [htokens, List.mem_singleton] at hmem
  exact ⟨hsize, herror, hmem ▸ ht, hkind _ rfl⟩

end PolishCalc

/-
One program text behind another.

An action is read off the front of the tokens whatever follows it, and nothing of it is kept but the action itself. So
the tokens of a program leave the parser where it starts, and the tokens behind them are parsed as if they stood alone:
the actions that they spell come behind, and an error among them is the same error, as far on in the text as the tokens
are. An error at a token has been decided before anything behind that token is seen.

- `actionsAfter_acc`: actions that have been read make no difference to those that follow;
- `ofTokens_append`, `ofTokens_append_of_error`: what this says about two sequences of tokens;
- `ofText_append`: two texts on lines of their own.
-/
import Mathlib.Tactic
import PolishCalc.Compilation
import PolishCalc.Proofs.Program.Uniform

namespace PolishCalc

open Text PolishCalc.Parser

/-! ## Code -/

theorem Code.render_append (c d : Code) : Code.render (c ++ d) = c.render ++ d.render := by
  simp [Code.render, String.join_append]

/-- the text of two programs in a row is the text of the first, then the text of the second -/
theorem Program.codeText_append (p q : Program) : Program.codeText (p ++ q) = p.codeText ++ q.codeText := by
  rw [codeText, code_append, Code.render_append, codeText, codeText]

/-! ## Tokens -/

namespace Parser

/-- actions that have been read make no difference to those that follow -/
theorem actionsAfter_acc (limit : ℕ) (done acc : Array Action) (ts : List Token) :
    actionsAfter limit (done ++ acc) ts =
      match actionsAfter limit acc ts with
      | .ok p rest => .ok (done.toList ++ p) rest
      | .error e rest => .error e rest := by
  fun_induction actionsAfter limit acc ts with
  | case1 acc => rw [actionsAfter_nil, Array.toList_append]
  | case2 acc t ts a rest ha ih => rw [actionsAfter_of_ok _ _ _ _ _ ha, ← Array.append_push, ih]
  | case3 acc t ts e rest he => rw [actionsAfter_of_error _ _ _ _ _ _ he]

/-- behind the tokens of a program the parser goes on with the actions of the program -/
theorem actionsAfter_append (limit : ℕ) (acc : Array Action) (ts us rest : List Token) (p : Program)
    (h : actionsAfter limit acc ts = .ok p rest) : actionsAfter limit acc (ts ++ us) = actionsAfter limit p.toArray us := by
  fun_induction actionsAfter limit acc ts with
  | case1 acc =>
    cases h
    rw [List.nil_append, Array.toArray_toList]
  | case2 acc t ts a mid ha ih =>
    -- the first action is read whatever follows it
    obtain ⟨pre, hts, hread⟩ := (action_decides limit (t :: ts)).of_ok _ _ _ _ ha
    rw [hts, List.append_assoc, actionsAfter_of_reads limit acc pre _ a hread, ih h]
  | case3 acc t ts e mid he => cases h

end Parser

theorem ofTokens_append (limit : ℕ) (ts us : List Token) (p : Program) (h : Program.ofTokens limit ts = .ok p) :
    Program.ofTokens limit (ts ++ us) = (Program.ofTokens limit us).map (p ++ ·) := by
  obtain ⟨rest, hrun⟩ := (ofTokens_eq_ok_iff_run limit ts p).1 h
  have hafter := actionsAfter_acc limit p.toArray #[] us
  rw [Array.append_empty] at hafter
  rw [Program.ofTokens, Parser.program, actionsAfter_append limit #[] ts us rest p hrun, hafter, Program.ofTokens,
    Parser.program]
  cases actionsAfter limit #[] us <;> rfl

theorem ofTokens_append_of_error (limit : ℕ) (ts us : List Token) (e : ParseError)
    (h : Program.ofTokens limit ts = .error e) (hspan : e.span ≠ none) : Program.ofTokens limit (ts ++ us) = .error e := by
  obtain ⟨rest, hrun⟩ := (ofTokens_eq_error_iff limit ts e).1 h
  rcases actionsAfter_fails limit #[] ts rest e hrun with ⟨hs, -⟩ | ⟨pre, t, post, rfl, hr, -⟩
  · exact absurd hs.span hspan
  · rw [List.append_assoc, List.cons_append]
    exact (ofTokens_eq_error_iff limit _ e).2 ⟨_, hr.run (post ++ us)⟩

/-! ## Texts -/

/-- **Appending source text.** Two texts with a line feed between them, as far as the offsets fit:
- if both are programs, they make the program of the actions of both, and its code is that of the first, then that of
  the second;
- if only the first is a program, the answer is the error of the second, further on by the bytes and lines before it;
- if the first fails at a token, it fails so whatever the second is. -/
theorem ofText_append (s t : String) (h : (s ++ "\n" ++ t).utf8ByteSize ≤ ByteOffset.last) :
    (∀ p, Program.ofText s .file = .ok p →
      (∀ q, Program.ofText t .file = .ok q →
        Program.ofText (s ++ "\n" ++ t) .file = .ok (p ++ q) ∧
          Program.codeText (p ++ q) = p.codeText ++ q.codeText) ∧
      ∀ e, Program.ofText t .file = .error e →
        ∃ e', Program.ofText (s ++ "\n" ++ t) .file = .error e' ∧
          e.Alike (Span.Further (s.utf8ByteSize + 1) (1 + (encode s.toList).count 10)) e') ∧
    ∀ e, Program.ofText s .file = .error e → e.span ≠ none → Program.ofText (s ++ "\n" ++ t) .file = .error e := by
  obtain ⟨us, htokens, halike⟩ := tokenize_append_line s t h
  have hbehind := ofTokens_alike _ defaultNesting _ _ halike
  refine ⟨fun p hp => ?_, fun e he hspan => ?_⟩
  · have happend : Program.ofText (s ++ "\n" ++ t) .file = (Program.ofTokens defaultNesting us).map (p ++ ·) := by
      rw [Program.ofText, htokens]
      exact ofTokens_append defaultNesting _ us p hp
    refine ⟨fun q hq => ⟨?_, p.codeText_append q⟩, fun e he => ?_⟩
    · obtain ⟨q', hq', hus⟩ | ⟨e, e', he, -, -⟩ := hbehind
      · obtain rfl := Except.ok.inj (hq.symm.trans hq')
        rw [happend, hus]
        rfl
      · cases hq.symm.trans he
    · obtain ⟨q, hq, -⟩ | ⟨e₁, e', he', hus, hlike⟩ := hbehind
      · cases he.symm.trans hq
      · obtain rfl := Except.error.inj (he.symm.trans he')
        refine ⟨e', ?_, hlike⟩
        rw [happend, hus]
        rfl
  · rw [Program.ofText, htokens]
    exact ofTokens_append_of_error defaultNesting _ us e he hspan

/-- behind a wide name and its value, on a line with a carriage return, a program and a text with an error; and the same
error before a text that ends too early -/
theorem ofText_append_wide :
    ("= xé 1\r" ++ "\n" ++ "@ xé").utf8ByteSize ≤ ByteOffset.last ∧
    ("= xé 1\r" ++ "\n" ++ "\n )").utf8ByteSize ≤ ByteOffset.last ∧
    ("\n )" ++ "\n" ++ "@").utf8ByteSize ≤ ByteOffset.last ∧
    Program.ofText "= xé 1\r\n@ xé" .file = .ok [.assign "xé" (.const 1), .print (.var "xé")] ∧
    (∃ e, Program.ofText "= xé 1\r\n\n )" .file = .error e ∧
      (ParseError.illegalAction ⟨")", .between 2 (.ofNat 2) (.ofNat 3)⟩).Alike (Span.Further 9 1) e) ∧
    Program.ofText "\n )\n@" .file = .error (.illegalAction ⟨")", .between 2 (.ofNat 2) (.ofNat 3)⟩) := by
  have hsize : ("= xé 1\r" ++ "\n" ++ "@ xé").utf8ByteSize ≤ ByteOffset.last := by decide
  have hsize₁ : ("= xé 1\r" ++ "\n" ++ "\n )").utf8ByteSize ≤ ByteOffset.last := by decide
  have hsize₂ : ("\n )" ++ "\n" ++ "@").utf8ByteSize ≤ ByteOffset.last := by decide
  have hfront : Program.ofText "= xé 1\r" .file = .ok [.assign "xé" (.const 1)] := by decide +kernel
  have hback : Program.ofText "@ xé" .file = .ok [.print (.var "xé")] := by decide +kernel
  have herror : Program.ofText "\n )" .file =
      .error (.illegalAction ⟨")", .between 2 (.ofNat 2) (.ofNat 3)⟩) := by decide +kernel
  obtain ⟨happend, -⟩ := (ofText_append _ _ hsize).1 _ hfront
  obtain ⟨-, hbehind⟩ := (ofText_append _ _ hsize₁).1 _ hfront
  exact ⟨hsize, hsize₁, hsize₂, (happend _ hback).1, hbehind _ herror, (ofText_append _ _ hsize₂).2 _ herror (by decide)⟩

end PolishCalc

/-
Interactive input means the text before its first terminator line.

Lexer and assembler look for the terminator line in different ways: the lexer at each start of a line, the assembler
among the lines, without their returns. Both stop at the same line.

- `tokenize_interactive`: the tokens are those of the text before the terminator line, read as a file;
- `assemble_interactive`: so are the instructions and the errors of the assembler;
- `interactive_eq_file`: both, and what is parsed.
-/
import Mathlib.Tactic
import PolishCalc.Compilation
import PolishCalc.Proofs.Code.Grammar
import PolishCalc.Proofs.Token.Layout

namespace PolishCalc

open Text

def beforeTerminatorLine (text : String) : String := String.ofList (beforeTerminator text.toList)

theorem size_beforeTerminatorLine (text : String) : (beforeTerminatorLine text).utf8ByteSize ≤ text.utf8ByteSize := by
  obtain ⟨r, hr⟩ := exists_beforeTerminator_append text.toList
  have hlen := congrArg (fun l => (encode l).length) hr
  simp only [encode_append, List.length_append] at hlen
  rw [← length_encode, ← length_encode, beforeTerminatorLine, String.toList_ofList]
  omega

theorem tokenize_interactive (text : String) (h : text.utf8ByteSize ≤ ByteOffset.last) :
    tokenize text .interactive = tokenize (beforeTerminatorLine text) .file := by
  have hi := layout_tokenize text .interactive h
  have hf := layout_tokenize (beforeTerminatorLine text) .file (le_trans (size_beforeTerminatorLine text) h)
  rw [beforeTerminatorLine] at hf ⊢
  rw [String.toList_ofList] at hf
  exact hi.unique _ _ _ _ _ hf

namespace Code

theorem pieces_file (text : String) : pieces text .file = text.toList.splitOn '\n' := by
  rw [pieces, List.takeWhile_eq_self_iff]
  intro l _
  rfl

/-- the pieces that are read of interactive input, as pieces of the text before the terminator line -/
theorem splitOn_beforeTerminatorLine (text : String) :
    (beforeTerminatorLine text).toList.splitOn '\n' = pieces text .interactive ∨
      (beforeTerminatorLine text).toList.splitOn '\n' = pieces text .interactive ++ [[]] := by
  have hpieces : pieces text .interactive = (text.toList.splitOn '\n').takeWhile fun p => !isTerminatorLine p := rfl
  rw [beforeTerminatorLine, String.toList_ofList, beforeTerminator]
  split
  · right
    rw [splitOn_flatMap, hpieces]
    intro p hp
    exact not_mem_of_mem_splitOn '\n' _ p ((List.takeWhile_sublist _).subset hp)
  · next hno =>
    left
    rw [hpieces, eq_comm, List.takeWhile_eq_self_iff]
    simpa using hno

/-- both the code and the error are those of the text before the terminator line -/
theorem assemble_interactive (text : String) :
    assemble text .interactive = assemble (beforeTerminatorLine text) .file := by
  rw [assemble_eq_pieces, assemble_eq_pieces, pieces_file]
  rcases splitOn_beforeTerminatorLine text with h | h
  · rw [h]
  · rw [h, assembleAfter_append_blank]

end Code

/-- **Interactive input means the text before its first terminator line.** Read as a file, that part of the text has the
same tokens with the same places, so the same program or parse error, and the same code or assemble error. -/
theorem interactive_eq_file (text : String) (h : text.utf8ByteSize ≤ ByteOffset.last) :
    tokenize text .interactive = tokenize (beforeTerminatorLine text) .file ∧
    Program.ofText text .interactive = Program.ofText (beforeTerminatorLine text) .file ∧
    Code.assemble text .interactive = Code.assemble (beforeTerminatorLine text) .file := by
  have htokens := tokenize_interactive text h
  refine ⟨htokens, ?_, Code.assemble_interactive text⟩
  rw [Program.ofText, Program.ofText, htokens]

/-- a terminator line with a wide blank in front and a return behind, below a line that only starts like one -/
theorem interactive_eq_file_blanks :
    "@ .\r\n\u2003.\r\n@".utf8ByteSize ≤ ByteOffset.last ∧
    beforeTerminatorLine "@ .\r\n\u2003.\r\n@" = "@ .\r\n" ∧
    tokenize "@ .\r\n\u2003.\r\n@" .interactive = tokenize "@ .\r\n" .file ∧
    Code.assemble "@ .\r\n\u2003.\r\n@" .interactive = .error ⟨.illegalInstruction, 1, "@"⟩ := by
  have hsize : "@ .\r\n\u2003.\r\n@".utf8ByteSize ≤ ByteOffset.last := by decide
  have hpart : beforeTerminatorLine "@ .\r\n\u2003.\r\n@" = "@ .\r\n" := by decide
  obtain ⟨htokens, -, hcode⟩ := interactive_eq_file _ hsize
  rw [hpart] at htokens hcode
  refine ⟨hsize, hpart, htokens, ?_⟩
  rw [hcode]
  decide +kernel

end PolishCalc

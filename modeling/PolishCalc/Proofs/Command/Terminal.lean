/-
What is read of a text that is typed at a terminal.

The terminal gives bytes and is read line by line. If the bytes are a text, every line of them is one, so the reading
never fails: it leaves the lines before the terminator line, each with a line feed behind it.

- `ofBytes_of_text`: the reading of a text;
- `typedLines_render`, `typed_render`: the text of a clean code is read to its end, as it stands.
-/
import Mathlib.Tactic
import PolishCalc.Command.Terminal
import PolishCalc.Proofs.Code.Text
import PolishCalc.Proofs.Text.Bytes

namespace PolishCalc.Command

open Text

/-- the lines of a text before its terminator line -/
def typedLines (source : String) : List (List Char) := (lines source.toList).takeWhile fun l => !isTerminatorLine l

/-- what is read of a text at a terminal -/
def typed (source : String) : String := String.join ((typedLines source).map fun l => String.ofList l ++ "\n")

namespace TerminalRead

theorem lineText?_encode (l : List Char) : lineText? (encode l) = some (String.ofList l) := fromUTF8?_encode l

theorem linesAfter_encode (text : String) (prompts : ℕ) (ls : List (List Char)) :
    linesAfter text prompts (ls.map encode) =
      ⟨some (text ++ String.join ((ls.takeWhile fun l => !isTerminatorLine l).map fun l => String.ofList l ++ "\n")),
        prompts + (ls.takeWhile fun l => !isTerminatorLine l).length⟩ := by
  induction ls generalizing text prompts with
  | nil => simp [linesAfter]
  | cons l ls ih =>
    simp only [List.map_cons, linesAfter, lineText?_encode, String.toList_ofList]
    cases hl : isTerminatorLine l with
    | true => simp [hl]
    | false =>
      rw [ih]
      simp [hl, String.join_cons, String.append_assoc]
      omega

/-- a text that is typed is read up to its terminator line, with a prompt before each line that is asked for -/
theorem ofBytes_of_text (bytes : List UInt8) (source : String)
    (h : String.fromUTF8? ⟨bytes.toArray⟩ = some source) :
    ofBytes bytes = ⟨some (typed source), 1 + (typedLines source).length⟩ := by
  rw [encode_of_fromUTF8? bytes source h, ofBytes, linesWith_encode, linesAfter_encode]
  simp [typed, typedLines]

end TerminalRead

/-- no line of the text of a clean code ends its reading -/
theorem typedLines_render (c : Code) (h : ∀ i ∈ c, i.IsClean) :
    typedLines c.render = c.map fun i => i.display.toList := by
  rw [typedLines, c.lines_render h, List.takeWhile_eq_self_iff]
  intro l hl
  obtain ⟨i, -, rfl⟩ := List.mem_map.1 hl
  simpa [InputMode.endsAt] using i.endsAt_display .interactive

/-- the text of a clean code is read as it stands -/
theorem typed_render (c : Code) (h : ∀ i ∈ c, i.IsClean) : typed c.render = c.render := by
  rw [typed, typedLines_render c h, List.map_map, Code.render]
  simp [Function.comp_def]

end PolishCalc.Command

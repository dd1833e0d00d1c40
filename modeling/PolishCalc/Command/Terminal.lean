/-
Reading a text typed at a prompt.

The bytes are taken line by line, and the prompt is shown before each line that is asked for. The terminator line ends
the reading: it is not part of the text, and what follows it is never looked at. A line that is not text ends the
reading with an error.
-/
import PolishCalc.Text

namespace PolishCalc.Command

/-- what was read, nothing if a line was not text, and how often the prompt was shown -/
structure TerminalRead where
  text : Option String
  prompts : Nat
deriving DecidableEq, Repr

namespace TerminalRead

def lineText? (line : List UInt8) : Option String := String.fromUTF8? ⟨line.toArray⟩

/-- reads lines until one ends the reading; `text` has been read before, and the prompt shown `prompts` times -/
def linesAfter (text : String) (prompts : Nat) : List (List UInt8) → TerminalRead
  | [] => ⟨some text, prompts⟩
  | line :: rest =>
    match lineText? line with
    | none => ⟨none, prompts⟩
    | some s =>
      if isTerminatorLine s.toList then ⟨some text, prompts⟩ else linesAfter (text ++ s ++ "\n") (prompts + 1) rest

/-- reads the bytes of a terminal: a line ends with a line feed, or a carriage return and a line feed -/
def ofBytes (bytes : List UInt8) : TerminalRead := linesAfter "" 1 (Text.linesWith 10 13 bytes)

/-- whether nothing is read after this line -/
def isLast (line : List UInt8) : Bool :=
  match lineText? line with
  | none => true
  | some s => isTerminatorLine s.toList

end TerminalRead

end PolishCalc.Command

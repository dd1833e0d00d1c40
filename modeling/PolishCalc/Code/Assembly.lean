/-
From instruction text to code.

Each line holds at most one instruction, in words: a mnemonic and its operand, if it has one. Blank lines count for the
numbering only. The first line that is not well formed decides the error, and within a line the first fault from the
left: the mnemonic, then a missing or malformed operand, then a word too many.
-/
import PolishCalc.Code.Basic
import PolishCalc.Text
import PolishCalc.Token.Basic

namespace PolishCalc

inductive AssembleError.Kind where
  /-- no instruction has this mnemonic -/
  | illegalInstruction
  /-- the operand is malformed or one too many -/
  | illegalOperand
  /-- the operand is missing -/
  | prematureEnd
deriving DecidableEq, Repr

/-- an assemble error: its kind, the line, counted from 1, and the offending word -/
structure AssembleError where
  kind : AssembleError.Kind
  line : Nat
  found : String
deriving DecidableEq, Repr

def AssembleError.Kind.text : AssembleError.Kind → String
  | illegalInstruction => "illegal instruction"
  | illegalOperand => "illegal operand"
  | prematureEnd => "premature end of instruction"

def AssembleError.message (e : AssembleError) : String :=
  e.kind.text ++ ": `" ++ e.found ++ "` (line " ++ e.line.repr ++ ")"

namespace Instruction

/-- the operand of `mnemonic` read by `read?`, and the words after it -/
def readOperand {α : Type} (read? : String → Option α) (line : Nat) (mnemonic : String) :
    List String → Except AssembleError (α × List String)
  | [] => .error ⟨.prematureEnd, line, mnemonic⟩
  | w :: rest =>
    match read? w with
    | some a => .ok (a, rest)
    | none => .error ⟨.illegalOperand, line, w⟩

/-- a word that names a variable -/
def name? (w : String) : Option String := if Lexeme.isIdentifier w then some w else none

/-- the instruction that `mnemonic` starts, and the words after it -/
def readWords (line : Nat) (mnemonic : String) (rest : List String) :
    Except AssembleError (Instruction × List String) :=
  if mnemonic = "PUSH" then return (← readOperand Lexeme.literal? line mnemonic rest).map push id
  else if mnemonic = "LOAD" then return (← readOperand name? line mnemonic rest).map load id
  else if mnemonic = "STORE" then return (← readOperand name? line mnemonic rest).map store id
  else
    match operandFree? mnemonic with
    | some i => .ok (i, rest)
    | none => .error ⟨.illegalInstruction, line, mnemonic⟩

/-- the instruction on a line, nothing for a blank line -/
def ofWords (line : Nat) : List String → Except AssembleError (Option Instruction)
  | [] => .ok none
  | mnemonic :: rest => do
    match ← readWords line mnemonic rest with
    | (i, []) => return some i
    | (_, extra :: _) => throw ⟨.illegalOperand, line, extra⟩

def ofLine (text : List Char) (line : Nat) : Except AssembleError (Option Instruction) :=
  ofWords line ((Text.words text).map String.ofList)

end Instruction

namespace Code

/-- the lines of a text with their numbers, up to the line that ends the input -/
def sourceLines (text : String) (mode : InputMode) : List (List Char × Nat) :=
  ((Text.lines text.toList).takeWhile fun l => !mode.endsAt l).zipIdx 1

/-- the code on numbered lines, behind the instructions in `acc` -/
def assembleAfter (acc : Array Instruction) : List (List Char × Nat) → Except AssembleError Code
  | [] => .ok acc.toList
  | (text, line) :: rest =>
    match Instruction.ofLine text line with
    | .ok none => assembleAfter acc rest
    | .ok (some i) => assembleAfter (acc.push i) rest
    | .error e => .error e

/-- the code that a text spells -/
def assemble (text : String) (mode : InputMode) : Except AssembleError Code :=
  assembleAfter #[] (sourceLines text mode)

end Code

end PolishCalc

/-
Instructions of the stack machine, and their text form.

The text of an instruction is its mnemonic and, for the three that have one, its operand; `render` writes one
instruction on a line.

- `operandFree?_mnemonic`: an instruction without an operand is found under its mnemonic.
-/
import PolishCalc.Operator

namespace PolishCalc

inductive Instruction where
  /-- pushes a value -/
  | push (v : Int32)
  /-- pops the operand and pushes the result -/
  | unary (op : UnaryOp)
  /-- pops the right operand, then the left one, and pushes the result -/
  | binary (op : BinaryOp)
  /-- pops a value and prints it -/
  | print
  /-- pushes the value of a variable -/
  | load (name : String)
  /-- pops a value and sets a variable to it -/
  | store (name : String)
deriving DecidableEq, Repr

/-- instructions in the order in which they are executed -/
abbrev Code := List Instruction

def UnaryOp.mnemonic : UnaryOp → String
  | negate => "NEG"
  | sqrt => "SQRT"

def BinaryOp.mnemonic : BinaryOp → String
  | add => "ADD"
  | sub => "SUB"
  | mul => "MUL"
  | div => "DIV"
  | mod => "MOD"

namespace Instruction

/-- the word that an instruction's line starts with -/
def mnemonic : Instruction → String
  | push _ => "PUSH"
  | unary op => op.mnemonic
  | binary op => op.mnemonic
  | print => "PRINT"
  | load _ => "LOAD"
  | store _ => "STORE"

def operandFree : List Instruction :=
  BinaryOp.all.map binary ++ UnaryOp.all.map unary ++ [print]

/-- the instruction without operand whose mnemonic is `s` -/
def operandFree? (s : String) : Option Instruction := operandFree.find? fun i => i.mnemonic == s

def mnemonics : List String := ["PUSH"] ++ operandFree.map mnemonic ++ ["LOAD", "STORE"]

theorem operandFree?_mnemonic (i : Instruction) (h : i ∈ operandFree) : operandFree? i.mnemonic = some i := by
  have all : ∀ i ∈ operandFree, operandFree? i.mnemonic = some i := by decide
  exact all i h

def display : Instruction → String
  | push v => "PUSH " ++ Decimal.ofInt32 v
  | load name => "LOAD " ++ name
  | store name => "STORE " ++ name
  | i => i.mnemonic

end Instruction

/-- the text of a code, one line for each instruction -/
def Code.render (c : Code) : String := String.join (c.map fun i => i.display ++ "\n")

end PolishCalc

/-
From a program to its code, and from text to result on either path.

Operands come before their operator, left before right, so that the machine finds the right operand on top of the stack
and the left one below it. The code of an expression leaves its value on the stack, and the action takes it from there.

A program text can be run on its tree (`Program.ofText`, then `Program.run`) or compiled: its code is written out as
text, assembled again and executed by the machine. Each phase stops at its first error, and `Error` says which phase.

- `code_append`: the code of two programs in a row is the code of the first, then the code of the second.
-/
import PolishCalc.Code.Assembly
import PolishCalc.Machine.Basic
import PolishCalc.Program.Evaluation
import PolishCalc.Program.Parser

namespace PolishCalc

/-! ## The code of a program -/

/-- instructions that push the value of the expression -/
def Expr.code : Expr → Code
  | const v => [.push v]
  | var name => [.load name]
  | unary op e => e.code ++ [.unary op]
  | binary op l r => l.code ++ (r.code ++ [.binary op])

def Action.code : Action → Code
  | assign name e => e.code ++ [.store name]
  | print e => e.code ++ [.print]

def Program.code (p : Program) : Code := p.flatMap Action.code

def Program.codeText (p : Program) : String := Code.render p.code

theorem Program.code_append (p q : Program) : Program.code (p ++ q) = p.code ++ q.code :=
  List.flatMap_append

/-! ## From text to result -/

inductive Error where
  | parse (e : ParseError)
  | assemble (e : AssembleError)
  | runtime (e : RuntimeError)
deriving DecidableEq, Repr

def Error.message : Error → String
  | parse e => e.message
  | assemble e => e.message
  | runtime e => e.message

/-- assembles instruction text and runs it on a fresh machine -/
def assembleAndRun (text : String) (mode : InputMode) : Except Error Execution :=
  match Code.assemble text mode with
  | .error e => .error (.assemble e)
  | .ok code => code.run.mapError .runtime

/-- compiles program text to instruction text, which is assembled and run -/
def compileAndRun (text : String) (mode : InputMode) : Except Error Execution :=
  match Program.ofText text mode with
  | .error e => .error (.parse e)
  | .ok p => assembleAndRun p.codeText .file

end PolishCalc

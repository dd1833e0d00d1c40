/-
Running a program on its tree.

An expression is evaluated against the variables, left operand first. An action works on an execution and either
completes or fails before it has changed anything. A program stops at its first failing action and leaves the execution
as the actions before it made it.
-/
import PolishCalc.Execution
import PolishCalc.Program.Basic

namespace PolishCalc

def Expr.eval (symbols : SymbolTable) : Expr → Except RuntimeError Int32
  | const v => .ok v
  | var name => symbols.get name
  | unary op e => do op.apply (← e.eval symbols)
  | binary op l r => do
    let a ← l.eval symbols
    let b ← r.eval symbols
    op.apply a b

/-- a computation on an execution; when it fails, the execution is left as it was at that moment -/
abbrev Exec (α : Type) := EStateM RuntimeError Execution α

def Action.exec (a : Action) : Exec Unit := fun s =>
  match a.expr.eval s.symbols with
  | .error e => .error e s
  | .ok v =>
    match a with
    | assign name _ => .ok () (s.assign name v)
    | print _ => .ok () (s.print v)

def Program.exec : Program → Exec Unit
  | [], s => .ok () s
  | a :: p, s =>
    match a.exec s with
    | .ok _ s => Program.exec p s
    | .error e s => .error e s

/-- what the program prints and sets when it is run from the start -/
def Program.run (p : Program) : Except RuntimeError Execution :=
  match p.exec .empty with
  | .ok _ s => .ok s
  | .error e _ => .error e

end PolishCalc

/-
Programs as trees, and their display for people.

An expression is a tree of operators over constants and variables; an action assigns or prints the value of one
expression; a program is a list of actions. `display` writes the operator between its operands and puts every binary
operation in parentheses, so that no precedence is needed.
-/
import PolishCalc.Operator

namespace PolishCalc

inductive Expr where
  | const (v : Int32)
  | var (name : String)
  | unary (op : UnaryOp) (e : Expr)
  | binary (op : BinaryOp) (l r : Expr)
deriving DecidableEq, Repr

inductive Action where
  | assign (name : String) (e : Expr)
  | print (e : Expr)
deriving DecidableEq, Repr

/-- actions in the order in which they are carried out -/
abbrev Program := List Action

/-- the expression, operators between their operands -/
def Expr.display : Expr → String
  | const v => Decimal.ofInt32 v
  | var name => name
  | unary op e => op.symbol ++ e.display
  | binary op l r => "( " ++ l.display ++ " " ++ op.symbol ++ " " ++ r.display ++ " )"

def Action.expr : Action → Expr
  | assign _ e => e
  | print e => e

def Action.display : Action → String
  | assign name e => name ++ " = " ++ e.display
  | print e => "Print " ++ e.display

/-- one line for each action -/
def Program.display (p : Program) : String := String.join (p.map fun a => a.display ++ "\n")

end PolishCalc

/-
Why a running program stops before its end. Tree evaluation and machine execution share these errors; only the machine
has a stack to exhaust.
-/
import PolishCalc.Decimal

namespace PolishCalc

inductive RuntimeError where
  /-- division or remainder by zero -/
  | divideByZero
  /-- square root of the negative value `operand` -/
  | negativeSquareRoot (operand : Int32)
  /-- a variable is read that has no value yet -/
  | uninitialized (name : String)
  /-- an operand is taken from an empty stack -/
  | stackUnderflow
  /-- an operand is put on a stack that holds `limit` values already -/
  | stackOverflow (limit : Nat)
deriving DecidableEq, Repr

namespace RuntimeError

/-- the class of the error, in words -/
def kindText : RuntimeError → String
  | divideByZero => "divide by zero"
  | negativeSquareRoot _ => "negative square root"
  | uninitialized name => "uninitialized variable: " ++ name
  | stackUnderflow => "stack underflow"
  | stackOverflow _ => "stack overflow"

/-- the error as it is reported -/
def message : RuntimeError → String
  | divideByZero => "divide by zero"
  | negativeSquareRoot operand => "square root of negative value " ++ Decimal.ofInt32 operand
  | uninitialized name => name ++ ": uninitialized variable"
  | stackUnderflow => "stack underflow"
  | stackOverflow limit => "stack overflow (limit " ++ limit.repr ++ ")"

end RuntimeError

end PolishCalc

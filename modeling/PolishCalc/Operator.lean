/-
The operators of the language: their symbols, and what they compute on 32-bit values.

Sums, differences, products and negation wrap around. Quotients are truncated toward zero and a remainder has the sign
of the dividend. The square root is rounded down. Division and remainder fail exactly on a zero divisor, the square
root exactly on a negative operand.

- `ofSymbol?_symbol`: each operator is found under its own symbol, for both kinds of operator;
- `apply_eq_error_iff`: when an operator fails, and why, for both kinds of operator.
-/
import PolishCalc.RuntimeError

namespace PolishCalc

/-- operators with one operand: arithmetic negation and integer square root -/
inductive UnaryOp where
  | negate
  | sqrt
deriving DecidableEq, Repr

inductive BinaryOp where
  | add
  | sub
  | mul
  | div
  | mod
deriving DecidableEq, Repr

namespace UnaryOp

def all : List UnaryOp := [negate, sqrt]

def symbol : UnaryOp → String
  | negate => "!"
  | sqrt => "$"

def ofSymbol? (s : String) : Option UnaryOp := all.find? fun op => op.symbol == s

theorem ofSymbol?_symbol (op : UnaryOp) : ofSymbol? op.symbol = some op := by cases op <;> decide

end UnaryOp

namespace BinaryOp

def all : List BinaryOp := [add, sub, mul, div, mod]

def symbol : BinaryOp → String
  | add => "+"
  | sub => "-"
  | mul => "*"
  | div => "/"
  | mod => "%"

def ofSymbol? (s : String) : Option BinaryOp := all.find? fun op => op.symbol == s

theorem ofSymbol?_symbol (op : BinaryOp) : ofSymbol? op.symbol = some op := by cases op <;> decide

end BinaryOp

/-! ## Arithmetic -/

def UnaryOp.apply : UnaryOp → Int32 → Except RuntimeError Int32
  | .negate, a => .ok (-a)
  | .sqrt, a => if a < 0 then .error (.negativeSquareRoot a) else .ok (Int32.ofNat (Nat.sqrt a.toInt.toNat))

def BinaryOp.apply : BinaryOp → Int32 → Int32 → Except RuntimeError Int32
  | .add, a, b => .ok (a + b)
  | .sub, a, b => .ok (a - b)
  | .mul, a, b => .ok (a * b)
  | .div, a, b => if b = 0 then .error .divideByZero else .ok (a / b)
  | .mod, a, b => if b = 0 then .error .divideByZero else .ok (a % b)

theorem UnaryOp.apply_eq_error_iff (op : UnaryOp) (a : Int32) (e : RuntimeError) :
    op.apply a = .error e ↔ op = .sqrt ∧ a < 0 ∧ e = .negativeSquareRoot a := by
  cases op with
  | negate => simp [apply]
  | sqrt =>
    by_cases ha : a < 0
    · simp [apply, ha, eq_comm]
    · simp [apply, ha]

theorem BinaryOp.apply_eq_error_iff (op : BinaryOp) (a b : Int32) (e : RuntimeError) :
    op.apply a b = .error e ↔ (op = .div ∨ op = .mod) ∧ b = 0 ∧ e = .divideByZero := by
  by_cases hb : b = 0
  · cases op <;> simp [apply, hb, eq_comm]
  · cases op <;> simp [apply, hb]

end PolishCalc

/-
The operand stack: a last-in first-out store with a limit on its depth.

A failed push or pop leaves the stack as it was.
- `push_eq`: a push succeeds exactly below the limit, and then puts the value on top;
- `pop_push`: what was pushed is what is popped, and the stack below is as it was;
- `pop_empty`: a pop fails on the empty stack.
-/
import PolishCalc.RuntimeError

namespace PolishCalc

/-- values, the bottom first, and the depth that must not be exceeded -/
structure OperandStack where
  values : Array Int32
  limit : Nat
deriving DecidableEq, Repr

namespace OperandStack

def defaultLimit : Nat := 65536

def empty (limit : Nat) : OperandStack := ⟨#[], limit⟩

def depth (s : OperandStack) : Nat := s.values.size

def isEmpty (s : OperandStack) : Bool := s.values.isEmpty

/-- puts a value on top unless the stack is as deep as it may be -/
def push (v : Int32) : EStateM RuntimeError OperandStack Unit := fun s =>
  if s.depth < s.limit then .ok () { s with values := s.values.push v } else .error (.stackOverflow s.limit) s

def pop : EStateM RuntimeError OperandStack Int32 := fun s =>
  match s.values.back? with
  | some v => .ok v { s with values := s.values.pop }
  | none => .error .stackUnderflow s

def top (s : OperandStack) : Except RuntimeError Int32 :=
  match s.values.back? with
  | some v => .ok v
  | none => .error .stackUnderflow

theorem push_eq (v : Int32) (vs : Array Int32) (limit : Nat) :
    push v ⟨vs, limit⟩ =
      if vs.size < limit then .ok () ⟨vs.push v, limit⟩ else .error (.stackOverflow limit) ⟨vs, limit⟩ := rfl

theorem pop_push (v : Int32) (vs : Array Int32) (limit : Nat) : pop ⟨vs.push v, limit⟩ = .ok v ⟨vs, limit⟩ := by
  simp [pop]

theorem pop_empty (limit : Nat) : pop ⟨#[], limit⟩ = .error .stackUnderflow ⟨#[], limit⟩ := rfl

end OperandStack

end PolishCalc

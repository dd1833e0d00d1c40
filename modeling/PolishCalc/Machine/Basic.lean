/-
The stack machine.

The code is straight-line: each step executes the instruction at `pc` and moves on, whether the instruction succeeds or
fails. A failed instruction leaves popped what it has popped; the machine can be used on after it.

- `step_ok_true`: a step that executes an instruction moves `pc` on by one, inside the code, which it does not change.
  Hence `run` ends.
-/
import PolishCalc.Code.Basic
import PolishCalc.Execution
import PolishCalc.Machine.Stack

namespace PolishCalc

/-- what an instruction works on: the operands, and what can be observed of the run -/
structure Workspace where
  stack : OperandStack
  execution : Execution
deriving DecidableEq

/-- a computation on a workspace; when it fails, the workspace is left as it was at that moment -/
abbrev Work (α : Type) := EStateM RuntimeError Workspace α

namespace Workspace

/-- works on the operands only -/
def onStack {α : Type} (f : EStateM RuntimeError OperandStack α) : Work α
  | ⟨stack, execution⟩ =>
    match f stack with
    | .ok a stack => .ok a ⟨stack, execution⟩
    | .error e stack => .error e ⟨stack, execution⟩

def push (v : Int32) : Work Unit := onStack (OperandStack.push v)

def pop : Work Int32 := onStack OperandStack.pop

def get (name : String) : Work Int32 := fun w =>
  match w.execution.symbols.get name with
  | .ok v => .ok v w
  | .error e => .error e w

/-- changes what can be observed -/
def observe (f : Execution → Execution) : Work Unit
  | ⟨stack, execution⟩ => .ok () ⟨stack, f execution⟩

/-- the outcome of an operator -/
def result (r : Except RuntimeError Int32) : Work Int32 := fun w =>
  match r with
  | .ok v => .ok v w
  | .error e => .error e w

end Workspace

open Workspace in
def Instruction.exec : Instruction → Work Unit
  | push v => Workspace.push v
  | unary op => do
    let a ← pop
    Workspace.push (← result (op.apply a))
  | binary op => do
    let b ← pop
    let a ← pop
    Workspace.push (← result (op.apply a b))
  | print => do
    let v ← pop
    observe (·.print v)
  | load name => do Workspace.push (← get name)
  | store name => do
    let v ← pop
    observe (·.assign name v)

/-- a machine: its code, the index of the next instruction, and its workspace -/
structure Machine where
  code : Array Instruction
  pc : Nat
  work : Workspace
deriving DecidableEq

namespace Machine

/-- a machine before the first instruction of a code -/
def load (code : Code) (limit : Nat) : Machine := ⟨code.toArray, 0, ⟨.empty limit, .empty⟩⟩

def isHalted (m : Machine) : Bool := m.code.size ≤ m.pc

/-- executes the next instruction; false when there is none -/
def step : EStateM RuntimeError Machine Bool
  | ⟨code, pc, work⟩ =>
    match code[pc]? with
    | none => .ok false ⟨code, pc, work⟩
    | some i =>
      match i.exec work with
      | .ok _ work => .ok true ⟨code, pc + 1, work⟩
      | .error e work => .error e ⟨code, pc + 1, work⟩

theorem step_ok_true (m m' : Machine) (h : step m = .ok true m') :
    m.pc < m.code.size ∧ m'.code = m.code ∧ m'.pc = m.pc + 1 := by
  obtain ⟨code, pc, work⟩ := m
  simp only [step] at h
  split at h
  · cases h
  · next i hi =>
    obtain ⟨hlt, -⟩ := Array.getElem?_eq_some_iff.1 hi
    split at h <;> cases h
    exact ⟨hlt, rfl, rfl⟩

/-- executes instructions until there is none left or one fails -/
def run : EStateM RuntimeError Machine Unit := fun m =>
  match _h : step m with
  | .ok true m' => run m'
  | .ok false m' => .ok () m'
  | .error e m' => .error e m'
termination_by m => m.code.size - m.pc
decreasing_by
  have := step_ok_true _ _ _h
  obtain ⟨h1, h2, h3⟩ := this
  rw [h2, h3]
  omega

end Machine

/-- what a code prints and sets when it runs on a fresh machine -/
def Code.run (c : Code) : Except RuntimeError Execution :=
  match Machine.run (Machine.load c OperandStack.defaultLimit) with
  | .ok _ m => .ok m.work.execution
  | .error e _ => .error e

end PolishCalc

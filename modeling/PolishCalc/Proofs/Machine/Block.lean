/-
Blocks of instructions, and whole runs of the machine as blocks.

The code has no jumps, so a run from `pc` on executes the rest of the code in order. `Code.exec` executes a block of
instructions on a workspace without a program counter; blocks compose (`exec_append`), which the program counter would
only be in the way of.

- `exec_push`, `exec_load`, `exec_unary`, `exec_binary`, `exec_print`, `exec_store`: one instruction on a stack that
  holds its operands;
- `run_at`, `run_at_end`: a run by its next instruction;
- `run_of_exec_ok`, `run_of_exec_error`: the machine runs the block that is left of its code.
-/
import Mathlib.Tactic
import PolishCalc.Control
import PolishCalc.Machine.Basic

namespace PolishCalc

/-- executes the instructions of a block in order, up to the first that fails -/
def Code.exec : Code → Work Unit
  | [] => pure ()
  | i :: c => do
    i.exec
    Code.exec c

theorem Code.exec_append (c d : Code) : Code.exec (c ++ d) = Code.exec c >>= fun _ => Code.exec d := by
  induction c with
  | nil => exact (pure_bind _ _).symm
  | cons i c ih => rw [List.cons_append, Code.exec, Code.exec, ih, bind_assoc]

theorem Code.exec_append_of_ok (c d : Code) (w w' : Workspace) (h : Code.exec c w = .ok () w') :
    Code.exec (c ++ d) w = Code.exec d w' := by
  rw [exec_append]
  exact bind_of_ok _ _ _ _ _ h

theorem Code.exec_append_of_error (c d : Code) (w w' : Workspace) (e : RuntimeError)
    (h : Code.exec c w = .error e w') : Code.exec (c ++ d) w = .error e w' := by
  rw [exec_append]
  exact bind_of_error _ _ _ _ _ h

theorem Code.exec_singleton (i : Instruction) : Code.exec [i] = i.exec := bind_pure _

/-! ## One instruction -/

namespace Instruction

theorem exec_push (v : Int32) (vs : Array Int32) (limit : ℕ) (x : Execution) :
    (push v).exec ⟨⟨vs, limit⟩, x⟩ =
      if vs.size < limit then .ok () ⟨⟨vs.push v, limit⟩, x⟩ else .error (.stackOverflow limit) ⟨⟨vs, limit⟩, x⟩ := by
  by_cases h : vs.size < limit <;> simp only [exec, Workspace.push, Workspace.onStack, OperandStack.push_eq, h, if_true,
    if_false]

theorem pop_top (v : Int32) (vs : Array Int32) (limit : ℕ) (x : Execution) :
    Workspace.pop ⟨⟨vs.push v, limit⟩, x⟩ = .ok v ⟨⟨vs, limit⟩, x⟩ := by
  simp only [Workspace.pop, Workspace.onStack, OperandStack.pop_push]

theorem exec_load (name : String) (vs : Array Int32) (limit : ℕ) (x : Execution) :
    (load name).exec ⟨⟨vs, limit⟩, x⟩ =
      match x.symbols.get name with
      | .ok v => (push v).exec ⟨⟨vs, limit⟩, x⟩
      | .error e => .error e ⟨⟨vs, limit⟩, x⟩ := by
  simp only [exec]
  cases h : x.symbols.get name with
  | ok v => exact bind_of_ok _ _ _ _ v (by simp only [Workspace.get, h])
  | error e => exact bind_of_error _ _ _ _ e (by simp only [Workspace.get, h])

/-- the outcome of an operator is pushed, unless the operator fails -/
theorem result_push (r : Except RuntimeError Int32) (w : Workspace) :
    (Workspace.result r >>= Workspace.push) w =
      match r with
      | .ok v => (push v).exec w
      | .error e => .error e w := by
  cases r with
  | ok v => rfl
  | error e => rfl

theorem exec_unary (op : UnaryOp) (a : Int32) (vs : Array Int32) (limit : ℕ) (x : Execution) :
    (unary op).exec ⟨⟨vs.push a, limit⟩, x⟩ =
      match op.apply a with
      | .ok v => (push v).exec ⟨⟨vs, limit⟩, x⟩
      | .error e => .error e ⟨⟨vs, limit⟩, x⟩ := by
  rw [exec, bind_of_ok _ _ _ _ _ (pop_top a vs limit x)]
  exact result_push (op.apply a) _

theorem exec_binary (op : BinaryOp) (a b : Int32) (vs : Array Int32) (limit : ℕ) (x : Execution) :
    (binary op).exec ⟨⟨(vs.push a).push b, limit⟩, x⟩ =
      match op.apply a b with
      | .ok v => (push v).exec ⟨⟨vs, limit⟩, x⟩
      | .error e => .error e ⟨⟨vs, limit⟩, x⟩ := by
  rw [exec, bind_of_ok _ _ _ _ _ (pop_top b (vs.push a) limit x), bind_of_ok _ _ _ _ _ (pop_top a vs limit x)]
  exact result_push (op.apply a b) _

theorem exec_print (v : Int32) (vs : Array Int32) (limit : ℕ) (x : Execution) :
    print.exec ⟨⟨vs.push v, limit⟩, x⟩ = .ok () ⟨⟨vs, limit⟩, x.print v⟩ := by
  rw [exec, bind_of_ok _ _ _ _ _ (pop_top v vs limit x)]
  rfl

theorem exec_store (name : String) (v : Int32) (vs : Array Int32) (limit : ℕ) (x : Execution) :
    (store name).exec ⟨⟨vs.push v, limit⟩, x⟩ = .ok () ⟨⟨vs, limit⟩, x.assign name v⟩ := by
  rw [exec, bind_of_ok _ _ _ _ _ (pop_top v vs limit x)]
  rfl

end Instruction

/-! ## Whole runs -/

namespace Machine

theorem run_eq (m : Machine) :
    run m =
      match step m with
      | .ok true m' => run m'
      | .ok false m' => .ok () m'
      | .error e m' => .error e m' := by
  rw [run]
  split
  · next h => rw [h]
  · next h => rw [h]
  · next h => rw [h]

theorem run_at (code : Array Instruction) (pc : ℕ) (w : Workspace) (i : Instruction) (h : code[pc]? = some i) :
    run ⟨code, pc, w⟩ =
      match i.exec w with
      | .ok _ w => run ⟨code, pc + 1, w⟩
      | .error e w => .error e ⟨code, pc + 1, w⟩ := by
  rw [run_eq]
  cases hi : i.exec w with
  | ok u w' => simp only [step, h, hi]
  | error e w' => simp only [step, h, hi]

theorem run_at_end (code : Array Instruction) (pc : ℕ) (w : Workspace) (h : code[pc]? = none) :
    run ⟨code, pc, w⟩ = .ok () ⟨code, pc, w⟩ := by
  rw [run_eq]
  simp only [step, h]

/-- the instruction at the front of what is left of the code -/
theorem next_of_drop (code : Array Instruction) (pc : ℕ) (i : Instruction) (c : Code)
    (h : code.toList.drop pc = i :: c) : code[pc]? = some i ∧ code.toList.drop (pc + 1) = c := by
  constructor
  · rw [← Array.getElem?_toList, ← List.head?_drop, h]
    rfl
  · rw [← List.drop_drop, h]
    rfl

theorem run_of_exec_ok (code : Array Instruction) (pc : ℕ) (c : Code) (w w' : Workspace)
    (hc : code.toList.drop pc = c) (h : c.exec w = .ok () w') :
    run ⟨code, pc, w⟩ = .ok () ⟨code, pc + c.length, w'⟩ := by
  induction c generalizing pc w with
  | nil =>
    cases h
    have hpc : code[pc]? = none := by
      rw [← Array.getElem?_toList, ← List.head?_drop, hc]
      rfl
    exact run_at_end code pc w' hpc
  | cons i c ih =>
    obtain ⟨hpc, hdrop⟩ := next_of_drop code pc i c hc
    obtain ⟨u, mid, hi, hrest⟩ := (bind_eq_ok_iff _ _ _ _ _).1 h
    have hlen : pc + 1 + c.length = pc + (i :: c).length := by rw [List.length_cons]; omega
    calc run ⟨code, pc, w⟩ = run ⟨code, pc + 1, mid⟩ := by rw [run_at code pc w i hpc, hi]
      _ = .ok () ⟨code, pc + 1 + c.length, w'⟩ := ih (pc + 1) mid hdrop hrest
      _ = .ok () ⟨code, pc + (i :: c).length, w'⟩ := by rw [hlen]

theorem run_of_exec_error (code : Array Instruction) (pc : ℕ) (c : Code) (w w' : Workspace) (e : RuntimeError)
    (hc : code.toList.drop pc = c) (h : c.exec w = .error e w') :
    ∃ pc', run ⟨code, pc, w⟩ = .error e ⟨code, pc', w'⟩ := by
  induction c generalizing pc w with
  | nil => cases h
  | cons i c ih =>
    obtain ⟨hpc, hdrop⟩ := next_of_drop code pc i c hc
    rw [run_at code pc w i hpc]
    rcases (bind_eq_error_iff _ _ _ _ _).1 h with hi | ⟨u, mid, hi, hrest⟩
    · rw [hi]
      exact ⟨pc + 1, rfl⟩
    · rw [hi]
      exact ih (pc + 1) mid hdrop hrest

end Machine

end PolishCalc

/-
The code of a program does on the machine what the program does on its tree.

`need` is the depth that the operand stack reaches: a value takes one place, and the right operand of a binary operator
is computed above the left one. The code of an expression runs on a stack that holds values already, so the induction
is over any such stack and any limit that these values respect. Where it ends is one of three outcomes:
- `Expr.Outcome.value`: there is enough room, and the value is on top of the stack;
- `Expr.Outcome.failure`: the expression fails, and the code with it;
- `Expr.Outcome.overflow`: there is not enough room.
In each case the values that were on the stack are still there, and nothing was printed or set. Actions and programs
have outcomes of the same three kinds (`Action.Outcome`, `Program.Outcome`), from an empty stack to an empty stack.

- `Expr.exec_code`, `Action.exec_code`, `Program.exec_code`: the outcomes of their code;
- `run_code_simulates`: what a fresh machine comes to, under any limit.
-/
import Mathlib.Tactic
import PolishCalc.Compilation
import PolishCalc.Proofs.Machine.Block
import PolishCalc.Proofs.Program.Evaluation

namespace PolishCalc

open Instruction

/-! ## Stack depth -/

/-- how deep the code of the expression fills the stack -/
def Expr.need : Expr → ℕ
  | const _ => 1
  | var _ => 1
  | unary _ e => e.need
  | binary _ l r => max l.need (r.need + 1)

def Program.need : Program → ℕ
  | [] => 0
  | a :: p => max a.expr.need (Program.need p)

theorem Expr.need_pos (e : Expr) : 0 < e.need := by
  induction e with
  | const v => exact Nat.one_pos
  | var name => exact Nat.one_pos
  | unary op e ih => exact ih
  | binary op l r ihl _ => exact lt_of_lt_of_le ihl (le_max_left _ _)

/-! ## The code of an expression -/

/-- what the code of the expression comes to on a stack that holds `vs` -/
inductive Expr.Outcome (e : Expr) (vs : Array Int32) (limit : ℕ) (x : Execution)
    (r : EStateM.Result RuntimeError Workspace Unit) : Prop
  | value (v : Int32) (hv : e.eval x.symbols = .ok v) (hroom : vs.size + e.need ≤ limit)
      (hr : r = .ok () ⟨⟨vs.push v, limit⟩, x⟩)
  | failure (err : RuntimeError) (vs' : Array Int32) (he : e.eval x.symbols = .error err)
      (hr : r = .error err ⟨⟨vs ++ vs', limit⟩, x⟩)
  | overflow (vs' : Array Int32) (hroom : limit < vs.size + e.need)
      (hr : r = .error (.stackOverflow limit) ⟨⟨vs ++ vs', limit⟩, x⟩)

theorem Expr.exec_code (e : Expr) (vs : Array Int32) (limit : ℕ) (x : Execution) (h : vs.size ≤ limit) :
    e.Outcome vs limit x (Code.exec e.code ⟨⟨vs, limit⟩, x⟩) := by
  induction e generalizing vs with
  | const v =>
    rw [code, Code.exec_singleton, exec_push]
    split_ifs with hlt
    · exact .value v rfl hlt rfl
    · exact .overflow #[] (by simp only [need]; omega) (by simp)
  | var name =>
    rw [code, Code.exec_singleton, exec_load]
    cases hg : x.symbols.get name with
    | error err => exact .failure err #[] hg (by simp)
    | ok v =>
      simp only [exec_push]
      split_ifs with hlt
      · exact .value v hg hlt rfl
      · exact .overflow #[] (by simp only [need]; omega) (by simp)
  | unary op e ih =>
    rw [code]
    cases ih vs h with
    | failure err vs' he hr =>
      exact .failure err vs' (eval_unary_error _ op e err he) (Code.exec_append_of_error _ _ _ _ _ hr)
    | overflow vs' hroom hr => exact .overflow vs' hroom (Code.exec_append_of_error _ _ _ _ _ hr)
    | value a ha hroom hr =>
      have hlt : vs.size < limit := by have := e.need_pos; omega
      rw [Code.exec_append_of_ok _ _ _ _ hr, Code.exec_singleton, exec_unary]
      have heval := eval_unary _ op e a ha
      cases hop : op.apply a with
      | error err => exact .failure err #[] (heval.trans hop) (by simp)
      | ok v => exact .value v (heval.trans hop) hroom (by simp only [exec_push, if_pos hlt])
  | binary op l r ihl ihr =>
    rw [code]
    cases ihl vs h with
    | failure err vs' he hr =>
      exact .failure err vs' (eval_binary_left _ op l r err he) (Code.exec_append_of_error _ _ _ _ _ hr)
    | overflow vs' hroom hr =>
      exact .overflow vs' (by simp only [need]; omega) (Code.exec_append_of_error _ _ _ _ _ hr)
    | value a ha hla hr =>
      have hlt : vs.size < limit := by have := l.need_pos; omega
      rw [Code.exec_append_of_ok _ _ _ _ hr]
      -- the left value stays on the stack below all that the right operand does
      cases ihr (vs.push a) (by simpa using hlt) with
      | failure err vs' he hr =>
        refine .failure err (#[a] ++ vs') (eval_binary_right _ op l r a err ha he) ?_
        rw [Code.exec_append_of_error _ _ _ _ _ hr, ← Array.append_assoc, Array.append_singleton]
      | overflow vs' hroom hr =>
        refine .overflow (#[a] ++ vs') (by simp only [need, Array.size_push] at hroom ⊢; omega) ?_
        rw [Code.exec_append_of_error _ _ _ _ _ hr, ← Array.append_assoc, Array.append_singleton]
      | value b hb hrb hr =>
        rw [Code.exec_append_of_ok _ _ _ _ hr, Code.exec_singleton, exec_binary]
        have heval := eval_binary _ op l r a b ha hb
        cases hop : op.apply a b with
        | error err => exact .failure err #[] (heval.trans hop) (by simp)
        | ok v =>
          refine .value v (heval.trans hop) ?_ (by simp only [exec_push, if_pos hlt])
          simp only [need, Array.size_push] at hrb ⊢
          omega

/-! ## The code of an action -/

/-- what the code of the action comes to on the empty stack -/
inductive Action.Outcome (a : Action) (limit : ℕ) (x : Execution) (r : EStateM.Result RuntimeError Workspace Unit) :
    Prop
  | done (x' : Execution) (ha : a.exec x = .ok () x') (hr : r = .ok () ⟨⟨#[], limit⟩, x'⟩)
  | failure (err : RuntimeError) (s : OperandStack) (ha : a.exec x = .error err x) (hr : r = .error err ⟨s, x⟩)
  | overflow (s : OperandStack) (hroom : limit < a.expr.need) (hr : r = .error (.stackOverflow limit) ⟨s, x⟩)

/-- the instruction that takes the value of the action's expression from the stack -/
def Action.last : Action → Instruction
  | assign name _ => .store name
  | print _ => .print

theorem Action.code_eq (a : Action) : a.code = a.expr.code ++ [a.last] := by
  cases a with
  | assign name e => rfl
  | print e => rfl

/-- that instruction does what the action does with the value -/
theorem Action.exec_last (a : Action) (x : Execution) (v : Int32) (limit : ℕ) :
    a.last.exec ⟨⟨#[].push v, limit⟩, x⟩ = .ok () ⟨⟨#[], limit⟩, a.effect v x⟩ := by
  cases a with
  | assign name e => exact exec_store name v #[] limit x
  | print e => exact exec_print v #[] limit x

theorem Action.exec_code (a : Action) (limit : ℕ) (x : Execution) :
    a.Outcome limit x (Code.exec a.code ⟨⟨#[], limit⟩, x⟩) := by
  rw [code_eq]
  cases a.expr.exec_code #[] limit x (Nat.zero_le _) with
  | failure err vs' he hr =>
    exact .failure err _ (a.exec_of_error x err he) (Code.exec_append_of_error _ _ _ _ _ hr)
  | overflow vs' hroom hr => exact .overflow _ (by simpa using hroom) (Code.exec_append_of_error _ _ _ _ _ hr)
  | value v hv hroom hr =>
    refine .done _ (a.exec_of_ok x v hv) ?_
    rw [Code.exec_append_of_ok _ _ _ _ hr, Code.exec_singleton]
    exact a.exec_last x v limit

/-! ## The code of a program -/

/-- what the code of the program comes to on the empty stack -/
inductive Program.Outcome (p : Program) (limit : ℕ) (x : Execution) (r : EStateM.Result RuntimeError Workspace Unit) :
    Prop
  | done (x' : Execution) (hp : p.exec x = .ok () x') (hr : r = .ok () ⟨⟨#[], limit⟩, x'⟩)
  | failure (err : RuntimeError) (x' : Execution) (s : OperandStack) (hp : p.exec x = .error err x')
      (hr : r = .error err ⟨s, x'⟩)
  | overflow (q : Program) (x' : Execution) (s : OperandStack) (hq : q <+: p) (hqx : q.exec x = .ok () x')
      (hroom : limit < p.need) (hr : r = .error (.stackOverflow limit) ⟨s, x'⟩)

theorem Program.exec_code (p : Program) (limit : ℕ) (x : Execution) :
    p.Outcome limit x (Code.exec p.code ⟨⟨#[], limit⟩, x⟩) := by
  induction p generalizing x with
  | nil => exact .done x rfl rfl
  | cons a p ih =>
    have hcode : Program.code (a :: p) = a.code ++ Program.code p := List.flatMap_cons
    rw [hcode]
    -- an action leaves the stack as empty as it found it, so the rest starts afresh from what it printed and set
    cases a.exec_code limit x with
    | failure err s ha hr =>
      exact .failure err x s (exec_cons_of_error a p x x err ha) (Code.exec_append_of_error _ _ _ _ _ hr)
    | overflow s hroom hr =>
      exact .overflow [] x s (List.nil_prefix) rfl (lt_max_of_lt_left hroom) (Code.exec_append_of_error _ _ _ _ _ hr)
    | done x' ha hr =>
      rw [Code.exec_append_of_ok _ _ _ _ hr]
      cases ih x' with
      | done x'' hp hr => exact .done x'' ((exec_cons_of_ok a p x x' ha).trans hp) hr
      | failure err x'' s hp hr => exact .failure err x'' s ((exec_cons_of_ok a p x x' ha).trans hp) hr
      | overflow q x'' s hq hqx hroom hr =>
        exact .overflow (a :: q) x'' s (List.cons_prefix_cons.2 ⟨rfl, hq⟩) ((exec_cons_of_ok a q x x' ha).trans hqx)
          (lt_max_of_lt_right hroom) hr

/-! ## Runs of a fresh machine -/

/-- the machine ends as the tree does: with the same error if any, and with the same output and variables -/
inductive SameEnd (r : EStateM.Result RuntimeError Execution Unit) (m : EStateM.Result RuntimeError Machine Unit) : Prop
  | done (x : Execution) (m' : Machine) (hr : r = .ok () x) (hm : m = .ok () m') (hx : m'.work.execution = x)
      (hhalt : m'.isHalted = true) (hempty : m'.work.stack.isEmpty = true)
  | failure (err : RuntimeError) (x : Execution) (m' : Machine) (hr : r = .error err x) (hm : m = .error err m')
      (hx : m'.work.execution = x)

theorem run_load_of_exec_ok (c : Code) (limit : ℕ) (w : Workspace) (h : c.exec ⟨⟨#[], limit⟩, .empty⟩ = .ok () w) :
    Machine.run (Machine.load c limit) = .ok () ⟨c.toArray, c.length, w⟩ := by
  have hrun := Machine.run_of_exec_ok c.toArray 0 c _ w rfl h
  rw [Nat.zero_add] at hrun
  exact hrun

theorem run_load_of_exec_error (c : Code) (limit : ℕ) (w : Workspace) (e : RuntimeError)
    (h : c.exec ⟨⟨#[], limit⟩, .empty⟩ = .error e w) :
    ∃ m, Machine.run (Machine.load c limit) = .error e m ∧ m.work = w := by
  obtain ⟨pc, hrun⟩ := Machine.run_of_exec_error c.toArray 0 c _ w e rfl h
  exact ⟨_, hrun, rfl⟩

/-- what a fresh machine comes to on the code of a program -/
theorem run_code_cases (p : Program) (limit : ℕ) :
    (SameEnd (p.exec .empty) (Machine.run (Machine.load p.code limit)) ∧
        ∀ m, Machine.run (Machine.load p.code limit) ≠ .error .stackUnderflow m) ∨
      limit < p.need ∧ ∃ m q, Machine.run (Machine.load p.code limit) = .error (.stackOverflow limit) m ∧ q <+: p ∧
        Program.exec q .empty = .ok () m.work.execution := by
  cases p.exec_code limit .empty with
  | done x hp hr =>
    have hrun := run_load_of_exec_ok p.code limit _ hr
    refine Or.inl ⟨.done x _ hp hrun rfl ?_ rfl, fun m hm => ?_⟩
    · simp [Machine.isHalted]
    · rw [hrun] at hm
      cases hm
  | failure err x s hp hr =>
    obtain ⟨m, hrun, hm⟩ := run_load_of_exec_error p.code limit _ err hr
    refine Or.inl ⟨.failure err x m hp hrun (by rw [hm]), fun m' hm' => ?_⟩
    rw [hrun] at hm'
    cases hm'
    exact (p.exec_error _ _ _ hp).1 rfl
  | overflow q x s hq hqx hroom hr =>
    obtain ⟨m, hrun, hm⟩ := run_load_of_exec_error p.code limit _ _ hr
    exact Or.inr ⟨hroom, m, q, hrun, hq, by rw [hm]; exact hqx⟩

theorem sameEnd_of_need_le (p : Program) (limit : ℕ) (h : p.need ≤ limit) :
    SameEnd (p.exec .empty) (Machine.run (Machine.load p.code limit)) := by
  rcases run_code_cases p limit with ⟨hsame, -⟩ | ⟨hroom, -⟩
  · exact hsame
  · omega

/-- **Simulation.** A fresh machine whose limit the program stays within ends on the code of the program as the
program ends on its tree, and after a success it is halted with an empty stack. Under any limit the machine either ends
so, or its stack overflows, and then it has printed and set what some first actions of the program print and set. The
stack never underflows. -/
theorem run_code_simulates (p : Program) (limit : ℕ) :
    (p.need ≤ limit → SameEnd (p.exec .empty) (Machine.run (Machine.load p.code limit))) ∧
    (SameEnd (p.exec .empty) (Machine.run (Machine.load p.code limit)) ∨
      ∃ m q, Machine.run (Machine.load p.code limit) = .error (.stackOverflow limit) m ∧ q <+: p ∧
        Program.exec q .empty = .ok () m.work.execution) ∧
    ∀ m, Machine.run (Machine.load p.code limit) ≠ .error .stackUnderflow m := by
  rcases run_code_cases p limit with ⟨hsame, hno⟩ | ⟨hroom, m, q, hrun, hq, hqx⟩
  · exact ⟨fun _ => hsame, Or.inl hsame, hno⟩
  · refine ⟨fun h => absurd h (by omega), Or.inr ⟨m, q, hrun, hq, hqx⟩, fun m' hm' => ?_⟩
    rw [hrun] at hm'
    cases hm'

end PolishCalc

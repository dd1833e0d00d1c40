/-
The code of an expression in any context.

The code of an expression may stand anywhere in a code, and the machine may come to it with values on its stack and with
any variables set. `Machine.AtBlock` says that it is what the machine executes next. What becomes of the steps through
it depends on two things only: the value of the expression, and whether the room above the stack is as large as
`Expr.need`. Neither what stands around the code nor the values below matter, and these values stay where they are.

- `advance_of_exec_ok`, `advance_of_exec_error`: steps through a block, by what the block does on the workspace;
- `exprCode_in_context`: steps through the code of an expression.
-/
import Mathlib.Tactic
import PolishCalc.Proofs.Code.Simulation
import PolishCalc.Proofs.Machine.Depth

namespace PolishCalc

open Instruction

namespace Machine

/-- the block is what the machine executes next, whatever stands before and behind it -/
def AtBlock (m : Machine) (c : Code) : Prop := c <+: m.code.toList.drop m.pc

/-- one of the next `n` steps is the first to fail: with this error, and so that it leaves the machine `m'` -/
def FailsWithin (n : ℕ) (m : Machine) (e : RuntimeError) (m' : Machine) : Prop :=
  ∃ k < n, ∃ mid, advance k m = .ok () mid ∧ mid.pc = m.pc + k ∧ step mid = .error e m'

theorem AtBlock.head (m : Machine) (i : Instruction) (c : Code) (h : m.AtBlock (i :: c)) :
    m.code[m.pc]? = some i := by
  obtain ⟨post, hpost⟩ := h
  exact (next_of_drop m.code m.pc i (c ++ post) hpost.symm).1

theorem AtBlock.tail (m : Machine) (i : Instruction) (c : Code) (w : Workspace) (h : m.AtBlock (i :: c)) :
    AtBlock ⟨m.code, m.pc + 1, w⟩ c := by
  obtain ⟨post, hpost⟩ := h
  exact ⟨post, (next_of_drop m.code m.pc i (c ++ post) hpost.symm).2.symm⟩

/-- the steps through a block that succeeds -/
theorem advance_of_exec_ok (m : Machine) (c : Code) (w : Workspace) (h : m.AtBlock c)
    (hc : c.exec m.work = .ok () w) : advance c.length m = .ok () ⟨m.code, m.pc + c.length, w⟩ := by
  induction c generalizing m with
  | nil =>
    cases hc
    rfl
  | cons i c ih =>
    obtain ⟨u, mid, hi, hrest⟩ := (bind_eq_ok_iff _ _ _ _ _).1 hc
    have hstep : step m = .ok true ⟨m.code, m.pc + 1, mid⟩ := by rw [step_at m i h.head, hi]
    have hlen : m.pc + 1 + c.length = m.pc + (i :: c).length := by rw [List.length_cons]; omega
    calc advance (i :: c).length m = advance c.length ⟨m.code, m.pc + 1, mid⟩ := bind_of_ok _ _ _ _ _ hstep
      _ = .ok () ⟨m.code, m.pc + 1 + c.length, w⟩ := ih _ (h.tail _ _ _ mid) hrest
      _ = .ok () ⟨m.code, m.pc + (i :: c).length, w⟩ := by rw [hlen]

/-- the steps through a block that fails, and which of them does -/
theorem advance_of_exec_error (m : Machine) (c : Code) (w : Workspace) (e : RuntimeError) (h : m.AtBlock c)
    (hc : c.exec m.work = .error e w) :
    ∃ m', advance c.length m = .error e m' ∧ m'.work = w ∧ FailsWithin c.length m e m' := by
  induction c generalizing m with
  | nil => cases hc
  | cons i c ih =>
    have hat := step_at m i h.head
    rcases (bind_eq_error_iff _ _ _ _ _).1 hc with hi | ⟨u, mid, hi, hrest⟩
    · rw [hi] at hat
      exact ⟨_, bind_of_error _ _ _ _ _ hat, rfl, 0, Nat.succ_pos _, m, rfl, rfl, hat⟩
    · rw [hi] at hat
      obtain ⟨m', hadv, hw, k, hk, m'', hpre, hpc, hstep⟩ := ih _ (h.tail _ _ _ mid) hrest
      have hpre' : advance (k + 1) m = .ok () m'' := (bind_of_ok _ _ _ _ _ hat).trans hpre
      have hpc' : m''.pc = m.pc + (k + 1) := by rw [hpc, Nat.add_assoc, Nat.add_comm 1 k]
      exact ⟨m', (bind_of_ok _ _ _ _ _ hat).trans hadv, hw, k + 1, Nat.succ_lt_succ hk, m'', hpre', hpc', hstep⟩

end Machine

open Machine

/-- what the steps through the code of the expression come to -/
inductive Expr.Passage (e : Expr) (m : Machine) (r : EStateM.Result RuntimeError Machine Unit) : Prop
  | value (v : Int32) (hv : e.eval m.work.execution.symbols = .ok v)
      (hroom : m.work.stack.depth + e.need ≤ m.work.stack.limit)
      (hr : r = .ok () ⟨m.code, m.pc + e.code.length,
        ⟨⟨m.work.stack.values.push v, m.work.stack.limit⟩, m.work.execution⟩⟩)
  | failure (err : RuntimeError) (m' : Machine) (hr : r = .error err m') (hstep : FailsWithin e.code.length m err m')
      (hx : m'.work.execution = m.work.execution)
      (hbelow : m.work.stack.values.toList <+: m'.work.stack.values.toList)
      (herr : e.eval m.work.execution.symbols = .error err ∨
        err = .stackOverflow m.work.stack.limit ∧ m.work.stack.limit < m.work.stack.depth + e.need)

theorem Expr.advance_code (e : Expr) (m : Machine) (hblock : m.AtBlock e.code)
    (hdepth : m.work.stack.depth ≤ m.work.stack.limit) : e.Passage m (advance e.code.length m) := by
  have failure : ∀ err vs', e.code.exec m.work = .error err ⟨⟨m.work.stack.values ++ vs', m.work.stack.limit⟩,
      m.work.execution⟩ → (e.eval m.work.execution.symbols = .error err ∨
        err = .stackOverflow m.work.stack.limit ∧ m.work.stack.limit < m.work.stack.depth + e.need) →
      e.Passage m (advance e.code.length m) := by
    intro err vs' hexec herr
    obtain ⟨m', hadv, hw, hstep⟩ := advance_of_exec_error m e.code _ err hblock hexec
    exact .failure err m' hadv hstep (by rw [hw]) (by simp [hw]) herr
  cases e.exec_code m.work.stack.values m.work.stack.limit m.work.execution hdepth with
  | value v hv hroom hr => exact .value v hv hroom (advance_of_exec_ok m e.code _ hblock hr)
  | failure err vs' he hr => exact failure err vs' hr (Or.inl he)
  | overflow vs' hroom hr => exact failure _ vs' hr (Or.inr ⟨rfl, hroom⟩)

/-- **The code of an expression in any context.** On a machine that comes to the code of an expression, with a stack
within its limit and any variables:
- the steps through the code succeed exactly when the expression has a value and the stack has room for as many more
  values as the expression needs;
- then the machine stands just behind the code, with the value on top of the stack as it was, and nothing was printed or
  set;
- when there is room and the expression fails, the steps fail with that very error;
- when the steps fail, it is at one of the instructions of the code; nothing was printed or set, the values that were on
  the stack are still there, and the error is that of the expression, or an overflow for lack of room. -/
theorem exprCode_in_context (e : Expr) (m : Machine) (hblock : m.AtBlock e.code)
    (hdepth : m.work.stack.depth ≤ m.work.stack.limit) :
    ((∃ m', advance e.code.length m = .ok () m') ↔
      (∃ v, e.eval m.work.execution.symbols = .ok v) ∧ m.work.stack.depth + e.need ≤ m.work.stack.limit) ∧
    (∀ m', advance e.code.length m = .ok () m' → ∃ v, e.eval m.work.execution.symbols = .ok v ∧
      m' = ⟨m.code, m.pc + e.code.length,
        ⟨⟨m.work.stack.values.push v, m.work.stack.limit⟩, m.work.execution⟩⟩) ∧
    (∀ err, e.eval m.work.execution.symbols = .error err → m.work.stack.depth + e.need ≤ m.work.stack.limit →
      ∃ m', advance e.code.length m = .error err m') ∧
    ∀ err m', advance e.code.length m = .error err m' →
      FailsWithin e.code.length m err m' ∧
      m'.work.execution = m.work.execution ∧
      m.work.stack.values.toList <+: m'.work.stack.values.toList ∧
      (e.eval m.work.execution.symbols = .error err ∨
        err = .stackOverflow m.work.stack.limit ∧ m.work.stack.limit < m.work.stack.depth + e.need) := by
  cases e.advance_code m hblock hdepth with
  | value v hv hroom hr =>
    rw [hr]
    refine ⟨⟨fun _ => ⟨⟨v, hv⟩, hroom⟩, fun _ => ⟨_, rfl⟩⟩, fun m' h => ?_, fun err he _ => ?_, fun err m' h => ?_⟩
    · cases h
      exact ⟨v, hv, rfl⟩
    · rw [hv] at he
      cases he
    · cases h
  | failure err m' hr hstep hx hbelow herr =>
    have hno : ¬ ((∃ v, e.eval m.work.execution.symbols = .ok v) ∧
        m.work.stack.depth + e.need ≤ m.work.stack.limit) := by
      rintro ⟨⟨v, hv⟩, hroom⟩
      rcases herr with he | ⟨-, hlt⟩
      · rw [hv] at he
        cases he
      · exact absurd hroom (Nat.not_le.2 hlt)
    rw [hr]
    refine ⟨⟨fun ⟨_, h⟩ => (by cases h), fun h => absurd h hno⟩, fun m'' h => ?_, fun err' he' hroom => ?_,
      fun err' m'' h => ?_⟩
    · cases h
    · rcases herr with he | ⟨-, hlt⟩
      · rw [he] at he'
        cases he'
        exact ⟨m', rfl⟩
      · exact absurd hroom (Nat.not_le.2 hlt)
    · cases h
      exact ⟨hstep, hx, hbelow, herr⟩

/-- a machine before the code of `6 / !x`, which stands between other instructions, with the value 1 on its stack -/
def midway (limit : ℕ) (x : Int32) : Machine :=
  ⟨#[.push 1, .push 6, .load "x", .unary .negate, .binary .div, .binary .add, .print], 1,
    ⟨⟨#[1], limit⟩, ⟨#[], SymbolTable.empty.set "x" x⟩⟩⟩

theorem eval_midway (limit : ℕ) (x : Int32) :
    Expr.eval (midway limit x).work.execution.symbols (.binary .div (.const 6) (.unary .negate (.var "x"))) =
      BinaryOp.div.apply 6 (-x) := by
  have hx : Expr.eval (SymbolTable.empty.set "x" x) (.var "x") = .ok x := by simp [Expr.eval, SymbolTable.get_set]
  exact Expr.eval_binary _ _ _ _ 6 (-x) rfl (Expr.eval_unary _ .negate _ x hx)

/-- with room for two values more the quotient comes out, with room for one there is an overflow, and a zero divisor is
reported -/
theorem exprCode_in_context_quotient :
    (∃ m', advance 4 (midway 3 2) = .ok () m') ∧ (¬ ∃ m', advance 4 (midway 2 2) = .ok () m') ∧
    (∃ m', advance 4 (midway 3 0) = .error .divideByZero m') ∧
    ∀ err m', advance 4 (midway 2 2) = .error err m' → err = .stackOverflow 2 := by
  have hblock : ∀ limit x, (midway limit x).AtBlock
      (Expr.code (.binary .div (.const 6) (.unary .negate (.var "x")))) :=
    fun limit x => ⟨[.binary .add, .print], rfl⟩
  have h32 := exprCode_in_context _ _ (hblock 3 2) (by decide)
  have h22 := exprCode_in_context _ _ (hblock 2 2) (by decide)
  have h30 := exprCode_in_context _ _ (hblock 3 0) (by decide)
  rw [eval_midway] at h32 h22 h30
  refine ⟨h32.1.2 ⟨⟨-3, by decide⟩, by decide⟩, fun h => absurd (h22.1.1 h).2 (by decide), ?_, fun err m' h => ?_⟩
  · exact h30.2.2.1 _ (by decide) (by decide)
  · obtain ⟨-, -, -, he | ⟨he, -⟩⟩ := h22.2.2.2 err m' h
    · cases he
    · exact he

end PolishCalc

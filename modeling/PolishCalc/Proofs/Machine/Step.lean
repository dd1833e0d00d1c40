/-
What one instruction does to the stack, the output and the variables.

An instruction takes `operands` values from the stack and, when it succeeds, changes the depth by `effect`. It fails for
the reasons that `Fault` lists, and each of them says how many values have been popped by then; whatever is below these
values, the output and the variables are as they were. On a stack that respects its limit there is no other failure:
the result of an operator always finds the place of the operands that were popped for it.

- `exec_of_fault`: with a fault the instruction fails so, on any stack;
- `exec_outcome`: on a stack that respects its limit, an instruction that has no fault succeeds;
- `step_outcome`: what comes of a step of the machine.
-/
import Mathlib.Tactic
import PolishCalc.Proofs.Machine.Block

namespace PolishCalc

/-! ## Stacks -/

namespace OperandStack

/-- the stack without the `k` values on top -/
def dropTop (s : OperandStack) (k : ℕ) : OperandStack := ⟨s.values.take (s.values.size - k), s.limit⟩

theorem dropTop_zero (s : OperandStack) : s.dropTop 0 = s := by
  simp [dropTop]

theorem dropTop_push (vs : Array Int32) (v : Int32) (limit k : ℕ) :
    (⟨vs.push v, limit⟩ : OperandStack).dropTop (k + 1) = (⟨vs, limit⟩ : OperandStack).dropTop k := by
  simp [dropTop]

theorem empty_or_push (vs : Array Int32) : vs = #[] ∨ ∃ (us : Array Int32) (v : Int32), vs = us.push v := by
  by_cases h : vs.size = 0
  · exact Or.inl (Array.eq_empty_of_size_eq_zero h)
  · exact Or.inr (Array.eq_push_of_size_ne_zero h)

end OperandStack

/-! ## Faults -/

namespace Instruction

/-- how many values an instruction takes from the stack -/
def operands : Instruction → ℕ
  | push _ => 0
  | load _ => 0
  | unary _ => 1
  | binary _ => 2
  | print => 1
  | store _ => 1

/-- by how much an instruction changes the depth of the stack when it succeeds -/
def effect : Instruction → ℤ
  | push _ => 1
  | load _ => 1
  | unary _ => 0
  | binary _ => -1
  | print => -1
  | store _ => -1

/-- what an instruction makes of the output and the variables when it succeeds: it prints the value on top of the stack,
stores it, or leaves both as they are -/
def observe (i : Instruction) (w : Workspace) : Execution :=
  match i, w.stack.values.back? with
  | print, some v => w.execution.print v
  | store name, some v => w.execution.assign name v
  | _, _ => w.execution

/-- why an instruction fails on a workspace, with which error, and how many values it has popped by then -/
inductive Fault (w : Workspace) : Instruction → RuntimeError → ℕ → Prop
  /-- no place for the value -/
  | pushOverflow (v : Int32) (h : w.stack.limit ≤ w.stack.depth) : Fault w (push v) (.stackOverflow w.stack.limit) 0
  /-- no value to load, whether or not there would be a place for it -/
  | unbound (name : String) (h : w.execution.symbols.get name = .error (.uninitialized name)) :
      Fault w (load name) (.uninitialized name) 0
  /-- no place for the value that was loaded -/
  | loadOverflow (name : String) (v : Int32) (hv : w.execution.symbols.get name = .ok v)
      (h : w.stack.limit ≤ w.stack.depth) : Fault w (load name) (.stackOverflow w.stack.limit) 0
  /-- not a single operand -/
  | underflow (i : Instruction) (hi : 0 < i.operands) (h : w.stack.depth = 0) : Fault w i .stackUnderflow 0
  /-- a right operand but no left one -/
  | leftUnderflow (op : BinaryOp) (h : w.stack.depth = 1) : Fault w (binary op) .stackUnderflow 1
  /-- the root of a negative value -/
  | negativeRoot (a : Int32) (h : w.stack.values.back? = some a) (ha : a < 0) :
      Fault w (unary .sqrt) (.negativeSquareRoot a) 1
  /-- a quotient or remainder by zero -/
  | zeroDivisor (op : BinaryOp) (hop : op = .div ∨ op = .mod) (h : 2 ≤ w.stack.depth)
      (hb : w.stack.values.back? = some 0) : Fault w (binary op) .divideByZero 2

inductive Outcome (i : Instruction) (w : Workspace) (r : EStateM.Result RuntimeError Workspace Unit) : Prop
  | done (s : OperandStack) (hops : i.operands ≤ w.stack.depth) (hdepth : (s.depth : ℤ) = w.stack.depth + i.effect)
      (hlimit : s.limit = w.stack.limit) (hroom : s.depth ≤ s.limit) (hr : r = .ok () ⟨s, i.observe w⟩)
  | failed (e : RuntimeError) (k : ℕ) (hf : i.Fault w e k) (hr : r = .error e ⟨w.stack.dropTop k, w.execution⟩)

theorem exec_push_of_room (v : Int32) (vs : Array Int32) (limit : ℕ) (x : Execution) (h : vs.size < limit) :
    (push v).exec ⟨⟨vs, limit⟩, x⟩ = .ok () ⟨⟨vs.push v, limit⟩, x⟩ := by
  rw [exec_push, if_pos h]

theorem exec_push_of_full (v : Int32) (vs : Array Int32) (limit : ℕ) (x : Execution) (h : limit ≤ vs.size) :
    (push v).exec ⟨⟨vs, limit⟩, x⟩ = .error (.stackOverflow limit) ⟨⟨vs, limit⟩, x⟩ := by
  rw [exec_push, if_neg (Nat.not_lt.2 h)]

theorem pop_empty (limit : ℕ) (x : Execution) :
    Workspace.pop ⟨⟨#[], limit⟩, x⟩ = .error .stackUnderflow ⟨⟨#[], limit⟩, x⟩ := by
  simp only [Workspace.pop, Workspace.onStack, OperandStack.pop_empty]

theorem exec_of_empty (i : Instruction) (limit : ℕ) (x : Execution) (h : 0 < i.operands) :
    i.exec ⟨⟨#[], limit⟩, x⟩ = .error .stackUnderflow ⟨⟨#[], limit⟩, x⟩ := by
  cases i with
  | push v => exact absurd h (Nat.lt_irrefl 0)
  | load name => exact absurd h (Nat.lt_irrefl 0)
  | _ => exact bind_of_error _ _ _ _ _ (pop_empty limit x)

theorem exec_binary_of_single (op : BinaryOp) (b : Int32) (limit : ℕ) (x : Execution) :
    (binary op).exec ⟨⟨#[].push b, limit⟩, x⟩ = .error .stackUnderflow ⟨⟨#[], limit⟩, x⟩ := by
  rw [exec, bind_of_ok _ _ _ _ _ (pop_top b #[] limit x)]
  exact bind_of_error _ _ _ _ _ (pop_empty limit x)

/-- with a fault an instruction fails, and leaves all but what it has popped -/
theorem exec_of_fault (i : Instruction) (w : Workspace) (e : RuntimeError) (k : ℕ) (h : i.Fault w e k) :
    i.exec w = .error e ⟨w.stack.dropTop k, w.execution⟩ := by
  obtain ⟨⟨vs, limit⟩, x⟩ := w
  cases h with
  | pushOverflow v h => rw [exec_push_of_full v vs limit x h, OperandStack.dropTop_zero]
  | unbound name h => simp only [exec_load, h, OperandStack.dropTop_zero]
  | loadOverflow name v hv h =>
    simp only [exec_load, hv, exec_push_of_full v vs limit x h, OperandStack.dropTop_zero]
  | underflow _ hi h =>
    obtain rfl : vs = #[] := Array.eq_empty_of_size_eq_zero h
    exact exec_of_empty i limit x hi
  | leftUnderflow op h =>
    rcases OperandStack.empty_or_push vs with rfl | ⟨us, b, rfl⟩
    · cases h
    · obtain rfl : us = #[] := Array.eq_empty_of_size_eq_zero (by simpa [OperandStack.depth] using h)
      rw [exec_binary_of_single, OperandStack.dropTop_push, OperandStack.dropTop_zero]
  | negativeRoot a h ha =>
    rcases OperandStack.empty_or_push vs with rfl | ⟨us, b, rfl⟩
    · cases h
    · obtain rfl : b = a := by simpa using h
      have hroot := (UnaryOp.apply_eq_error_iff .sqrt b _).2 ⟨rfl, ha, rfl⟩
      simp only [exec_unary, hroot, OperandStack.dropTop_push, OperandStack.dropTop_zero]
  | zeroDivisor op hop h hb =>
    rcases OperandStack.empty_or_push vs with rfl | ⟨us, b, rfl⟩
    · cases hb
    · obtain rfl : b = 0 := by simpa using hb
      rcases OperandStack.empty_or_push us with rfl | ⟨us, a, rfl⟩
      · exact absurd h (by simp [OperandStack.depth])
      · have hzero := (BinaryOp.apply_eq_error_iff op a 0 _).2 ⟨hop, rfl, rfl⟩
        simp only [exec_binary, hzero, OperandStack.dropTop_push, OperandStack.dropTop_zero]

/-- what is pushed in place of the operands finds room -/
theorem Outcome.of_push (i : Instruction) (vs us : Array Int32) (limit : ℕ) (x : Execution) (v : Int32)
    (r : EStateM.Result RuntimeError Workspace Unit) (hsize : vs.size = us.size + i.operands)
    (heffect : i.effect = 1 - i.operands) (hlt : us.size < limit) (hx : i.observe ⟨⟨vs, limit⟩, x⟩ = x)
    (hr : r = (push v).exec ⟨⟨us, limit⟩, x⟩) : i.Outcome ⟨⟨vs, limit⟩, x⟩ r := by
  refine .done ⟨us.push v, limit⟩ ?_ ?_ rfl ?_ ?_
  · simp only [OperandStack.depth]
    omega
  · simp only [OperandStack.depth, Array.size_push, heffect]
    omega
  · simpa [OperandStack.depth] using hlt
  · rw [hr, exec_push_of_room v us limit x hlt, hx]

/-- what is popped and printed or stored is gone -/
theorem Outcome.of_pop (i : Instruction) (us : Array Int32) (limit : ℕ) (x : Execution) (v : Int32)
    (r : EStateM.Result RuntimeError Workspace Unit) (hops : i.operands = 1) (heffect : i.effect = -1)
    (hle : us.size < limit) (hr : r = .ok () ⟨⟨us, limit⟩, i.observe ⟨⟨us.push v, limit⟩, x⟩⟩) :
    i.Outcome ⟨⟨us.push v, limit⟩, x⟩ r := by
  refine .done ⟨us, limit⟩ ?_ ?_ rfl hle.le hr
  · simp [OperandStack.depth, hops]
  · simp [OperandStack.depth, heffect]

/-- on a stack that respects its limit an instruction succeeds or has a fault -/
theorem exec_outcome (i : Instruction) (w : Workspace) (h : w.stack.depth ≤ w.stack.limit) :
    i.Outcome w (i.exec w) := by
  have failed : ∀ e k, i.Fault w e k → i.Outcome w (i.exec w) := fun e k hf =>
    .failed e k hf (exec_of_fault i w e k hf)
  obtain ⟨⟨vs, limit⟩, x⟩ := w
  -- below what is popped there is room for one value more
  have room : ∀ (us : Array Int32) (v : Int32), vs = us.push v → us.size < limit := by
    rintro us v rfl
    simpa [OperandStack.depth] using h
  cases i with
  | push v =>
    by_cases hlt : vs.size < limit
    · exact .of_push _ vs vs limit x v _ rfl rfl hlt rfl rfl
    · exact failed _ _ (.pushOverflow v (Nat.not_lt.1 hlt))
  | load name =>
    cases hg : x.symbols.get name with
    | error e =>
      obtain rfl := x.symbols.get_eq_error name e hg
      exact failed _ _ (.unbound name hg)
    | ok v =>
      by_cases hlt : vs.size < limit
      · exact .of_push _ vs vs limit x v _ rfl rfl hlt rfl (by simp only [exec_load, hg])
      · exact failed _ _ (.loadOverflow name v hg (Nat.not_lt.1 hlt))
  | unary op =>
    rcases OperandStack.empty_or_push vs with rfl | ⟨us, a, rfl⟩
    · exact failed _ _ (.underflow _ Nat.one_pos rfl)
    · cases hop : op.apply a with
      | error e =>
        obtain ⟨rfl, ha, rfl⟩ := (UnaryOp.apply_eq_error_iff op a e).1 hop
        exact failed _ _ (.negativeRoot a (by simp) ha)
      | ok v =>
        exact .of_push _ _ us limit x v _ (by simp [operands]) rfl (room us a rfl) rfl
          (by simp only [exec_unary, hop])
  | binary op =>
    rcases OperandStack.empty_or_push vs with rfl | ⟨us, b, rfl⟩
    · exact failed _ _ (.underflow _ Nat.two_pos rfl)
    · rcases OperandStack.empty_or_push us with rfl | ⟨us, a, rfl⟩
      · exact failed _ _ (.leftUnderflow op rfl)
      · have hlt : us.size < limit := by
          have := room _ b rfl
          rw [Array.size_push] at this
          omega
        cases hop : op.apply a b with
        | error e =>
          obtain ⟨hdiv, rfl, rfl⟩ := (BinaryOp.apply_eq_error_iff op a b e).1 hop
          exact failed _ _ (.zeroDivisor op hdiv (by simp [OperandStack.depth]) (by simp))
        | ok v =>
          exact .of_push _ _ us limit x v _ (by simp [operands]) rfl hlt rfl (by simp only [exec_binary, hop])
  | print =>
    rcases OperandStack.empty_or_push vs with rfl | ⟨us, v, rfl⟩
    · exact failed _ _ (.underflow _ Nat.one_pos rfl)
    · exact .of_pop _ us limit x v _ rfl rfl (room us v rfl) (by simp [exec_print, observe])
  | store name =>
    rcases OperandStack.empty_or_push vs with rfl | ⟨us, v, rfl⟩
    · exact failed _ _ (.underflow _ Nat.one_pos rfl)
    · exact .of_pop _ us limit x v _ rfl rfl (room us v rfl) (by simp [exec_store, observe])

end Instruction

namespace Machine

/-! ## A step of the machine -/

inductive StepOutcome (m : Machine) (r : EStateM.Result RuntimeError Machine Bool) : Prop
  /-- no instruction is left, and nothing changes -/
  | halted (h : m.isHalted = true) (hr : r = .ok false m)
  /-- the next instruction succeeds -/
  | done (i : Instruction) (s : OperandStack) (hi : m.code[m.pc]? = some i) (hops : i.operands ≤ m.work.stack.depth)
      (hdepth : (s.depth : ℤ) = m.work.stack.depth + i.effect) (hlimit : s.limit = m.work.stack.limit)
      (hroom : s.depth ≤ s.limit) (hr : r = .ok true ⟨m.code, m.pc + 1, ⟨s, i.observe m.work⟩⟩)
  /-- the next instruction fails, and what it has popped by then is gone -/
  | failed (i : Instruction) (e : RuntimeError) (k : ℕ) (hi : m.code[m.pc]? = some i) (hf : i.Fault m.work e k)
      (hr : r = .error e ⟨m.code, m.pc + 1, ⟨m.work.stack.dropTop k, m.work.execution⟩⟩)

theorem isHalted_iff (m : Machine) : m.isHalted = true ↔ m.code[m.pc]? = none := by
  simp [isHalted]

theorem exists_next (m : Machine) (h : m.isHalted = false) : ∃ i, m.code[m.pc]? = some i := by
  rw [← Option.ne_none_iff_exists', ne_eq, ← isHalted_iff, h]
  exact Bool.false_ne_true

theorem step_of_halted (m : Machine) (h : m.isHalted = true) : step m = .ok false m := by
  have hnone := (isHalted_iff m).1 h
  obtain ⟨code, pc, w⟩ := m
  simp only [step, hnone]

theorem step_at (m : Machine) (i : Instruction) (h : m.code[m.pc]? = some i) :
    step m =
      match i.exec m.work with
      | .ok _ w => .ok true ⟨m.code, m.pc + 1, w⟩
      | .error e w => .error e ⟨m.code, m.pc + 1, w⟩ := by
  obtain ⟨code, pc, w⟩ := m
  cases hw : i.exec w with
  | ok u w' => simp only [step, h, hw]
  | error e w' => simp only [step, h, hw]

theorem step_ok_false (m m' : Machine) (h : step m = .ok false m') : m.isHalted = true ∧ m' = m := by
  cases hi : m.code[m.pc]? with
  | none =>
    have hh := (isHalted_iff m).2 hi
    rw [step_of_halted m hh] at h
    cases h
    exact ⟨hh, rfl⟩
  | some i =>
    rw [step_at m i hi] at h
    split at h <;> cases h

theorem step_outcome (m : Machine) (h : m.work.stack.depth ≤ m.work.stack.limit) : m.StepOutcome (step m) := by
  cases hi : m.code[m.pc]? with
  | none =>
    have hh := (isHalted_iff m).2 hi
    exact .halted hh (step_of_halted m hh)
  | some i =>
    rw [step_at m i hi]
    cases i.exec_outcome m.work h with
    | done s hops hdepth hlimit hroom hr => exact .done i s hi hops hdepth hlimit hroom (by rw [hr])
    | failed e k hf hr => exact .failed i e k hi hf (by rw [hr])

end Machine

end PolishCalc

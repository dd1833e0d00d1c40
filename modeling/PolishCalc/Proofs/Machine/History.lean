/-
What every history of a machine keeps, also one that goes on after errors.

A machine is used by calls: `step` executes one instruction, `run` goes on to the end or to the first error. A history
is a list of calls; whatever a call answers, the next one finds the machine as it was left. A call is a chain of steps
that execute one instruction each (`Trace`), so what a step keeps, every history keeps.

- `trace_call`, `trace_calls`: calls and histories are chains of steps, and `Trace.indices` says which instructions they
  execute;
- `step_bounded`, `step_output`: what a step keeps, and `Trace.bounded`: what a chain of steps keeps;
- `calls_pc`: how far a history gets at least;
- `history_invariants`: all of it together, for a fresh machine.
-/
import Mathlib.Tactic
import PolishCalc.Proofs.Machine.Step

namespace PolishCalc.Machine

inductive Call where
  | step
  | run
deriving DecidableEq, Repr

/-- the machine that a computation leaves, whether it succeeds or fails -/
def after {α : Type} (p : EStateM RuntimeError Machine α) (m : Machine) : Machine :=
  match p m with
  | .ok _ m' => m'
  | .error _ m' => m'

def call (m : Machine) : Call → Machine
  | .step => after step m
  | .run => after run m

def calls (m : Machine) (cs : List Call) : Machine := cs.foldl call m

theorem calls_cons (m : Machine) (c : Call) (cs : List Call) : m.calls (c :: cs) = (m.call c).calls cs := rfl

/-! ## Steps that ignore errors -/

/-- a step on a machine that is not halted moves on by one, whether it succeeds or fails -/
theorem call_step_pc (m : Machine) (h : m.isHalted = false) :
    (m.call .step).pc = m.pc + 1 ∧ (m.call .step).code = m.code := by
  obtain ⟨i, hi⟩ := exists_next m h
  simp only [call, after, step_at m i hi]
  cases i.exec m.work <;> exact ⟨rfl, rfl⟩

theorem call_step_of_halted (m : Machine) (h : m.isHalted = true) : m.call .step = m := by
  simp only [call, after, step_of_halted m h]

/-! ## Calls as chains of steps -/

/-- steps from one machine to another, each of which executes an instruction; the list has the indices of these
instructions -/
inductive Trace : Machine → List ℕ → Machine → Prop
  | nil (m : Machine) : Trace m [] m
  | cons (m m' : Machine) (is : List ℕ) (h : m.isHalted = false) (ht : Trace (m.call .step) is m') :
      Trace m (m.pc :: is) m'

theorem Trace.append (m m' m'' : Machine) (is js : List ℕ) (h : Trace m is m') (h' : Trace m' js m'') :
    Trace m (is ++ js) m'' := by
  induction h with
  | nil m => exact h'
  | cons m m' is hm _ ih => exact .cons m m'' (is ++ js) hm (ih h')

/-- the indices are executed in order, each once -/
theorem Trace.indices (m m' : Machine) (is : List ℕ) (h : Trace m is m') :
    is = List.range' m.pc is.length ∧ m'.pc = m.pc + is.length ∧ m'.code = m.code := by
  induction h with
  | nil m => exact ⟨rfl, rfl, rfl⟩
  | cons m m' is hm _ ih =>
    obtain ⟨hpc, hcode⟩ := call_step_pc m hm
    obtain ⟨his, hpc', hcode'⟩ := ih
    rw [hpc] at his hpc'
    refine ⟨?_, ?_, hcode'.trans hcode⟩
    · rw [List.length_cons, List.range'_succ, ← his]
    · rw [hpc', List.length_cons]
      omega

theorem Trace.calls (m m' : Machine) (is : List ℕ) (h : Trace m is m') :
    m' = m.calls (List.replicate is.length .step) := by
  induction h with
  | nil m => rfl
  | cons m m' is hm _ ih => exact ih

theorem trace_step (m : Machine) : ∃ is, Trace m is (m.call .step) := by
  cases h : m.isHalted with
  | true => exact ⟨[], by rw [call_step_of_halted m h]; exact .nil m⟩
  | false => exact ⟨[m.pc], .cons m _ [] h (.nil _)⟩

theorem call_run_of_halted (m : Machine) (h : m.isHalted = true) : m.call .run = m := by
  simp only [call, after, run_eq m, step_of_halted m h]

/-- a run that does not stop after its first step goes on as a run from there -/
theorem call_run_cases (m : Machine) (h : m.isHalted = false) :
    m.call .run = m.call .step ∨ m.call .run = (m.call .step).call .run := by
  obtain ⟨i, hi⟩ := exists_next m h
  have hstep := step_at m i hi
  cases he : i.exec m.work with
  | ok u w =>
    rw [he] at hstep
    exact Or.inr (by simp only [call, after, run_eq m, hstep])
  | error e w =>
    rw [he] at hstep
    exact Or.inl (by simp only [call, after, run_eq m, hstep])

theorem trace_run (m : Machine) : ∃ is, Trace m is (m.call .run) := by
  -- the instructions that are left bound the steps of a run
  induction hn : m.code.size - m.pc using Nat.strong_induction_on generalizing m with
  | _ n ih =>
    cases h : m.isHalted with
    | true => exact ⟨[], by rw [call_run_of_halted m h]; exact .nil m⟩
    | false =>
      obtain ⟨hpc, hcode⟩ := call_step_pc m h
      have hlt : m.pc < m.code.size := by simpa [isHalted] using h
      rcases call_run_cases m h with hrun | hrun
      · exact ⟨[m.pc], .cons m _ [] h (by rw [hrun]; exact .nil _)⟩
      · obtain ⟨is, his⟩ := ih _ (by rw [← hn, hpc, hcode]; omega) (m.call .step) rfl
        exact ⟨m.pc :: is, .cons m _ is h (by rw [hrun]; exact his)⟩

theorem trace_call (m : Machine) (c : Call) : ∃ is, Trace m is (m.call c) := by
  cases c with
  | step => exact trace_step m
  | run => exact trace_run m

theorem trace_calls (m : Machine) (cs : List Call) : ∃ is, Trace m is (m.calls cs) := by
  induction cs generalizing m with
  | nil => exact ⟨[], .nil m⟩
  | cons c cs ih =>
    obtain ⟨is, his⟩ := trace_call m c
    obtain ⟨js, hjs⟩ := ih (m.call c)
    exact ⟨is ++ js, his.append m _ _ is js hjs⟩

/-! ## What a step keeps, a history keeps -/

/-- the machine holds the code that was loaded, and `pc` and the stack are within their bounds -/
structure Bounded (c : Code) (limit : ℕ) (m : Machine) : Prop where
  code_eq : m.code = c.toArray
  pc_le : m.pc ≤ c.length
  limit_eq : m.work.stack.limit = limit
  depth_le : m.work.stack.depth ≤ limit

theorem load_bounded (c : Code) (limit : ℕ) : Bounded c limit (load c limit) :=
  ⟨rfl, Nat.zero_le _, rfl, Nat.zero_le _⟩

theorem step_bounded (c : Code) (limit : ℕ) (m : Machine) (h : Bounded c limit m) :
    Bounded c limit (m.call .step) := by
  obtain ⟨hcode, hpc, hlimit, hdepth⟩ := h
  have next : ∀ i, m.code[m.pc]? = some i → m.pc + 1 ≤ c.length := by
    intro i hi
    obtain ⟨hlt, -⟩ := Array.getElem?_eq_some_iff.1 hi
    simpa [hcode] using hlt
  cases step_outcome m (hdepth.trans hlimit.ge) with
  | halted hh hr =>
    rw [call_step_of_halted m hh]
    exact ⟨hcode, hpc, hlimit, hdepth⟩
  | done i s hi hops hd hl hroom hr =>
    simp only [call, after, hr]
    exact ⟨hcode, next i hi, hl.trans hlimit, hroom.trans (hl.trans hlimit).le⟩
  | failed i e k hi hf hr =>
    simp only [call, after, hr]
    exact ⟨hcode, next i hi, hlimit, le_trans (by simp [OperandStack.dropTop, OperandStack.depth]) hdepth⟩

/-- what has been printed stays -/
theorem step_output (m : Machine) (h : m.work.stack.depth ≤ m.work.stack.limit) :
    m.work.execution.output.toList <+: (m.call .step).work.execution.output.toList := by
  cases step_outcome m h with
  | halted hh hr => rw [call_step_of_halted m hh]
  | done i s hi hops hd hl hroom hr =>
    simp only [call, after, hr, Instruction.observe]
    split
    · simp [Execution.print]
    · exact List.prefix_refl _
    · exact List.prefix_refl _
  | failed i e k hi hf hr => simp only [call, after, hr, List.prefix_refl]

theorem Trace.bounded (c : Code) (limit : ℕ) (m m' : Machine) (is : List ℕ) (ht : Trace m is m')
    (h : Bounded c limit m) :
    Bounded c limit m' ∧ m.work.execution.output.toList <+: m'.work.execution.output.toList := by
  induction ht with
  | nil m => exact ⟨h, List.prefix_refl _⟩
  | cons m m' is hm _ ih =>
    obtain ⟨hb, hout⟩ := ih (step_bounded c limit m h)
    exact ⟨hb, (step_output m (h.depth_le.trans h.limit_eq.ge)).trans hout⟩

/-! ## How far a history gets -/

theorem call_run_pc (m : Machine) (h : m.isHalted = false) : m.pc + 1 ≤ (m.call .run).pc := by
  obtain ⟨hpc, -⟩ := call_step_pc m h
  rcases call_run_cases m h with hrun | hrun
  · rw [hrun, hpc]
  · obtain ⟨is, his⟩ := trace_run (m.call .step)
    obtain ⟨-, hpc', -⟩ := his.indices
    rw [hrun, hpc', hpc]
    omega

/-- each run of a history passes an instruction, as long as there are any -/
theorem calls_pc (m : Machine) (cs : List Call) :
    min (m.pc + cs.count .run) m.code.size ≤ (m.calls cs).pc := by
  induction cs generalizing m with
  | nil => exact Nat.min_le_left _ _
  | cons c cs ih =>
    have hrest := ih (m.call c)
    obtain ⟨is, his⟩ := trace_call m c
    obtain ⟨-, hpc, hcode⟩ := his.indices
    rw [hcode] at hrest
    rw [calls_cons]
    cases c with
    | step =>
      have hcount : (Call.step :: cs).count .run = cs.count .run := List.count_cons_of_ne (by decide)
      omega
    | run =>
      rw [List.count_cons_self]
      cases hh : m.isHalted with
      | true =>
        have hend : m.code.size ≤ m.pc := by simpa [isHalted] using hh
        omega
      | false =>
        have hrun := call_run_pc m hh
        omega

/-- **Histories of a machine.** After any calls of `step` and `run` on a fresh machine, errors ignored:
- the code is the one that was loaded, `pc` is at most its length and the stack at most as deep as its limit;
- the next step stays put on a halted machine, and otherwise moves on by one and either does what the instruction does,
  or fails and takes from the stack what it has popped, and nothing else changes;
- the instructions that were executed are those before `pc`, in order, each once;
- a run is a chain of at most as many steps as there are instructions left;
- as many runs as there are instructions halt the machine, and a further run succeeds;
- what was printed stays in front of all that will be printed. -/
theorem history_invariants (c : Code) (limit : ℕ) (cs : List Call) :
    let m := (load c limit).calls cs
    Bounded c limit m ∧ m.StepOutcome (step m) ∧ Trace (load c limit) (List.range m.pc) m ∧
    (∃ n, n ≤ c.length - m.pc ∧ m.call .run = m.calls (List.replicate n .step)) ∧
    (c.length ≤ cs.count .run → m.isHalted = true ∧ run m = .ok () m) ∧
    ∀ more, m.work.execution.output.toList <+: (m.calls more).work.execution.output.toList := by
  intro m
  obtain ⟨is, his⟩ := trace_calls (load c limit) cs
  obtain ⟨hindices, hpc, -⟩ := his.indices
  obtain ⟨hb, -⟩ := his.bounded c limit _ _ _ (load_bounded c limit)
  have hdone : is = List.range m.pc := by
    rw [hindices, hpc, List.range_eq_range']
    simp [load]
  refine ⟨hb, step_outcome m (hb.depth_le.trans hb.limit_eq.ge), hdone ▸ his, ?_, fun hruns => ?_, fun more => ?_⟩
  · obtain ⟨js, hjs⟩ := trace_run m
    obtain ⟨-, hpc', -⟩ := hjs.indices
    have hle := (hjs.bounded c limit _ _ _ hb).1.pc_le
    exact ⟨js.length, by omega, hjs.calls⟩
  · have hle : min (0 + cs.count .run) c.toArray.size ≤ m.pc := calls_pc (load c limit) cs
    have hend : m.code.size ≤ m.pc := by
      rw [List.size_toArray] at hle
      rw [hb.code_eq, List.size_toArray]
      omega
    have hh : m.isHalted = true := decide_eq_true hend
    exact ⟨hh, by rw [run_eq m, step_of_halted m hh]⟩
  · obtain ⟨js, hjs⟩ := trace_calls m more
    exact (hjs.bounded c limit _ _ _ hb).2

end PolishCalc.Machine

/-
Whether a code runs out of operands or of stack is decided by the code alone.

The depth of the stack does not depend on the values on it: before the instruction at index `k` it is `depthAt k`, the
sum of the effects of the instructions before. An index is bad if its instruction lacks operands there (`underflowsAt`), or
would push a value onto a stack that is full already (`overflowsAt`). A run never gets past a bad index, and only there
does its stack overflow or underflow; other errors can only end it earlier, or in place of the overflow.

- `step_level`, `run_outcome`: the depth along a run, from a step to the whole, and how a run ends;
- `Instruction.relaxes_exec`, `run_relaxes`: under a larger limit an instruction and a run do the same, unless the stack
  overflowed under the smaller one;
- `stack_faults_static`: the runs of a fresh machine.
-/
import Mathlib.Tactic
import PolishCalc.Proofs.Machine.History

namespace PolishCalc

/-! ## Bad indices -/

/-- an instruction that pushes a value and takes none from the stack -/
def Instruction.isSource : Instruction → Bool
  | .push _ => true
  | .load _ => true
  | _ => false

namespace Code

/-- the depth of the stack after the first `k` instructions, as far as it is a depth at all -/
def depthAt (code : Code) (k : ℕ) : ℤ := ((code.take k).map Instruction.effect).sum

/-- the instruction at `k` lacks operands -/
def underflowsAt (code : Code) (k : ℕ) : Bool := code[k]?.any fun i => code.depthAt k < i.operands

/-- the instruction at `k` would push a value onto a full stack -/
def overflowsAt (code : Code) (limit k : ℕ) : Bool := code[k]?.any fun i => i.isSource && limit ≤ code.depthAt k

/-- the instruction at `k` cannot succeed, whatever the values -/
def badAt (code : Code) (limit k : ℕ) : Bool := code.underflowsAt k || code.overflowsAt limit k

theorem depthAt_succ (code : Code) (k : ℕ) (i : Instruction) (h : code[k]? = some i) :
    code.depthAt (k + 1) = code.depthAt k + i.effect := by
  simp [depthAt, List.take_add_one, h]

theorem underflowsAt_iff (code : Code) (k : ℕ) (i : Instruction) (h : code[k]? = some i) :
    code.underflowsAt k = true ↔ code.depthAt k < i.operands := by
  simp [underflowsAt, h]

theorem overflowsAt_iff (code : Code) (limit k : ℕ) (i : Instruction) (h : code[k]? = some i) :
    code.overflowsAt limit k = true ↔ i.isSource = true ∧ limit ≤ code.depthAt k := by
  simp [overflowsAt, h]

theorem depthAt_min (code : Code) (k : ℕ) : code.depthAt (min k code.length) = code.depthAt k := by
  rw [depthAt, depthAt, ← List.take_eq_take_min]

theorem badAt_of_end (code : Code) (limit k : ℕ) (h : code.length ≤ k) : code.badAt limit k = false := by
  simp [badAt, underflowsAt, overflowsAt, List.getElem?_eq_none h]

end Code

/-! ## Faults of the stack -/

namespace Instruction

theorem effect_of_isSource (i : Instruction) (h : i.isSource = true) : i.effect = 1 := by
  cases i with
  | push v => rfl
  | load name => rfl
  | _ => cases h

theorem Fault.stackUnderflow_iff (w : Workspace) (i : Instruction) (e : RuntimeError) (k : ℕ) (h : i.Fault w e k) :
    e = .stackUnderflow ↔ w.stack.depth < i.operands := by
  cases h with
  | pushOverflow v h => simp [operands]
  | unbound name h => simp [operands]
  | loadOverflow name v hv h => simp [operands]
  | underflow _ hi h => simp [h, hi]
  | leftUnderflow op h => simp [h, operands]
  | negativeRoot a h ha =>
    have hne : w.stack.depth ≠ 0 := by
      intro h0
      rw [Array.eq_empty_of_size_eq_zero h0] at h
      cases h
    simp only [operands]
    simp
    omega
  | zeroDivisor op hop h hb =>
    simp only [operands]
    simp
    omega

theorem Fault.of_stackOverflow (w : Workspace) (i : Instruction) (limit k : ℕ)
    (h : i.Fault w (.stackOverflow limit) k) :
    limit = w.stack.limit ∧ i.isSource = true ∧ w.stack.limit ≤ w.stack.depth := by
  cases h with
  | pushOverflow v h => exact ⟨rfl, rfl, h⟩
  | loadOverflow name v hv h => exact ⟨rfl, rfl, h⟩

end Instruction

/-! ## The depth along a run -/

namespace Machine

/-- the machine is within its bounds, and its stack is as deep as the code says -/
structure Level (c : Code) (limit : ℕ) (m : Machine) : Prop extends Bounded c limit m where
  depth_eq : (m.work.stack.depth : ℤ) = c.depthAt m.pc

theorem load_level (c : Code) (limit : ℕ) : Level c limit (load c limit) := ⟨load_bounded c limit, rfl⟩

theorem Bounded.getElem?_eq (code : Code) (limit : ℕ) (m : Machine) (h : Bounded code limit m) (k : ℕ) :
    m.code[k]? = code[k]? := by
  rw [h.code_eq, List.getElem?_toArray]

/-- a successful step keeps the level, and there is nothing bad where it was made -/
theorem step_level (c : Code) (limit : ℕ) (m m' : Machine) (h : Level c limit m) (hs : step m = .ok true m') :
    Level c limit m' ∧ m'.pc = m.pc + 1 ∧ c.badAt limit m.pc = false := by
  have hb : Bounded c limit m' := by
    have := step_bounded c limit m h.toBounded
    simpa only [call, after, hs] using this
  have hlimit := h.limit_eq
  have hdepth := h.depth_eq
  cases step_outcome m (h.depth_le.trans hlimit.ge) with
  | halted hh hr =>
    rw [hs] at hr
    cases hr
  | failed i e k hi hf hr =>
    rw [hs] at hr
    cases hr
  | done i s hi hops hd hl hroom hr =>
    rw [hs] at hr
    cases hr
    rw [h.getElem?_eq] at hi
    refine ⟨⟨hb, ?_⟩, rfl, ?_⟩
    · rw [c.depthAt_succ m.pc i hi, hd, hdepth]
    · rw [Code.badAt, Bool.or_eq_false_iff, Bool.eq_false_iff, Bool.eq_false_iff, ne_eq, ne_eq,
        c.underflowsAt_iff m.pc i hi, c.overflowsAt_iff limit m.pc i hi]
      refine ⟨by omega, ?_⟩
      rintro ⟨hsource, hfull⟩
      rw [i.effect_of_isSource hsource] at hd
      omega

/-- a failed step says what is bad where it was made -/
theorem step_fault (c : Code) (limit : ℕ) (m m' : Machine) (e : RuntimeError) (h : Level c limit m)
    (hs : step m = .error e m') :
    m'.pc = m.pc + 1 ∧ (e = .stackUnderflow ↔ c.underflowsAt m.pc = true) ∧
      ∀ l, e = .stackOverflow l → l = limit ∧ c.overflowsAt limit m.pc = true := by
  have hlimit := h.limit_eq
  have hdepth := h.depth_eq
  cases step_outcome m (h.depth_le.trans hlimit.ge) with
  | halted hh hr =>
    rw [hs] at hr
    cases hr
  | done i s hi hops hd hl hroom hr =>
    rw [hs] at hr
    cases hr
  | failed i e k hi hf hr =>
    rw [hs] at hr
    cases hr
    rw [h.getElem?_eq] at hi
    refine ⟨rfl, ?_, ?_⟩
    · rw [hf.stackUnderflow_iff, c.underflowsAt_iff m.pc i hi, ← hdepth, Nat.cast_lt]
    · rintro l rfl
      obtain ⟨rfl, hsource, hfull⟩ := hf.of_stackOverflow
      refine ⟨hlimit, (c.overflowsAt_iff limit m.pc i hi).2 ⟨hsource, ?_⟩⟩
      omega

/-- how a run ends, with what is bad on its way -/
inductive RunOutcome (c : Code) (limit : ℕ) (m : Machine) (r : EStateM.Result RuntimeError Machine Unit) : Prop
  | done (m' : Machine) (hr : r = .ok () m') (hm : Level c limit m') (hend : m'.pc = c.length)
      (hgood : ∀ k, m.pc ≤ k → c.badAt limit k = false)
  | failed (e : RuntimeError) (m' : Machine) (k : ℕ) (hr : r = .error e m') (hpc : m'.pc = k + 1)
      (hgood : ∀ j, m.pc ≤ j → j < k → c.badAt limit j = false)
      (hunder : e = .stackUnderflow ↔ c.underflowsAt k = true)
      (hover : ∀ l, e = .stackOverflow l → l = limit ∧ c.overflowsAt limit k = true)

theorem run_outcome (c : Code) (limit : ℕ) (m : Machine) (h : Level c limit m) : RunOutcome c limit m (run m) := by
  -- the instructions that are left bound the steps of a run
  induction hn : c.length - m.pc using Nat.strong_induction_on generalizing m with
  | _ n ih =>
    rw [run_eq]
    cases hs : step m with
    | error e m' =>
      obtain ⟨hpc, hunder, hover⟩ := step_fault c limit m m' e h hs
      exact .failed e m' m.pc rfl hpc (fun j hj hlt => absurd hlt (by omega)) hunder hover
    | ok more m' =>
      cases more with
      | false =>
        obtain ⟨hh, rfl⟩ := step_ok_false m m' hs
        have hend : c.length ≤ m'.pc := by simpa [isHalted, h.code_eq] using hh
        exact .done m' rfl h (le_antisymm h.pc_le hend) fun k hk => c.badAt_of_end limit k (hend.trans hk)
      | true =>
        obtain ⟨hm, hpc, hgood⟩ := step_level c limit m m' h hs
        have hle := hm.pc_le
        cases ih _ (by omega) m' hm rfl with
        | done m'' hr hm' hend hrest =>
          refine .done m'' hr hm' hend fun k hk => ?_
          rcases Nat.eq_or_lt_of_le hk with rfl | hlt
          · exact hgood
          · exact hrest k (by omega)
        | failed e m'' k hr hpc' hrest hunder hover =>
          refine .failed e m'' k hr hpc' (fun j hj hjk => ?_) hunder hover
          rcases Nat.eq_or_lt_of_le hj with rfl | hlt
          · exact hgood
          · exact hrest j (by omega) hjk

/-- executes the next `k` instructions, up to the first that fails -/
def advance : ℕ → EStateM RuntimeError Machine Unit
  | 0 => pure ()
  | k + 1 => do
    let _ ← step
    advance k

theorem advance_level (c : Code) (limit k : ℕ) (m m' : Machine) (h : Level c limit m)
    (hk : advance k m = .ok () m') : Level c limit m' ∧ m'.pc = min (m.pc + k) c.length := by
  induction k generalizing m with
  | zero =>
    cases hk
    exact ⟨h, (Nat.min_eq_left h.pc_le).symm⟩
  | succ k ih =>
    obtain ⟨more, mid, hs, hrest⟩ := (bind_eq_ok_iff _ _ _ _ _).1 hk
    cases more with
    | false =>
      obtain ⟨hh, rfl⟩ := step_ok_false m mid hs
      have hend : c.length ≤ mid.pc := by simpa [isHalted, h.code_eq] using hh
      obtain ⟨hm, hpc⟩ := ih mid h hrest
      exact ⟨hm, by omega⟩
    | true =>
      obtain ⟨hmid, hpc, -⟩ := step_level c limit m mid h hs
      obtain ⟨hm, hpc'⟩ := ih mid hmid hrest
      exact ⟨hm, by omega⟩

end Machine

/-! ## Larger limits -/

/-- the same values under another limit -/
def OperandStack.withLimit (s : OperandStack) (limit : ℕ) : OperandStack := { s with limit := limit }

def Workspace.withLimit (w : Workspace) (limit : ℕ) : Workspace := { w with stack := w.stack.withLimit limit }

def Machine.withLimit (m : Machine) (limit : ℕ) : Machine := { m with work := m.work.withLimit limit }

namespace Workspace

variable {α β : Type}

/-- under the larger limit the computation does the same, unless the stack overflowed under the smaller one -/
structure Relaxes (limit : ℕ) (p : Work α) : Prop where
  ok : ∀ w a w', w.stack.limit ≤ limit → p w = .ok a w' →
    w'.stack.limit ≤ limit ∧ p (w.withLimit limit) = .ok a (w'.withLimit limit)
  error : ∀ w e w', w.stack.limit ≤ limit → p w = .error e w' →
    (∃ l, e = .stackOverflow l) ∨ p (w.withLimit limit) = .error e (w'.withLimit limit)

theorem Relaxes.bind (limit : ℕ) (p : Work α) (f : α → Work β) (hp : Relaxes limit p)
    (hf : ∀ a, Relaxes limit (f a)) : Relaxes limit (p >>= f) := by
  constructor
  · intro w b w' hle h
    obtain ⟨a, mid, hpa, hfb⟩ := (bind_eq_ok_iff _ _ _ _ _).1 h
    obtain ⟨hmid, hpa'⟩ := hp.ok w a mid hle hpa
    rw [bind_of_ok _ _ _ _ _ hpa']
    exact (hf a).ok mid b w' hmid hfb
  · intro w e w' hle h
    rcases (bind_eq_error_iff _ _ _ _ _).1 h with hpe | ⟨a, mid, hpa, hfe⟩
    · rcases hp.error w e w' hle hpe with hover | hpe'
      · exact Or.inl hover
      · exact Or.inr (bind_of_error _ _ _ _ _ hpe')
    · obtain ⟨hmid, hpa'⟩ := hp.ok w a mid hle hpa
      rw [bind_of_ok _ _ _ _ _ hpa']
      exact (hf a).error mid e w' hmid hfe

/-- a computation that does not look at the limit does the same under any -/
theorem Relaxes.of_same (limit : ℕ) (p : Work α)
    (hok : ∀ w a w', p w = .ok a w' →
      w'.stack.limit = w.stack.limit ∧ p (w.withLimit limit) = .ok a (w'.withLimit limit))
    (herror : ∀ w e w', p w = .error e w' → p (w.withLimit limit) = .error e (w'.withLimit limit)) :
    Relaxes limit p := by
  constructor
  · intro w a w' hle h
    obtain ⟨hlimit, h'⟩ := hok w a w' h
    exact ⟨hlimit.le.trans hle, h'⟩
  · intro w e w' _ h
    exact Or.inr (herror w e w' h)

theorem relaxes_push (limit : ℕ) (v : Int32) : Relaxes limit (push v) := by
  constructor
  · rintro ⟨⟨vs, l⟩, x⟩ a w' hle h
    rw [← Instruction.exec, Instruction.exec_push] at h
    split_ifs at h with hlt
    cases h
    exact ⟨hle, Instruction.exec_push_of_room v vs limit x (lt_of_lt_of_le hlt hle)⟩
  · rintro ⟨⟨vs, l⟩, x⟩ e w' hle h
    rw [← Instruction.exec, Instruction.exec_push] at h
    split_ifs at h
    cases h
    exact Or.inl ⟨l, rfl⟩

theorem relaxes_pop (limit : ℕ) : Relaxes limit pop := by
  refine .of_same limit pop ?_ ?_
  · rintro ⟨⟨vs, l⟩, x⟩ a w' h
    rcases OperandStack.empty_or_push vs with rfl | ⟨us, v, rfl⟩
    · rw [Instruction.pop_empty] at h
      cases h
    · rw [Instruction.pop_top] at h
      cases h
      exact ⟨rfl, Instruction.pop_top a us limit x⟩
  · rintro ⟨⟨vs, l⟩, x⟩ e w' h
    rcases OperandStack.empty_or_push vs with rfl | ⟨us, v, rfl⟩
    · rw [Instruction.pop_empty] at h
      cases h
      exact Instruction.pop_empty limit x
    · rw [Instruction.pop_top] at h
      cases h

theorem relaxes_get (limit : ℕ) (name : String) : Relaxes limit (get name) := by
  refine .of_same limit (get name) ?_ ?_
  · intro w v w' h
    simp only [get] at h
    split at h <;> cases h
    next hg => exact ⟨rfl, by simp only [get, withLimit, hg]⟩
  · intro w e w' h
    simp only [get] at h
    split at h <;> cases h
    next hg => simp only [get, withLimit, hg]

theorem relaxes_result (limit : ℕ) (r : Except RuntimeError Int32) : Relaxes limit (result r) := by
  cases r with
  | ok v => exact .of_same limit _ (fun w a w' h => by cases h; exact ⟨rfl, rfl⟩) fun w e w' h => by cases h
  | error e => exact .of_same limit _ (fun w a w' h => by cases h) fun w e w' h => by cases h; rfl

theorem relaxes_observe (limit : ℕ) (f : Execution → Execution) : Relaxes limit (observe f) :=
  .of_same limit _ (fun w a w' h => by cases h; exact ⟨rfl, rfl⟩) fun w e w' h => by cases h

end Workspace

theorem Instruction.relaxes_exec (limit : ℕ) (i : Instruction) : Workspace.Relaxes limit i.exec := by
  cases i with
  | push v => exact Workspace.relaxes_push limit v
  | load name => exact (Workspace.relaxes_get limit name).bind _ _ _ fun v => Workspace.relaxes_push limit v
  | unary op =>
    refine (Workspace.relaxes_pop limit).bind _ _ _ fun a => ?_
    exact (Workspace.relaxes_result limit _).bind _ _ _ fun v => Workspace.relaxes_push limit v
  | binary op =>
    refine (Workspace.relaxes_pop limit).bind _ _ _ fun b => (Workspace.relaxes_pop limit).bind _ _ _ fun a => ?_
    exact (Workspace.relaxes_result limit _).bind _ _ _ fun v => Workspace.relaxes_push limit v
  | print => exact (Workspace.relaxes_pop limit).bind _ _ _ fun v => Workspace.relaxes_observe limit _
  | store name => exact (Workspace.relaxes_pop limit).bind _ _ _ fun v => Workspace.relaxes_observe limit _

namespace Machine

/-- what a run under a larger limit has in common with a run -/
def RunRelaxes (limit : ℕ) (m : Machine) : Prop :=
  (∀ m', run m = .ok () m' → run (m.withLimit limit) = .ok () (m'.withLimit limit)) ∧
    ∀ e m', run m = .error e m' →
      (∃ l, e = .stackOverflow l) ∨ run (m.withLimit limit) = .error e (m'.withLimit limit)

theorem run_relaxes (limit : ℕ) (m : Machine) (hle : m.work.stack.limit ≤ limit) : RunRelaxes limit m := by
  induction hn : m.code.size - m.pc using Nat.strong_induction_on generalizing m with
  | _ n ih =>
    obtain ⟨code, pc, w⟩ := m
    cases hi : code[pc]? with
    | none =>
      have hrun := run_at_end code pc w hi
      have hrun' := run_at_end code pc (w.withLimit limit) hi
      refine ⟨fun m' hm => ?_, fun e m' hm => ?_⟩
      · rw [hrun] at hm
        cases hm
        exact hrun'
      · rw [hrun] at hm
        cases hm
    | some i =>
      have hrun := run_at code pc w i hi
      have hrun' := run_at code pc (w.withLimit limit) i hi
      have hsize : code.size - (pc + 1) < n := by
        obtain ⟨hlt, -⟩ := Array.getElem?_eq_some_iff.1 hi
        simp only at hn
        omega
      cases he : i.exec w with
      | ok u mid =>
        obtain ⟨hmid, he'⟩ := (i.relaxes_exec limit).ok w u mid hle he
        rw [he] at hrun
        rw [he'] at hrun'
        have hrec := ih _ hsize ⟨code, pc + 1, mid⟩ hmid rfl
        simp only [RunRelaxes, withLimit, hrun, hrun'] at hrec ⊢
        exact hrec
      | error e mid =>
        rw [he] at hrun
        refine ⟨fun m' hm => ?_, fun e' m' hm => ?_⟩
        · rw [hrun] at hm
          cases hm
        · rw [hrun] at hm
          cases hm
          rcases (i.relaxes_exec limit).error w e mid hle he with hover | he'
          · exact Or.inl hover
          · rw [he'] at hrun'
            exact Or.inr hrun'

/-! ## Runs of a fresh machine -/

/-- without a bad index the stack neither underflows nor overflows -/
theorem run_of_good (c : Code) (limit : ℕ) (hgood : ∀ k, c.badAt limit k = false) :
    (∀ m, run (load c limit) ≠ .error .stackUnderflow m) ∧ (∀ l m, run (load c limit) ≠ .error (.stackOverflow l) m) ∧
      ∀ m, run (load c limit) = .ok () m → (m.work.stack.depth : ℤ) = c.depthAt c.length := by
  cases run_outcome c limit _ (load_level c limit) with
  | done m hr hm hend _ =>
    rw [hr]
    refine ⟨fun m' h => (by cases h), fun l m' h => (by cases h), fun m' h => ?_⟩
    cases h
    rw [hm.depth_eq, hend]
  | failed e m k hr _ _ hunder hover =>
    have hk := hgood k
    rw [Code.badAt, Bool.or_eq_false_iff] at hk
    rw [hr]
    refine ⟨fun m' h => ?_, fun l m' h => ?_, fun m' h => (by cases h)⟩
    · cases h
      rw [hunder.1 rfl] at hk
      cases hk.1
    · cases h
      rw [(hover l rfl).2] at hk
      cases hk.2

/-- a run ends at the first bad index or before it, and it is there that the stack is at fault -/
theorem run_of_bad (c : Code) (limit k : ℕ) (hbad : c.badAt limit k = true)
    (hfirst : ∀ j < k, c.badAt limit j = false) :
    (∀ m, run (load c limit) ≠ .ok () m) ∧
      (∀ m, run (load c limit) = .error .stackUnderflow m → m.pc = k + 1 ∧ c.underflowsAt k = true) ∧
      ∀ l m, run (load c limit) = .error (.stackOverflow l) m →
        l = limit ∧ m.pc = k + 1 ∧ c.overflowsAt limit k = true := by
  cases run_outcome c limit _ (load_level c limit) with
  | done m hr hm hend hgood =>
    rw [hgood k (Nat.zero_le k)] at hbad
    cases hbad
  | failed e m k' hr hpc hgood hunder hover =>
    have hle : k' ≤ k := by
      by_contra hlt
      rw [hgood k (Nat.zero_le k) (Nat.lt_of_not_le hlt)] at hbad
      cases hbad
    have first : c.badAt limit k' = true → k' = k := by
      intro hbad'
      by_contra hne
      rw [hfirst k' (lt_of_le_of_ne hle hne)] at hbad'
      cases hbad'
    rw [hr]
    refine ⟨fun m' h => (by cases h), fun m' h => ?_, fun l m' h => ?_⟩
    · cases h
      have hk := hunder.1 rfl
      obtain rfl := first (by rw [Code.badAt, hk, Bool.true_or])
      exact ⟨hpc, hk⟩
    · cases h
      obtain ⟨hl, hk⟩ := hover l rfl
      obtain rfl := first (by rw [Code.badAt, hk, Bool.or_true])
      exact ⟨hl, hpc, hk⟩

/-- **Stack faults are static.** For any code on a fresh machine, under any limit:
- when the first `k` instructions succeed, the stack is `depthAt k` deep;
- when no index is bad, the stack neither underflows nor overflows, and after a success it is as deep as the whole code
  says;
- when there is a bad index, the run fails, and its stack underflows or overflows at the first bad index only, with the
  fault that the code has there;
- a larger limit changes nothing but a stack overflow. -/
theorem stack_faults_static (c : Code) (limit : ℕ) :
    (∀ k m, advance k (load c limit) = .ok () m → (m.work.stack.depth : ℤ) = c.depthAt k) ∧
    ((∀ k, c.badAt limit k = false) →
      (∀ m, run (load c limit) ≠ .error .stackUnderflow m) ∧
      (∀ l m, run (load c limit) ≠ .error (.stackOverflow l) m) ∧
      ∀ m, run (load c limit) = .ok () m → (m.work.stack.depth : ℤ) = c.depthAt c.length) ∧
    (∀ k, c.badAt limit k = true → (∀ j < k, c.badAt limit j = false) →
      (∀ m, run (load c limit) ≠ .ok () m) ∧
      (∀ m, run (load c limit) = .error .stackUnderflow m → m.pc = k + 1 ∧ c.underflowsAt k = true) ∧
      ∀ l m, run (load c limit) = .error (.stackOverflow l) m →
        l = limit ∧ m.pc = k + 1 ∧ c.overflowsAt limit k = true) ∧
    ∀ limit', limit ≤ limit' →
      (∀ m, run (load c limit) = .ok () m → run (load c limit') = .ok () (m.withLimit limit')) ∧
      ∀ e m, run (load c limit) = .error e m → (∀ l, e ≠ .stackOverflow l) →
        run (load c limit') = .error e (m.withLimit limit') := by
  refine ⟨fun k m hk => ?_, run_of_good c limit, run_of_bad c limit, fun limit' hle => ?_⟩
  · obtain ⟨hm, hpc⟩ := advance_level c limit k _ m (load_level c limit) hk
    rw [hm.depth_eq, hpc, load, Nat.zero_add, c.depthAt_min]
  · obtain ⟨hok, herror⟩ := run_relaxes limit' (load c limit) hle
    refine ⟨hok, fun e m h hne => ?_⟩
    rcases herror e m h with ⟨l, rfl⟩ | h'
    · exact absurd rfl (hne l)
    · exact h'

/-- a quotient on a stack of two values, and on a stack that has place for one only -/
theorem stack_faults_quotient :
    (∀ l m, run (load [.push 6, .push 3, .binary .div, .print] 2) ≠ .error (.stackOverflow l) m) ∧
    ∀ m, run (load [.push 6, .push 3, .binary .div, .print] 1) ≠ .ok () m := by
  have hgood : ∀ k, Code.badAt [.push 6, .push 3, .binary .div, .print] 2 k = false := by
    intro k
    have hsmall : ∀ k < 4, Code.badAt [.push 6, .push 3, .binary .div, .print] 2 k = false := by decide
    rcases Nat.lt_or_ge k 4 with hk | hk
    · exact hsmall k hk
    · exact Code.badAt_of_end _ 2 k hk
  exact ⟨((stack_faults_static _ 2).2.1 hgood).2.1, ((stack_faults_static _ 1).2.2.1 1 (by decide) (by decide)).1⟩

end Machine

end PolishCalc

/-
Reads of variables that have no value.

Which variables have a value when an action is carried out can be seen from the text of the program: those that an
action before it assigns to. So the reads that fail for want of a value are known before the program is run
(`Program.unboundReads`). A run that gets past an action has read all of its variables, and a read that fails is the
first unbound one, on the tree as well as in the code on the machine. What can come before it is another error only.

The induction over a program adds actions at its end, as the variables that are set depend on what stands in front.

- `Expr.contains_of_eval`, `Expr.unbound_of_eval`: what the outcome of an expression says of its variables;
- `Program.tells_concat`, `Program.tells_run`: what a run says of the reads and the assignments of the program, action by
  action;
- `Program.ComesTo`: what a program can come to, on its tree or on a machine;
- `uninitialized_of_text`: so the program text decides about uninitialized variables.
-/
import Mathlib.Tactic
import PolishCalc.Proofs.Code.Simulation
import PolishCalc.Proofs.Program.Source

namespace PolishCalc

/-! ## Assignments and reads in the text -/

def Action.target? : Action → Option String
  | assign name _ => some name
  | print _ => none

def Program.targets (p : Program) : List String := p.filterMap Action.target?

/-- the variables that the program reads before an action has assigned to them, in the order of evaluation: action by
action, and from left to right within an expression -/
def Program.unboundReads (p : Program) : List String :=
  p.zipIdx.flatMap fun (a, i) => a.expr.variables.filter fun x => x ∉ Program.targets (p.take i)

namespace Program

theorem targets_concat (p : Program) (a : Action) : targets (p ++ [a]) = targets p ++ a.target?.toList := by
  rw [targets, List.filterMap_append]
  cases h : a.target? <;> simp [targets, h]

/-- an action at the end makes no difference to the reads in front of it -/
theorem unboundReads_concat (p : Program) (a : Action) :
    unboundReads (p ++ [a]) = unboundReads p ++ a.expr.variables.filter fun x => x ∉ targets p := by
  have hfront : ∀ b ∈ p.zipIdx, (p ++ [a]).take b.2 = p.take b.2 := by
    intro b hb
    exact List.take_append_of_le_length (List.snd_lt_of_mem_zipIdx hb).le
  rw [unboundReads, unboundReads, List.zipIdx_append, List.flatMap_append]
  congr 1
  · refine List.flatMap_congr fun b hb => ?_
    simp only [hfront b hb]
  · simp

end Program

/-! ## Expressions -/

namespace Expr

/-- an expression that has a value reads variables that have one -/
theorem contains_of_eval (s : SymbolTable) (e : Expr) (v : Int32) (h : e.eval s = .ok v) :
    ∀ x ∈ e.variables, s.contains x = true := by
  induction e generalizing v with
  | const w => exact fun x hx => absurd hx List.not_mem_nil
  | var name => exact List.forall_mem_singleton.2 ((s.contains_iff name).2 ⟨v, h⟩)
  | unary op e ih =>
    obtain ⟨a, ha, -⟩ := eval_unary_eq_ok s op e v h
    exact ih a ha
  | binary op l r ihl ihr =>
    obtain ⟨a, b, ha, hb, -⟩ := eval_binary_eq_ok s op l r v h
    exact List.forall_mem_append.2 ⟨ihl a ha, ihr b hb⟩

/-- the variables of the expression that have no value, from left to right -/
def unbound (s : SymbolTable) (e : Expr) : List String := e.variables.filter fun x => !s.contains x

theorem unbound_of_eval (s : SymbolTable) (e : Expr) (v : Int32) (h : e.eval s = .ok v) : e.unbound s = [] := by
  apply List.filter_eq_nil_iff.2
  intro x hx
  simp [e.contains_of_eval s v h x hx]

theorem unbound_binary (s : SymbolTable) (op : BinaryOp) (l r : Expr) :
    (binary op l r).unbound s = l.unbound s ++ r.unbound s :=
  List.filter_append _ _

/-- the read that fails is the first of a variable without a value -/
theorem unbound_of_uninitialized (s : SymbolTable) (e : Expr) (x : String) (h : e.eval s = .error (.uninitialized x)) :
    (e.unbound s).head? = some x := by
  induction e with
  | const v => cases h
  | var name =>
    obtain rfl := RuntimeError.uninitialized.inj (s.get_eq_error name _ h)
    have hx : s.contains x = false := by
      rw [Bool.eq_false_iff, ne_eq, s.contains_iff x]
      rintro ⟨v, hv⟩
      rw [eval, hv] at h
      cases h
    simp [unbound, Expr.variables, hx]
  | unary op e ih =>
    rcases eval_unary_eq_error s op e _ h with he | ⟨a, -, hop⟩
    · exact ih he
    · obtain ⟨-, -, hop⟩ := (op.apply_eq_error_iff a _).1 hop
      cases hop
  | binary op l r ihl ihr =>
    rw [unbound_binary, List.head?_append]
    rcases eval_binary_eq_error s op l r _ h with hl | ⟨a, ha, hr | ⟨b, -, hop⟩⟩
    · rw [ihl hl]
      rfl
    · rw [l.unbound_of_eval s a ha, ihr hr]
      rfl
    · obtain ⟨-, -, hop⟩ := (op.apply_eq_error_iff a b _).1 hop
      cases hop

end Expr

/-! ## Runs -/

/-- an action that is done adds the variable that it assigns to -/
theorem Action.contains_effect (a : Action) (v : Int32) (x : Execution) (y : String) :
    (a.effect v x).symbols.contains y = true ↔ a.target? = some y ∨ x.symbols.contains y = true := by
  cases a with
  | assign name e => simp [effect, Execution.assign, SymbolTable.contains_set, target?]
  | print e => simp [effect, Execution.print, target?]

namespace Program

theorem run_concat_of_ok (p : Program) (a : Action) (x : Execution) (v : Int32) (h : exec p .empty = .ok () x)
    (hv : a.expr.eval x.symbols = .ok v) : run (p ++ [a]) = .ok (a.effect v x) := by
  rw [run, exec_append_of_ok p [a] .empty x h, exec_singleton, a.exec_of_ok x v hv]

theorem run_concat_of_error (p : Program) (a : Action) (x : Execution) (e : RuntimeError) (h : exec p .empty = .ok () x)
    (he : a.expr.eval x.symbols = .error e) : run (p ++ [a]) = .error e := by
  rw [run, exec_append_of_ok p [a] .empty x h, exec_singleton, a.exec_of_error x e he]

/-- what the outcome of a run says of the text of the program -/
inductive Tells (p : Program) : Except RuntimeError Execution → Prop
  | done (x : Execution) (hreads : p.unboundReads = []) (hset : ∀ y, x.symbols.contains y = true ↔ y ∈ p.targets) :
      Tells p (.ok x)
  | uninitialized (y : String) (hread : p.unboundReads.head? = some y) : Tells p (.error (.uninitialized y))
  | failed (e : RuntimeError) (he : ∀ y, e ≠ .uninitialized y) : Tells p (.error e)

/-- behind a program that succeeds, an action is carried out with the variables of the program -/
theorem tells_concat (p : Program) (a : Action) (x : Execution) (h : exec p .empty = .ok () x)
    (hreads : p.unboundReads = []) (hset : ∀ y, x.symbols.contains y = true ↔ y ∈ p.targets) :
    Tells (p ++ [a]) (run (p ++ [a])) := by
  have hunbound : unboundReads (p ++ [a]) = a.expr.unbound x.symbols := by
    rw [unboundReads_concat, hreads, List.nil_append, Expr.unbound]
    apply List.filter_congr
    intro y _
    simp [← hset y]
  cases hv : a.expr.eval x.symbols with
  | ok v =>
    rw [run_concat_of_ok p a x v h hv]
    refine .done _ (hunbound.trans (a.expr.unbound_of_eval x.symbols v hv)) fun y => ?_
    rw [a.contains_effect, targets_concat, List.mem_append, Option.mem_toList, hset y, or_comm]
  | error e =>
    rw [run_concat_of_error p a x e h hv]
    by_cases he : ∃ y, e = .uninitialized y
    · obtain ⟨y, rfl⟩ := he
      exact .uninitialized y (by rw [hunbound, a.expr.unbound_of_uninitialized x.symbols y hv])
    · exact .failed e (not_exists.1 he)

theorem tells_run (p : Program) : p.Tells p.run := by
  induction p using List.reverseRecOn with
  | nil => exact .done .empty rfl fun y => by simp [Execution.empty, SymbolTable.contains_empty, targets]
  | append_singleton p a ih =>
    rw [run] at ih
    cases hrun : exec p .empty with
    | ok u x =>
      rw [hrun] at ih
      cases ih with
      | done _ hreads hset => exact tells_concat p a x hrun hreads hset
    | error e x =>
      -- what the program in front fails with, the whole fails with
      rw [hrun] at ih
      rw [run, exec_append_of_error p [a] .empty x e hrun]
      cases ih with
      | uninitialized y hread => exact .uninitialized y (by rw [unboundReads_concat, List.head?_append, hread]; rfl)
      | failed _ he => exact .failed e he

/-! ## Both paths -/

/-- what the program can come to: what its tree comes to, or what its code comes to on a machine with some limit -/
inductive ComesTo (p : Program) : Except RuntimeError Execution → Prop
  | tree : ComesTo p p.run
  | halted (limit : ℕ) (m : Machine) (h : Machine.run (Machine.load p.code limit) = .ok () m) :
      ComesTo p (.ok m.work.execution)
  | stopped (limit : ℕ) (e : RuntimeError) (m : Machine) (h : Machine.run (Machine.load p.code limit) = .error e m) :
      ComesTo p (.error e)

/-- a machine that does not run out of stack comes to what the tree comes to -/
theorem ComesTo.eq_run (p : Program) (r : Except RuntimeError Execution) (h : p.ComesTo r) :
    r = p.run ∨ ∃ limit, r = .error (.stackOverflow limit) := by
  cases h with
  | tree => exact Or.inl rfl
  | halted limit m h =>
    rcases run_code_cases p limit with ⟨hsame, -⟩ | ⟨-, m', q, hm', -⟩
    · left
      cases hsame with
      | done x m' hr hm' hx =>
        cases h.symm.trans hm'
        rw [run, hr, hx]
      | failure err x m' hr hm' => cases h.symm.trans hm'
    · cases h.symm.trans hm'
  | stopped limit e m h =>
    rcases run_code_cases p limit with ⟨hsame, -⟩ | ⟨-, m', q, hm', -⟩
    · left
      cases hsame with
      | done x m' hr hm' => cases h.symm.trans hm'
      | failure err x m' hr hm' =>
        cases h.symm.trans hm'
        rw [run, hr]
    · right
      cases h.symm.trans hm'
      exact ⟨limit, rfl⟩

theorem ComesTo.tells (p : Program) (r : Except RuntimeError Execution) (h : p.ComesTo r) : p.Tells r := by
  rcases h.eq_run p r with rfl | ⟨limit, rfl⟩
  · exact p.tells_run
  · exact .failed _ fun y => by simp

end Program

/-- **Uninitialized reads are decided by the program text.** On its tree, and as code on a machine with any limit:
- a program without an unbound read never fails for a variable without a value;
- a program with an unbound read does not succeed, and if it fails for a variable, that is the one of its first unbound
  read;
- a program that succeeds leaves a value for the variables that it assigns to and for no other. -/
theorem uninitialized_of_text (p : Program) (r : Except RuntimeError Execution) (h : p.ComesTo r) :
    (p.unboundReads = [] → ∀ y, r ≠ .error (.uninitialized y)) ∧
    (∀ x, p.unboundReads.head? = some x → (∀ s, r ≠ .ok s) ∧ ∀ y, r = .error (.uninitialized y) → y = x) ∧
    ∀ s, r = .ok s → ∀ x, s.symbols.contains x = true ↔ x ∈ p.targets := by
  have htells := h.tells p r
  refine ⟨?without, fun x hx => ⟨?stops, ?first⟩, ?bound⟩
  case without =>
    intro hreads y hy
    subst hy
    cases htells with
    | uninitialized _ hread =>
      rw [hreads] at hread
      cases hread
    | failed _ he => exact he y rfl
  case stops =>
    intro s hs
    subst hs
    cases htells with
    | done _ hreads _ =>
      rw [hreads] at hx
      cases hx
  case first =>
    intro y hy
    subst hy
    cases htells with
    | uninitialized _ hread => exact Option.some.inj (hread.symm.trans hx)
    | failed _ he => exact absurd rfl (he y)
  case bound =>
    intro s hs
    subst hs
    cases htells with
    | done _ _ hset => exact hset

/-- `= a 1`, then `= b + a * b c`, where both `b` and `c` are missing; and `= a 1`, then `@ a` -/
theorem uninitialized_of_text_self :
    Program.unboundReads
        [.assign "a" (.const 1), .assign "b" (.binary .add (.var "a") (.binary .mul (.var "b") (.var "c")))] =
      ["b", "c"] ∧
    (∀ s, Program.run
        [.assign "a" (.const 1), .assign "b" (.binary .add (.var "a") (.binary .mul (.var "b") (.var "c")))] ≠ .ok s) ∧
    Program.unboundReads [.assign "a" (.const 1), .print (.var "a")] = [] ∧
    (∀ y, Program.run [.assign "a" (.const 1), .print (.var "a")] ≠ .error (.uninitialized y)) ∧
    Program.run [.assign "a" (.const 1), .print (.var "a")] = .ok ⟨#[1], SymbolTable.empty.set "a" 1⟩ ∧
    ∀ x, (SymbolTable.empty.set "a" 1).contains x = true ↔ x ∈ ["a"] := by
  have hreads : Program.unboundReads
      [.assign "a" (.const 1), .assign "b" (.binary .add (.var "a") (.binary .mul (.var "b") (.var "c")))] =
        ["b", "c"] := by decide
  have hnone : Program.unboundReads [.assign "a" (.const 1), .print (.var "a")] = [] := by decide
  have hrun : Program.run [.assign "a" (.const 1), .print (.var "a")] = .ok ⟨#[1], SymbolTable.empty.set "a" 1⟩ := by
    decide
  obtain ⟨-, hfails, -⟩ := uninitialized_of_text
    [.assign "a" (.const 1), .assign "b" (.binary .add (.var "a") (.binary .mul (.var "b") (.var "c")))] _ .tree
  obtain ⟨hnever, -, hset⟩ := uninitialized_of_text [.assign "a" (.const 1), .print (.var "a")] _ .tree
  exact ⟨hreads, (hfails "b" (by rw [hreads]; rfl)).1, hnone, hnever hnone, hrun, hset _ hrun⟩

end PolishCalc

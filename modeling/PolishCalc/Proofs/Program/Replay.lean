/-
An interpreter that is used call by call, also after failures.

A call carries out an action, evaluates an expression or runs a program, on the execution that the calls before it have
left; whatever it answers, the next call goes on from what it leaves. A call completes some actions: the action that it
carries out, or those of its program up to the first that fails (`Call.Contributes`). Since a failing action changes
nothing, these actions are all that is left of the call. So a history comes to what the actions that it has completed
come to, one after the other, without any failure.

- `Program.exec_completed`: a run leaves what the actions that it completes leave;
- `Program.completed_append`: which these are;
- `contributes_iff`: what a call completes is what it contributes;
- `exec_completed_calls`: from a call to a history;
- `calls_eq_replay`: the replay of a whole history.
-/
import Mathlib.Tactic
import PolishCalc.Proofs.Program.Evaluation

namespace PolishCalc

/-- the execution that a computation leaves, whether it succeeds or fails -/
def Exec.after {α : Type} (m : Exec α) (x : Execution) : Execution :=
  match m x with
  | .ok _ y => y
  | .error _ y => y

/-! ## The actions that a program completes -/

namespace Program

/-- the actions of the program up to the first that fails -/
def completed : Program → Execution → Program
  | [], _ => []
  | a :: p, x =>
    match a.exec x with
    | .ok _ y => a :: completed p y
    | .error _ _ => []

theorem completed_cons_of_ok (a : Action) (p : Program) (x y : Execution) (h : a.exec x = .ok () y) :
    completed (a :: p) x = a :: completed p y := by
  rw [completed, h]

theorem completed_cons_of_error (a : Action) (p : Program) (x y : Execution) (e : RuntimeError)
    (h : a.exec x = .error e y) : completed (a :: p) x = [] := by
  rw [completed, h]

/-- actions in front that succeed are completed, and then those that are completed after them -/
theorem completed_append (p q : Program) (x y : Execution) (h : exec p x = .ok () y) :
    completed (p ++ q) x = p ++ completed q y := by
  induction p generalizing x with
  | nil =>
    cases h
    rfl
  | cons a p ih =>
    cases ha : a.exec x with
    | ok u z =>
      rw [exec_cons_of_ok a p x z ha] at h
      rw [List.cons_append, completed_cons_of_ok a (p ++ q) x z ha, ih z h, List.cons_append]
    | error e z =>
      rw [exec_cons_of_error a p x z e ha] at h
      cases h

theorem completed_of_ok (p : Program) (x y : Execution) (h : exec p x = .ok () y) : completed p x = p := by
  have hp := completed_append p [] x y h
  rwa [List.append_nil, completed, List.append_nil] at hp

/-- a program that fails has actions that succeed, and then one that fails -/
theorem exists_of_exec_error (p : Program) (x y : Execution) (e : RuntimeError) (h : exec p x = .error e y) :
    ∃ q a r z, p = q ++ a :: r ∧ exec q x = .ok () z ∧ a.exec z = .error e y := by
  induction p generalizing x with
  | nil => cases h
  | cons a p ih =>
    cases ha : a.exec x with
    | ok u z =>
      rw [exec_cons_of_ok a p x z ha] at h
      obtain ⟨q, b, r, w, rfl, hq, hb⟩ := ih z h
      exact ⟨a :: q, b, r, w, rfl, (exec_cons_of_ok a q x z ha).trans hq, hb⟩
    | error e' z =>
      rw [exec_cons_of_error a p x z e' ha] at h
      cases h
      exact ⟨[], a, p, x, rfl, rfl, ha⟩

/-- a run leaves what the actions that it completes leave when they are run on their own -/
theorem exec_completed (p : Program) (x : Execution) : exec (completed p x) x = .ok () (Exec.after (exec p) x) := by
  induction p generalizing x with
  | nil => rfl
  | cons a p ih =>
    cases ha : a.exec x with
    | ok u y =>
      have hafter : Exec.after (exec (a :: p)) x = Exec.after (exec p) y := by
        rw [Exec.after, exec_cons_of_ok a p x y ha, Exec.after]
      rw [completed_cons_of_ok a p x y ha, exec_cons_of_ok a _ x y ha, ih y, hafter]
    | error e y =>
      -- the action that fails has left the execution as it was
      obtain ⟨-, rfl⟩ := a.eval_of_exec_error x y e ha
      rw [completed_cons_of_error a p y y e ha, Exec.after, exec_cons_of_error a p y y e ha]
      rfl

end Program

/-! ## Calls -/

namespace Interpreter

/-- a call on an interpreter, which is kept between calls -/
inductive Call where
  | execute (a : Action)
  | evaluate (e : Expr)
  | run (p : Program)
deriving DecidableEq, Repr

def evaluate (e : Expr) : Exec Int32 := fun x =>
  match e.eval x.symbols with
  | .ok v => .ok v x
  | .error err => .error err x

def call (x : Execution) : Call → Execution
  | .execute a => Exec.after a.exec x
  | .evaluate e => Exec.after (evaluate e) x
  | .run p => Exec.after (Program.exec p) x

def calls (x : Execution) (cs : List Call) : Execution := cs.foldl call x

/-- what a call contributes: the action that it carries out, unless that fails; the program that it runs, or what stands
there before the first action that fails -/
inductive Call.Contributes (x : Execution) : Call → Program → Prop
  | executed (a : Action) (y : Execution) (h : a.exec x = .ok () y) : Contributes x (.execute a) [a]
  | refused (a : Action) (e : RuntimeError) (y : Execution) (h : a.exec x = .error e y) : Contributes x (.execute a) []
  | evaluated (e : Expr) : Contributes x (.evaluate e) []
  | ran (p : Program) (y : Execution) (h : Program.exec p x = .ok () y) : Contributes x (.run p) p
  | stopped (p q : Program) (a : Action) (e : RuntimeError) (y z : Execution) (hp : Program.exec p x = .ok () y)
      (ha : a.exec y = .error e z) : Contributes x (.run (p ++ a :: q)) p

def Call.completed (x : Execution) : Call → Program
  | execute a => Program.completed [a] x
  | evaluate _ => []
  | run p => Program.completed p x

/-- the actions that the calls of a history complete -/
def completed (x : Execution) : List Call → Program
  | [] => []
  | c :: cs => c.completed x ++ completed (call x c) cs

theorem contributes_iff (x : Execution) (c : Call) (p : Program) : c.Contributes x p ↔ p = c.completed x := by
  constructor
  · intro h
    cases h with
    | executed a y h => exact (Program.completed_cons_of_ok a [] x y h).symm
    | refused a e y h => exact (Program.completed_cons_of_error a [] x y e h).symm
    | evaluated e => rfl
    | ran p y h => exact (p.completed_of_ok x y h).symm
    | stopped p q a e y z hp ha =>
      rw [Call.completed, Program.completed_append p (a :: q) x y hp, Program.completed_cons_of_error a q y z e ha,
        List.append_nil]
  · rintro rfl
    cases c with
    | execute a =>
      rw [Call.completed]
      cases ha : a.exec x with
      | ok u y =>
        rw [Program.completed_cons_of_ok a [] x y ha]
        exact .executed a y ha
      | error e y =>
        rw [Program.completed_cons_of_error a [] x y e ha]
        exact .refused a e y ha
    | evaluate e => exact .evaluated e
    | run p =>
      rw [Call.completed]
      cases hp : Program.exec p x with
      | ok u y =>
        rw [p.completed_of_ok x y hp]
        exact .ran p y hp
      | error e y =>
        obtain ⟨q, a, r, z, rfl, hq, ha⟩ := Program.exists_of_exec_error p x y e hp
        rw [Program.completed_append q (a :: r) x z hq, Program.completed_cons_of_error a r z y e ha, List.append_nil]
        exact .stopped q r a e z y hq ha

/-! ## Replay -/

/-- a call leaves what the actions that it completes leave -/
theorem exec_completed_call (x : Execution) (c : Call) : Program.exec (c.completed x) x = .ok () (call x c) := by
  cases c with
  | execute a =>
    rw [Call.completed, Program.exec_completed]
    simp only [call, Exec.after, Program.exec_singleton]
  | evaluate e =>
    -- an expression is evaluated with the variables and does not set them
    cases he : e.eval x.symbols with
    | ok v => simp only [Call.completed, Program.exec, call, Exec.after, evaluate, he]
    | error err => simp only [Call.completed, Program.exec, call, Exec.after, evaluate, he]
  | run p => exact Program.exec_completed p x

/-- so does a history: each call goes on from what the actions completed before it have left -/
theorem exec_completed_calls (x : Execution) (cs : List Call) :
    Program.exec (completed x cs) x = .ok () (calls x cs) := by
  induction cs generalizing x with
  | nil => rfl
  | cons c cs ih =>
    calc Program.exec (completed x (c :: cs)) x
        = Program.exec (completed (call x c) cs) (call x c) :=
          Program.exec_append_of_ok _ _ x _ (exec_completed_call x c)
      _ = .ok () (calls (call x c) cs) := ih (call x c)

/-- **A history can be replayed without its failures.** It comes to what the actions that it has completed come to when
they are run from the start, and that run does not fail. What a call completes is what it contributes. -/
theorem calls_eq_replay (cs : List Call) :
    Program.run (completed .empty cs) = .ok (calls .empty cs) ∧
      ∀ x c p, Call.Contributes x c p ↔ p = Call.completed x c := by
  constructor
  · rw [Program.run, exec_completed_calls]
  · exact contributes_iff

-- `B` is read before it is set: the run stops there, and the evaluation fails
example : completed .empty
    [.execute (.assign "A" (.const 1)), .run [.print (.var "A"), .print (.var "B"), .print (.const 7)],
      .evaluate (.var "B"), .execute (.assign "B" (.var "A"))] =
    [.assign "A" (.const 1), .print (.var "A"), .assign "B" (.var "A")] := by
  cbv

end Interpreter

end PolishCalc

/-
Running a program on its tree, one step at a time.

What an operator comes to is decided by what its operands come to, the left one first. What an action does is decided by
the value of its expression: it has its `effect`, or it fails and has none. A program goes on from action to action, so a
program in two parts goes on from where its first part ends.

- `Expr.eval_unary`, `Expr.eval_binary` and the lemmas beside them: evaluation, one operator at a time;
- `Expr.eval_unary_eq_ok`, `Expr.eval_binary_eq_error` and so on: what must have come before a result;
- `Action.exec_of_ok`, `Action.exec_of_error`: an action is done, or nothing is;
- `Program.exec_append_of_ok`, `Program.exec_append_of_error`: a program in two parts;
- `Expr.eval_error`, `Action.exec_error`, `Program.exec_error`: no error of a tree is one of a stack.
-/
import Mathlib.Tactic
import PolishCalc.Control
import PolishCalc.Program.Evaluation

namespace PolishCalc

/-! ## Expressions, one operator at a time -/

namespace Expr

theorem eval_unary (s : SymbolTable) (op : UnaryOp) (e : Expr) (a : Int32) (h : e.eval s = .ok a) :
    (unary op e).eval s = op.apply a := by
  rw [eval, h]
  rfl

theorem eval_unary_error (s : SymbolTable) (op : UnaryOp) (e : Expr) (r : RuntimeError) (h : e.eval s = .error r) :
    (unary op e).eval s = .error r := by
  rw [eval, h]
  rfl

theorem eval_binary (s : SymbolTable) (op : BinaryOp) (l r : Expr) (a b : Int32) (hl : l.eval s = .ok a)
    (hr : r.eval s = .ok b) : (binary op l r).eval s = op.apply a b := by
  rw [eval, hl, hr]
  rfl

theorem eval_binary_left (s : SymbolTable) (op : BinaryOp) (l r : Expr) (e : RuntimeError)
    (hl : l.eval s = .error e) : (binary op l r).eval s = .error e := by
  rw [eval, hl]
  rfl

theorem eval_binary_right (s : SymbolTable) (op : BinaryOp) (l r : Expr) (a : Int32) (e : RuntimeError)
    (hl : l.eval s = .ok a) (hr : r.eval s = .error e) : (binary op l r).eval s = .error e := by
  rw [eval, hl, hr]
  rfl

theorem eval_unary_eq_ok (s : SymbolTable) (op : UnaryOp) (e : Expr) (v : Int32) (h : (unary op e).eval s = .ok v) :
    ∃ a, e.eval s = .ok a ∧ op.apply a = .ok v := by
  cases he : e.eval s with
  | ok a =>
    rw [eval_unary s op e a he] at h
    exact ⟨a, rfl, h⟩
  | error r =>
    rw [eval_unary_error s op e r he] at h
    cases h

theorem eval_unary_eq_error (s : SymbolTable) (op : UnaryOp) (e : Expr) (r : RuntimeError)
    (h : (unary op e).eval s = .error r) : e.eval s = .error r ∨ ∃ a, e.eval s = .ok a ∧ op.apply a = .error r := by
  cases he : e.eval s with
  | ok a =>
    rw [eval_unary s op e a he] at h
    exact Or.inr ⟨a, rfl, h⟩
  | error r' =>
    rw [eval_unary_error s op e r' he] at h
    exact Or.inl h

theorem eval_binary_eq_ok (s : SymbolTable) (op : BinaryOp) (l r : Expr) (v : Int32)
    (h : (binary op l r).eval s = .ok v) : ∃ a b, l.eval s = .ok a ∧ r.eval s = .ok b ∧ op.apply a b = .ok v := by
  cases hl : l.eval s with
  | error e =>
    rw [eval_binary_left s op l r e hl] at h
    cases h
  | ok a =>
    cases hr : r.eval s with
    | error e =>
      rw [eval_binary_right s op l r a e hl hr] at h
      cases h
    | ok b =>
      rw [eval_binary s op l r a b hl hr] at h
      exact ⟨a, b, rfl, rfl, h⟩

/-- a binary operation fails with its left operand, or after that with its right one, or by itself -/
theorem eval_binary_eq_error (s : SymbolTable) (op : BinaryOp) (l r : Expr) (e : RuntimeError)
    (h : (binary op l r).eval s = .error e) :
    l.eval s = .error e ∨ ∃ a, l.eval s = .ok a ∧
      (r.eval s = .error e ∨ ∃ b, r.eval s = .ok b ∧ op.apply a b = .error e) := by
  cases hl : l.eval s with
  | error e' =>
    rw [eval_binary_left s op l r e' hl] at h
    exact Or.inl h
  | ok a =>
    refine Or.inr ⟨a, rfl, ?_⟩
    cases hr : r.eval s with
    | error e' =>
      rw [eval_binary_right s op l r a e' hl hr] at h
      exact Or.inl h
    | ok b =>
      rw [eval_binary s op l r a b hl hr] at h
      exact Or.inr ⟨b, rfl, h⟩

/-- evaluation never fails for a reason that only a stack has -/
theorem eval_error (s : SymbolTable) (e : Expr) (r : RuntimeError) (h : e.eval s = .error r) :
    r ≠ .stackUnderflow ∧ ∀ limit, r ≠ .stackOverflow limit := by
  induction e with
  | const v => cases h
  | var name =>
    obtain rfl := s.get_eq_error name r h
    simp
  | unary op e ih =>
    rcases eval_unary_eq_error s op e r h with he | ⟨a, -, hop⟩
    · exact ih he
    · obtain ⟨-, -, rfl⟩ := (op.apply_eq_error_iff a r).1 hop
      simp
  | binary op l r' ihl ihr =>
    rcases eval_binary_eq_error s op l r' r h with hl | ⟨a, -, hr | ⟨b, -, hop⟩⟩
    · exact ihl hl
    · exact ihr hr
    · obtain ⟨-, -, rfl⟩ := (op.apply_eq_error_iff a b r).1 hop
      simp

end Expr

/-! ## Actions -/

namespace Action

/-- what the action does once its expression has a value -/
def effect (a : Action) (v : Int32) (x : Execution) : Execution :=
  match a with
  | assign name _ => x.assign name v
  | print _ => x.print v

theorem exec_of_ok (a : Action) (x : Execution) (v : Int32) (h : a.expr.eval x.symbols = .ok v) :
    a.exec x = .ok () (a.effect v x) := by
  cases a with
  | assign name e => simp only [exec, h, effect]
  | print e => simp only [exec, h, effect]

theorem exec_of_error (a : Action) (x : Execution) (err : RuntimeError) (h : a.expr.eval x.symbols = .error err) :
    a.exec x = .error err x := by
  simp only [exec, h]

/-- an action that fails has no value, and changes nothing -/
theorem eval_of_exec_error (a : Action) (x y : Execution) (err : RuntimeError) (h : a.exec x = .error err y) :
    a.expr.eval x.symbols = .error err ∧ y = x := by
  cases hv : a.expr.eval x.symbols with
  | ok v =>
    rw [exec_of_ok a x v hv] at h
    cases h
  | error r =>
    rw [exec_of_error a x r hv] at h
    cases h
    exact ⟨rfl, rfl⟩

theorem exec_error (a : Action) (x x' : Execution) (err : RuntimeError) (h : a.exec x = .error err x') :
    err ≠ .stackUnderflow ∧ ∀ limit, err ≠ .stackOverflow limit :=
  Expr.eval_error _ _ _ (a.eval_of_exec_error x x' err h).1

end Action

/-! ## Programs -/

namespace Program

theorem exec_cons_of_ok (a : Action) (p : Program) (x x' : Execution) (h : a.exec x = .ok () x') :
    exec (a :: p) x = exec p x' := by
  rw [exec, h]

theorem exec_cons_of_error (a : Action) (p : Program) (x x' : Execution) (err : RuntimeError)
    (h : a.exec x = .error err x') : exec (a :: p) x = .error err x' := by
  rw [exec, h]

theorem exec_singleton (a : Action) (x : Execution) : exec [a] x = a.exec x := by
  cases h : a.exec x with
  | ok u y => exact exec_cons_of_ok a [] x y h
  | error e y => exact exec_cons_of_error a [] x y e h

theorem exec_append (p q : Program) : exec (p ++ q) = exec p >>= fun _ => exec q := by
  funext x
  induction p generalizing x with
  | nil => rfl
  | cons a p ih =>
    rw [List.cons_append]
    cases h : a.exec x with
    | ok u y =>
      rw [exec_cons_of_ok a (p ++ q) x y h, ih y]
      simp only [bind, EStateM.bind, exec_cons_of_ok a p x y h]
    | error e y =>
      rw [exec_cons_of_error a (p ++ q) x y e h]
      exact (bind_of_error _ _ _ _ _ (exec_cons_of_error a p x y e h)).symm

theorem exec_append_of_ok (p q : Program) (x y : Execution) (h : exec p x = .ok () y) :
    exec (p ++ q) x = exec q y := by
  rw [exec_append]
  exact bind_of_ok _ _ _ _ _ h

theorem exec_append_of_error (p q : Program) (x y : Execution) (err : RuntimeError) (h : exec p x = .error err y) :
    exec (p ++ q) x = .error err y := by
  rw [exec_append]
  exact bind_of_error _ _ _ _ _ h

theorem exec_error (p : Program) (x x' : Execution) (err : RuntimeError) (h : p.exec x = .error err x') :
    err ≠ .stackUnderflow ∧ ∀ limit, err ≠ .stackOverflow limit := by
  induction p generalizing x with
  | nil => cases h
  | cons a p ih =>
    cases ha : a.exec x with
    | ok _ y =>
      rw [exec_cons_of_ok a p x y ha] at h
      exact ih y h
    | error r y =>
      rw [exec_cons_of_error a p x y r ha] at h
      cases h
      exact a.exec_error x _ _ ha

end Program

end PolishCalc

/-
Compiling a program text and running it on its tree come to the same.

What a parser accepts has all that the detour through instruction text and machine needs: names are words that start
with a letter, so the text of the code is read back as the code; and operators nest at most `Parser.defaultNesting`
deep, so the operand stack stays far below its limit.

- `isClean_code`: the code of what is spelled by words holds clean names only;
- `need_le`: the stack is deeper than the operators nest by one value at most;
- `isClean_of_ofText`, `need_of_ofText`: so the code of a text that parses is clean and has room;
- `compileAndRun_agrees`: from program text to result the two paths agree, errors included.
-/
import Mathlib.Tactic
import PolishCalc.Compilation
import PolishCalc.Proofs.Code.Simulation
import PolishCalc.Proofs.Code.Text
import PolishCalc.Proofs.Program.Grammar

namespace PolishCalc

open Lexeme

/-! ## Names -/

theorem isClean_exprCode (e : Expr) (w : List String) (h : e.Spelling w) (hw : ∀ s ∈ w, IsWord s) :
    ∀ i ∈ e.code, i.IsClean := by
  induction h with
  | const v s hs => simp [Expr.code, Instruction.IsClean]
  | var name hn => simpa [Expr.code, Instruction.IsClean, IsClean] using ⟨hn, (hw name (by simp)).2⟩
  | unary op e u _ ih =>
    have he := ih fun s hs => hw s (List.mem_cons_of_mem _ hs)
    exact List.forall_mem_append.2 ⟨he, List.forall_mem_singleton.2 trivial⟩
  | binary op l r u w _ _ ihl ihr =>
    have hl := ihl fun s hs => hw s (by simp [hs])
    have hr := ihr fun s hs => hw s (by simp [hs])
    exact List.forall_mem_append.2 ⟨hl, List.forall_mem_append.2 ⟨hr, List.forall_mem_singleton.2 trivial⟩⟩

theorem isClean_actionCode (a : Action) (w : List String) (h : a.Spelling w) (hw : ∀ s ∈ w, IsWord s) :
    ∀ i ∈ a.code, i.IsClean := by
  cases h with
  | assign name e u hn he =>
    have hcode := isClean_exprCode e u he fun s hs => hw s (by simp [hs])
    have hname : IsClean name := ⟨hn, (hw name (by simp)).2⟩
    exact List.forall_mem_append.2 ⟨hcode, List.forall_mem_singleton.2 hname⟩
  | print e u he =>
    have hcode := isClean_exprCode e u he fun s hs => hw s (by simp [hs])
    exact List.forall_mem_append.2 ⟨hcode, List.forall_mem_singleton.2 trivial⟩

theorem isClean_code (p : Program) (w : List String) (h : p.Spelling w) (hw : ∀ s ∈ w, IsWord s) :
    ∀ i ∈ p.code, i.IsClean := by
  induction h with
  | nil => simp [Program.code]
  | cons a p u w ha _ ih =>
    obtain ⟨hu, hw⟩ := List.forall_mem_append.1 hw
    exact List.forall_mem_append.2 ⟨isClean_actionCode a u ha hu, ih hw⟩

/-! ## Stack depth -/

theorem Expr.need_le (e : Expr) : e.need ≤ e.nesting + 1 := by
  induction e with
  | const v => exact le_rfl
  | var name => exact le_rfl
  | unary op e ih => simp only [need, nesting]; omega
  | binary op l r ihl ihr => simp only [need, nesting]; omega

theorem Program.need_le (p : Program) (limit : ℕ) (h : ∀ a ∈ p, a.expr.nesting ≤ limit) : p.need ≤ limit + 1 := by
  induction p with
  | nil => exact Nat.zero_le _
  | cons a p ih =>
    have ha := a.expr.need_le
    have hn := h a List.mem_cons_self
    exact max_le (by omega) (ih fun b hb => h b (List.mem_cons_of_mem a hb))

/-! ## The two paths -/

/-- the code of a program whose stack depth is within the default limit runs as the program does -/
theorem run_code_eq (p : Program) (h : p.need ≤ OperandStack.defaultLimit) : Code.run p.code = p.run := by
  cases sameEnd_of_need_le p OperandStack.defaultLimit h with
  | done x m hr hm hx _ _ => rw [Code.run, Program.run, hr, hm, ← hx]
  | failure err x m hr hm hx => rw [Code.run, Program.run, hr, hm]

/-- where the code of a program leaves a machine with enough room, if the program succeeds -/
theorem run_load_code (p : Program) (limit : ℕ) (x : Execution) (h : p.need ≤ limit) (hx : p.run = .ok x) :
    ∃ m, Machine.run (Machine.load p.code limit) = .ok () m ∧ m.work.execution = x ∧ m.work.stack.isEmpty = true := by
  cases sameEnd_of_need_le p limit h with
  | done y m hr hm hy _ hempty =>
    rw [Program.run, hr] at hx
    cases hx
    exact ⟨m, hm, hy, hempty⟩
  | failure err y m hr hm hy =>
    rw [Program.run, hr] at hx
    cases hx

theorem run_error (p : Program) (r : RuntimeError) (h : p.run = .error r) :
    r ≠ .stackUnderflow ∧ ∀ limit, r ≠ .stackOverflow limit := by
  rw [Program.run] at h
  split at h
  · cases h
  · next err x hx =>
    cases h
    exact p.exec_error _ x r hx

/-! ## From program text -/

theorem isClean_of_ofText (text : String) (mode : InputMode) (p : Program) (h : Program.ofText text mode = .ok p) :
    ∀ i ∈ p.code, i.IsClean := by
  obtain ⟨hs, -⟩ := (ofTokens_eq_ok_iff _ _ p).1 h
  refine isClean_code p _ hs fun s hs => ?_
  obtain ⟨t, ht, rfl⟩ := List.mem_map.1 hs
  exact isWord_of_mem_tokenize text mode t ht

theorem need_of_ofText (text : String) (mode : InputMode) (p : Program) (h : Program.ofText text mode = .ok p) :
    p.need ≤ OperandStack.defaultLimit := by
  obtain ⟨-, hle⟩ := (ofTokens_eq_ok_iff _ _ p).1 h
  exact le_trans (p.need_le _ hle) (by decide)

/-- a program text that parses is compiled and run as its tree is run -/
theorem compileAndRun_of_ok (text : String) (mode : InputMode) (p : Program) (h : Program.ofText text mode = .ok p) :
    compileAndRun text mode = p.run.mapError .runtime := by
  have hasm : Code.assemble p.codeText .file = .ok p.code :=
    Code.assemble_render p.code (isClean_of_ofText text mode p h) .file
  calc compileAndRun text mode = assembleAndRun p.codeText .file := by rw [compileAndRun, h]
    _ = (Code.run p.code).mapError .runtime := by rw [assembleAndRun, hasm]
    _ = p.run.mapError .runtime := by rw [run_code_eq p (need_of_ofText text mode p h)]

/-- **End-to-end agreement.** Both paths report the same parse error, or compiling, assembling and running comes to what
the tree comes to: the same output and variables, or the same runtime error. No text of a parsed program is refused by
the assembler, and no such program exhausts the operand stack. Of a program text of 2^32 bytes or more, on which the
lexer may be stalled, this is about the tokens before that. -/
theorem compileAndRun_agrees (text : String) (mode : InputMode) :
    (∀ e, Program.ofText text mode = .error e → compileAndRun text mode = .error (.parse e)) ∧
    ∀ p, Program.ofText text mode = .ok p →
      compileAndRun text mode = p.run.mapError .runtime ∧
      (∀ e, compileAndRun text mode ≠ .error (.assemble e)) ∧
      compileAndRun text mode ≠ .error (.runtime .stackUnderflow) ∧
      ∀ limit, compileAndRun text mode ≠ .error (.runtime (.stackOverflow limit)) := by
  refine ⟨fun e he => by rw [compileAndRun, he], fun p hp => ?_⟩
  rw [compileAndRun_of_ok text mode p hp]
  refine ⟨rfl, ?_⟩
  cases hrun : p.run with
  | ok x => simp [Except.mapError]
  | error r =>
    obtain ⟨hunder, hover⟩ := run_error p r hrun
    exact ⟨fun e => by simp [Except.mapError], by simpa [Except.mapError] using hunder,
      fun limit => by simpa [Except.mapError] using hover limit⟩

end PolishCalc

/-
The program behind a code.

The code of a program loses nothing: it can be read back instruction by instruction. A `Bench` holds the actions that
are complete and the expressions that nothing has used yet. A value puts an expression on the bench, an operator takes
its operands off it and puts the operation on it, and the end of an action takes the only expression that is there.

- `Bench.read_code`, `Bench.readAll_code`: the code of what is on the bench is what was read so far;
- `Bench.readAll_exprCode`, `Bench.readAll_programCode`: the code of an expression puts that expression on the bench,
  the code of a program its actions;
- `Bench.read_depth`, `Bench.readAll_depth`: whether the reading goes through depends on the number of expressions
  only, which is what `Code.scan` counts;
- `program?_eq_some_iff`: so a code is read as a program exactly when it is the code of that program;
- `code_image`: the codes of programs are the disciplined codes, and no two programs share one.
-/
import Mathlib.Tactic
import PolishCalc.Compilation

namespace PolishCalc

/-! ## Discipline -/

/-- the depth after the instruction when it was `d` before; nothing when the instruction has no place there. An operator
needs its operands, and an action ends where there is one value and no other. -/
def Instruction.scan : Instruction → ℕ → Option ℕ
  | push _, d => some (d + 1)
  | load _, d => some (d + 1)
  | unary _, d => if 1 ≤ d then some d else none
  | binary _, d => if 2 ≤ d then some (d - 1) else none
  | print, d => if d = 1 then some 0 else none
  | store _, d => if d = 1 then some 0 else none

/-- the depth after all instructions; nothing when one of them has no place where it stands -/
def Code.scan : Code → ℕ → Option ℕ
  | [], d => some d
  | i :: c, d => (i.scan d).bind (Code.scan c)

/-- every instruction has its place, and no value is left at the end -/
def Code.IsDisciplined (c : Code) : Prop := c.scan 0 = some 0

/-! ## Reading back -/

/-- a program that is being read back: the complete actions, and the expressions not used yet, the latest first -/
structure Bench where
  actions : Program
  pending : List Expr
deriving DecidableEq, Repr

namespace Bench

/-- the instructions that make up what is on the bench -/
def code (b : Bench) : Code := b.actions.code ++ b.pending.reverse.flatMap Expr.code

/-- reads one more instruction; nothing when the expressions on the bench are not those that it needs -/
def read (b : Bench) (i : Instruction) : Option Bench :=
  match i, b.pending with
  | .push v, es => some ⟨b.actions, .const v :: es⟩
  | .load name, es => some ⟨b.actions, .var name :: es⟩
  | .unary op, e :: es => some ⟨b.actions, .unary op e :: es⟩
  | .binary op, r :: l :: es => some ⟨b.actions, .binary op l r :: es⟩
  | .print, [e] => some ⟨b.actions ++ [.print e], []⟩
  | .store name, [e] => some ⟨b.actions ++ [.assign name e], []⟩
  | _, _ => none

def readAll (b : Bench) : Code → Option Bench
  | [] => some b
  | i :: c => (b.read i).bind fun b => b.readAll c

theorem code_cons (p : Program) (e : Expr) (es : List Expr) : code ⟨p, e :: es⟩ = code ⟨p, es⟩ ++ e.code := by
  simp [code]

theorem code_concat (p : Program) (a : Action) : code ⟨p ++ [a], []⟩ = code ⟨p, []⟩ ++ a.code := by
  simp [code, Program.code]

/-- what is on the bench is what was read -/
theorem read_code (b b' : Bench) (i : Instruction) (h : b.read i = some b') : b'.code = b.code ++ [i] := by
  obtain ⟨p, es⟩ := b
  cases i with
  | push v =>
    cases h
    exact code_cons p (.const v) es
  | load name =>
    cases h
    exact code_cons p (.var name) es
  | unary op =>
    match es, h with
    | e :: es, rfl => rw [code_cons, code_cons, Expr.code, List.append_assoc]
  | binary op =>
    match es, h with
    | r :: l :: es, rfl => simp only [code_cons, Expr.code, List.append_assoc]
  | print =>
    match es, h with
    | [e], rfl => rw [code_concat, code_cons, Action.code, List.append_assoc]
  | store name =>
    match es, h with
    | [e], rfl => rw [code_concat, code_cons, Action.code, List.append_assoc]

theorem readAll_code (b b' : Bench) (c : Code) (h : b.readAll c = some b') : b'.code = b.code ++ c := by
  induction c generalizing b with
  | nil =>
    cases h
    rw [List.append_nil]
  | cons i c ih =>
    obtain ⟨mid, hi, hc⟩ := Option.bind_eq_some_iff.1 h
    rw [ih mid hc, read_code b mid i hi, List.append_assoc, List.singleton_append]

/-! ## Reading the code of a program -/

theorem readAll_append (b : Bench) (c d : Code) : b.readAll (c ++ d) = (b.readAll c).bind fun b => b.readAll d := by
  induction c generalizing b with
  | nil => rfl
  | cons i c ih => simp only [List.cons_append, readAll, ih, Option.bind_assoc]

/-- the code of an expression puts the expression on the bench -/
theorem readAll_exprCode (e : Expr) (p : Program) (es : List Expr) : readAll ⟨p, es⟩ e.code = some ⟨p, e :: es⟩ := by
  induction e generalizing es with
  | const v => rfl
  | var name => rfl
  | unary op e ih =>
    rw [Expr.code, readAll_append, ih]
    rfl
  | binary op l r ihl ihr =>
    -- the right operand is read with the left one on the bench, hence any `es`
    rw [Expr.code, readAll_append, ihl, Option.bind_some, readAll_append, ihr]
    rfl

theorem readAll_actionCode (a : Action) (p : Program) : readAll ⟨p, []⟩ a.code = some ⟨p ++ [a], []⟩ := by
  cases a with
  | assign name e =>
    rw [Action.code, readAll_append, readAll_exprCode]
    rfl
  | print e =>
    rw [Action.code, readAll_append, readAll_exprCode]
    rfl

/-- the code of a program adds its actions to those on the bench -/
theorem readAll_programCode (p q : Program) : readAll ⟨p, []⟩ (Program.code q) = some ⟨p ++ q, []⟩ := by
  induction q generalizing p with
  | nil => simp [Program.code, readAll]
  | cons a q ih =>
    have hcode : Program.code (a :: q) = a.code ++ Program.code q := List.flatMap_cons
    rw [hcode, readAll_append, readAll_actionCode, Option.bind_some, ih, List.append_assoc, List.singleton_append]

/-! ## The depth decides -/

/-- an instruction can be read exactly when it has a place at this depth, and the depth goes on as in the scan -/
theorem read_depth (b : Bench) (i : Instruction) :
    (b.read i).map (fun b => b.pending.length) = i.scan b.pending.length := by
  obtain ⟨p, es⟩ := b
  cases i with
  | push v => rfl
  | load name => rfl
  | unary op =>
    cases es with
    | nil => rfl
    | cons e es =>
      have h : 1 ≤ (e :: es).length := Nat.succ_pos es.length
      rw [Instruction.scan, if_pos h]
      rfl
  | binary op =>
    match es with
    | [] => rfl
    | [_] => rfl
    | r :: l :: es =>
      have h : 2 ≤ (r :: l :: es).length := Nat.le_add_left 2 es.length
      rw [Instruction.scan, if_pos h]
      rfl
  | print =>
    match es with
    | [] => rfl
    | [_] => rfl
    | e :: e' :: es =>
      have h : (e :: e' :: es).length ≠ 1 := Nat.succ_succ_ne_one es.length
      rw [Instruction.scan, if_neg h]
      rfl
  | store name =>
    match es with
    | [] => rfl
    | [_] => rfl
    | e :: e' :: es =>
      have h : (e :: e' :: es).length ≠ 1 := Nat.succ_succ_ne_one es.length
      rw [Instruction.scan, if_neg h]
      rfl

theorem readAll_depth (b : Bench) (c : Code) :
    (b.readAll c).map (fun b => b.pending.length) = c.scan b.pending.length := by
  induction c generalizing b with
  | nil => rfl
  | cons i c ih =>
    rw [readAll, Code.scan, ← read_depth, Option.map_bind, Option.bind_map]
    exact Option.bind_congr fun mid _ => ih mid

end Bench

/-- the program that has this code, if there is one -/
def Code.program? (c : Code) : Option Program :=
  match Bench.readAll ⟨[], []⟩ c with
  | some ⟨p, []⟩ => some p
  | _ => none

theorem program?_eq_some_iff (c : Code) (p : Program) : c.program? = some p ↔ p.code = c := by
  constructor
  · intro h
    unfold Code.program? at h
    split at h
    · next q hq =>
      cases h
      have hcode := Bench.readAll_code _ _ _ hq
      simpa [Bench.code, Program.code] using hcode
    · cases h
  · rintro rfl
    rw [Code.program?, Bench.readAll_programCode]
    rfl

theorem isSome_program?_iff (c : Code) : c.program?.isSome = true ↔ c.IsDisciplined := by
  have hdepth := Bench.readAll_depth ⟨[], []⟩ c
  rw [List.length_nil] at hdepth
  rw [Code.IsDisciplined, ← hdepth, Code.program?]
  split
  · next p hp => simp [hp]
  · next hno =>
    cases hb : Bench.readAll ⟨[], []⟩ c with
    | none => simp
    | some b =>
      obtain ⟨p, es⟩ := b
      cases es with
      | nil => exact absurd hb (hno p)
      | cons e es => simp

/-- **The codes of programs are the disciplined codes.** A code is that of some program exactly when, scanned from left
to right, every operator finds its operands, every action ends where there is one value and no other, and no value is
left at the end. The program is the one that is read back from the code, and there is no other. -/
theorem code_image :
    (∀ c : Code, (∃ p : Program, p.code = c) ↔ c.IsDisciplined) ∧
    (∀ (c : Code) (p : Program), p.code = c ↔ c.program? = some p) ∧
    Function.Injective Program.code := by
  refine ⟨fun c => ?_, fun c p => (program?_eq_some_iff c p).symm, fun p q h => ?_⟩
  · rw [← isSome_program?_iff, Option.isSome_iff_exists]
    exact exists_congr fun p => (program?_eq_some_iff c p).symm
  · have hp := (program?_eq_some_iff q.code p).2 h
    have hq := (program?_eq_some_iff q.code q).2 rfl
    exact Option.some.inj (hp.symm.trans hq)

/-- a print of `7 - x` behind an assignment, and the same code with the values printed one by one -/
example : Code.program? [.push 7, .store "x", .push 7, .load "x", .binary .sub, .print] =
      some [.assign "x" (.const 7), .print (.binary .sub (.const 7) (.var "x"))] ∧
    Code.program? [.push 7, .push 1, .print, .print] = none := by decide

end PolishCalc

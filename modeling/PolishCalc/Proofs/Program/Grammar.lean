/-
The grammar of programs, and that the parser reads exactly it.

A program is spelled action by action: an assignment as `=`, a name and an expression, a print as `@` and an expression.
An expression is spelled in prefix form, an operator before the spellings of its operands, the left one first. A value
has many spellings (`7`, `007`), everything else has one.

- `exprWithin_sound`, `Expr.Spelling.reads`: an expression is read off the front of the tokens exactly when these spell
  it and its operators nest no deeper than there is room;
- `ofTokens_eq_ok_iff`: the same for whole programs, with no token left over;
- `Program.Spelling.unique`: lexemes spell at most one program;
- `ofTokens_grammar`: both together.
-/
import Mathlib.Tactic
import PolishCalc.Proofs.Program.Descent

namespace PolishCalc

open Lexeme PolishCalc.Parser

/-! ## The grammar -/

/-- the largest number of operators on a path from the root to a leaf -/
def Expr.nesting : Expr → ℕ
  | const _ => 0
  | var _ => 0
  | unary _ e => e.nesting + 1
  | binary _ l r => max l.nesting r.nesting + 1

/-- the lexemes spell the expression -/
inductive Expr.Spelling : Expr → List String → Prop
  | const (v : Int32) (s : String) (h : Decimal.Denotes s v.toInt) : Spelling (.const v) [s]
  | var (name : String) (h : IsName name) : Spelling (.var name) [name]
  | unary (op : UnaryOp) (e : Expr) (u : List String) (h : Spelling e u) : Spelling (.unary op e) (op.symbol :: u)
  | binary (op : BinaryOp) (l r : Expr) (u w : List String) (hl : Spelling l u) (hr : Spelling r w) :
      Spelling (.binary op l r) (op.symbol :: (u ++ w))

inductive Action.Spelling : Action → List String → Prop
  | assign (name : String) (e : Expr) (u : List String) (hn : IsName name) (h : e.Spelling u) :
      Spelling (.assign name e) (assignMarker :: name :: u)
  | print (e : Expr) (u : List String) (h : e.Spelling u) : Spelling (.print e) (printMarker :: u)

inductive Program.Spelling : Program → List String → Prop
  | nil : Spelling [] []
  | cons (a : Action) (p : Program) (u w : List String) (ha : a.Spelling u) (hp : Spelling p w) :
      Spelling (a :: p) (u ++ w)

/-! ## What is read is spelled -/

theorem exprWithin_sound (limit room : ℕ) (ts rest : List Token) (e : Expr)
    (h : exprWithin limit room ts = .ok e rest) :
    ∃ pre, ts = pre ++ rest ∧ e.Spelling (pre.map Token.lexeme) ∧ e.nesting ≤ room := by
  -- each operator takes one level of the room, so the operands are read with less of it
  induction room using Nat.strong_induction_on generalizing ts rest e with
  | _ room ih =>
    cases ts with
    | nil => rw [exprWithin_nil] at h; cases h
    | cons t ts =>
      rcases class_cases t.lexeme with hm | ⟨op, ho⟩ | ⟨op, ho⟩ | hn | ⟨v, hv⟩ | ⟨hr, hi, hl⟩
      · rw [exprWithin_marker _ _ _ _ hm] at h; cases h
      · cases room with
        | zero => rw [exprWithin_unary_zero _ op _ _ ho] at h; cases h
        | succ room =>
          rw [exprWithin_unary _ _ op _ _ ho, bind_eq_ok_iff] at h
          obtain ⟨d, mid, hd, hret⟩ := h
          obtain ⟨pre, rfl, hs, hle⟩ := ih room (by omega) _ _ _ hd
          cases hret
          refine ⟨t :: pre, rfl, ?_, Nat.succ_le_succ hle⟩
          rw [List.map_cons, ho]
          exact .unary op d _ hs
      · cases room with
        | zero => rw [exprWithin_binary_zero _ op _ _ ho] at h; cases h
        | succ room =>
          rw [exprWithin_binary _ _ op _ _ ho, bind_eq_ok_iff] at h
          obtain ⟨l, mid, hl, hrest⟩ := h
          obtain ⟨r, mid', hr, hret⟩ := (bind_eq_ok_iff _ _ _ _ _).1 hrest
          obtain ⟨pre, rfl, hls, hlle⟩ := ih room (by omega) _ _ _ hl
          obtain ⟨pre', rfl, hrs, hrle⟩ := ih room (by omega) _ _ _ hr
          cases hret
          refine ⟨t :: (pre ++ pre'), by simp, ?_, Nat.succ_le_succ (max_le hlle hrle)⟩
          rw [List.map_cons, List.map_append, ho]
          exact .binary op l r _ _ hls hrs
      · rw [exprWithin_name _ _ _ _ hn] at h
        cases h
        exact ⟨[t], rfl, .var _ hn, Nat.zero_le _⟩
      · rw [exprWithin_literal _ _ v _ _ hv] at h
        cases h
        exact ⟨[t], rfl, .const v _ hv, Nat.zero_le _⟩
      · rw [exprWithin_illegal _ _ _ _ hr hi hl] at h; cases h

theorem action_sound (limit : ℕ) (ts rest : List Token) (a : Action) (h : action limit ts = .ok a rest) :
    ∃ pre, ts = pre ++ rest ∧ a.Spelling (pre.map Token.lexeme) ∧ a.expr.nesting ≤ limit := by
  cases ts with
  | nil => rw [action_nil] at h; cases h
  | cons t ts =>
    by_cases ha : t.lexeme = assignMarker
    · cases ts with
      | nil => rw [action_assign_nil _ _ ha] at h; cases h
      | cons target ts =>
        by_cases hn : IsName target.lexeme
        · rw [action_assign _ _ _ _ ha hn, bind_eq_ok_iff] at h
          obtain ⟨e, mid, he, hret⟩ := h
          obtain ⟨pre, rfl, hs, hle⟩ := exprWithin_sound _ _ _ _ _ he
          cases hret
          refine ⟨t :: target :: pre, rfl, ?_, hle⟩
          rw [List.map_cons, List.map_cons, ha]
          exact .assign _ e _ hn hs
        · rw [action_illegalTarget _ _ _ _ ha hn] at h; cases h
    · by_cases hp : t.lexeme = printMarker
      · rw [action_print _ _ _ hp, bind_eq_ok_iff] at h
        obtain ⟨e, mid, he, hret⟩ := h
        obtain ⟨pre, rfl, hs, hle⟩ := exprWithin_sound _ _ _ _ _ he
        cases hret
        refine ⟨t :: pre, rfl, ?_, hle⟩
        rw [List.map_cons, hp]
        exact .print e _ hs
      · rw [action_illegal _ _ _ ha hp] at h; cases h

theorem actionsAfter_sound (limit : ℕ) (acc : Array Action) (ts rest : List Token) (p : Program)
    (h : actionsAfter limit acc ts = .ok p rest) :
    ∃ q : Program, p = acc.toList ++ q ∧ q.Spelling (ts.map Token.lexeme) ∧ ∀ a ∈ q, a.expr.nesting ≤ limit := by
  fun_induction actionsAfter limit acc ts with
  | case1 acc =>
    cases h
    exact ⟨[], by simp, .nil, by simp⟩
  | case2 acc t ts a mid ha ih =>
    obtain ⟨q, hp, hs, hle⟩ := ih h
    obtain ⟨pre, hpre, has, hale⟩ := action_sound _ _ _ _ ha
    refine ⟨a :: q, by simp [hp], ?_, ?_⟩
    · rw [hpre, List.map_append]
      exact .cons a q _ _ has hs
    · simpa using ⟨hale, hle⟩
  | case3 acc t ts e mid he => cases h

/-! ## What is spelled is read -/

/-- **Completeness.** Tokens that spell an expression are read as it, whatever follows, if there is room for it. -/
theorem Expr.Spelling.reads (limit : ℕ) (e : Expr) (w : List String) (h : e.Spelling w) (room : ℕ)
    (hle : e.nesting ≤ room) (pre : List Token) (hpre : pre.map Token.lexeme = w) :
    Reads (exprWithin limit room) pre e := by
  -- over the spelling; the right operand is what follows the left one, so what follows must be arbitrary
  induction h generalizing room pre with
  | const v s hs =>
    obtain ⟨t, rfl, rfl⟩ := List.map_eq_singleton_iff.1 hpre
    exact fun post => exprWithin_literal _ _ v t post hs
  | var name hn =>
    obtain ⟨t, rfl, rfl⟩ := List.map_eq_singleton_iff.1 hpre
    exact fun post => exprWithin_name _ _ t post hn
  | unary op e u _ ih =>
    obtain ⟨t, pre, rfl, ht, hu⟩ := List.map_eq_cons_iff.1 hpre
    obtain ⟨room, rfl⟩ : ∃ k, room = k + 1 := ⟨room - 1, by simp only [nesting] at hle; omega⟩
    intro post
    have he := ih room (Nat.le_of_succ_le_succ hle) pre hu
    rw [List.cons_append, exprWithin_unary _ _ op _ _ ht, bind_of_ok _ _ _ _ _ (he post)]
    rfl
  | binary op l r u w _ _ ihl ihr =>
    obtain ⟨t, pre, rfl, ht, huw⟩ := List.map_eq_cons_iff.1 hpre
    obtain ⟨pre, pre', rfl, hu, hw⟩ := List.map_eq_append_iff.1 huw
    obtain ⟨room, rfl⟩ : ∃ k, room = k + 1 := ⟨room - 1, by simp only [nesting] at hle; omega⟩
    intro post
    obtain ⟨hlle, hrle⟩ := max_le_iff.1 (Nat.le_of_succ_le_succ hle)
    have hl := ihl room hlle pre hu
    have hr := ihr room hrle pre' hw
    rw [List.cons_append, List.append_assoc, exprWithin_binary _ _ op _ _ ht, bind_of_ok _ _ _ _ _ (hl _),
      bind_of_ok _ _ _ _ _ (hr post)]
    rfl

theorem Action.Spelling.reads (limit : ℕ) (a : Action) (w : List String) (h : a.Spelling w)
    (hle : a.expr.nesting ≤ limit) (pre : List Token) (hpre : pre.map Token.lexeme = w) :
    Reads (action limit) pre a := by
  intro post
  cases h with
  | assign name e u hn he =>
    obtain ⟨t, pre, rfl, ht, htail⟩ := List.map_eq_cons_iff.1 hpre
    obtain ⟨target, pre, rfl, rfl, hu⟩ := List.map_eq_cons_iff.1 htail
    have hread := he.reads limit e u limit hle pre hu
    rw [List.cons_append, List.cons_append, action_assign _ _ _ _ ht hn]
    exact bind_of_ok _ _ _ _ _ (hread post)
  | print e u he =>
    obtain ⟨t, pre, rfl, ht, hu⟩ := List.map_eq_cons_iff.1 hpre
    have hread := he.reads limit e u limit hle pre hu
    rw [List.cons_append, action_print _ _ _ ht]
    exact bind_of_ok _ _ _ _ _ (hread post)

theorem Program.Spelling.actionsAfter (limit : ℕ) (p : Program) (w : List String) (h : p.Spelling w)
    (hle : ∀ a ∈ p, a.expr.nesting ≤ limit) (ts : List Token) (hts : ts.map Token.lexeme = w) (acc : Array Action) :
    Parser.actionsAfter limit acc ts = .ok (acc.toList ++ p) [] := by
  induction h generalizing ts acc with
  | nil =>
    rw [List.map_eq_nil_iff.1 hts, actionsAfter_nil, List.append_nil]
  | cons a p u w ha _ ih =>
    obtain ⟨pre, post, rfl, hu, hw⟩ := List.map_eq_append_iff.1 hts
    have hread := ha.reads limit a u (hle a List.mem_cons_self) pre hu
    rw [actionsAfter_of_reads limit acc pre post a hread,
      ih (fun b hb => hle b (List.mem_cons_of_mem a hb)) post hw (acc.push a)]
    simp

/-! ## The parser and the grammar -/

theorem ofTokens_eq_ok_iff (limit : ℕ) (ts : List Token) (p : Program) :
    Program.ofTokens limit ts = .ok p ↔
      p.Spelling (ts.map Token.lexeme) ∧ ∀ a ∈ p, a.expr.nesting ≤ limit := by
  constructor
  · intro h
    obtain ⟨rest, hrun⟩ := (ofTokens_eq_ok_iff_run limit ts p).1 h
    obtain ⟨q, rfl, hs, hle⟩ := actionsAfter_sound limit #[] ts rest _ hrun
    exact ⟨hs, hle⟩
  · rintro ⟨hs, hle⟩
    exact (ofTokens_eq_ok_iff_run limit ts p).2 ⟨[], hs.actionsAfter limit p _ hle ts rfl #[]⟩

/-- a limit that the operators of the program stay within -/
def Program.nesting : Program → ℕ
  | [] => 0
  | a :: p => max a.expr.nesting (Program.nesting p)

theorem Program.nesting_le (p : Program) : ∀ a ∈ p, a.expr.nesting ≤ p.nesting := by
  induction p with
  | nil => simp
  | cons b p ih =>
    intro a ha
    rcases List.mem_cons.1 ha with rfl | ha
    · exact le_max_left _ _
    · exact le_trans (ih a ha) (le_max_right _ _)

/-- **The grammar is unambiguous.** Both programs are what the parser reads under a limit large enough for both. -/
theorem Program.Spelling.unique (p q : Program) (ts : List Token) (hp : p.Spelling (ts.map Token.lexeme))
    (hq : q.Spelling (ts.map Token.lexeme)) : p = q := by
  have h1 := (ofTokens_eq_ok_iff (max p.nesting q.nesting) ts p).2
    ⟨hp, fun a ha => le_trans (p.nesting_le a ha) (le_max_left _ _)⟩
  have h2 := (ofTokens_eq_ok_iff (max p.nesting q.nesting) ts q).2
    ⟨hq, fun a ha => le_trans (q.nesting_le a ha) (le_max_right _ _)⟩
  rw [h1] at h2
  cases h2
  rfl

/-- **The parser reads exactly the grammar.** Under any limit, the parser answers with a program exactly when the
lexemes of all the tokens, in order, spell that program and no operators of it nest deeper than the limit; and lexemes
spell at most one program. -/
theorem ofTokens_grammar (limit : ℕ) (ts : List Token) :
    (∀ p : Program, Program.ofTokens limit ts = .ok p ↔
      p.Spelling (ts.map Token.lexeme) ∧ ∀ a ∈ p, a.expr.nesting ≤ limit) ∧
    ∀ p q : Program, p.Spelling (ts.map Token.lexeme) → q.Spelling (ts.map Token.lexeme) → p = q :=
  ⟨ofTokens_eq_ok_iff limit ts, fun p q => Program.Spelling.unique p q ts⟩

end PolishCalc

/-
One step of the recursive descent, by the class of the next lexeme.

`exprWithin limit room` looks at the next token once. The equations here say what it does then: it fails on no token
and on a marker, goes down one level on an operator if there is room, and is done on a name or a literal.
`action limit` and `actionsAfter limit` get equations of the same kind. Nothing after this module unfolds the parsers.

`Reads p pre a` says that the parser takes exactly the tokens `pre`, whatever follows them.
- `actionsAfter_of_reads`: an action that is read from the front of the tokens is one more action of the program.
- `ofTokens_eq_ok_iff_run`, `ofTokens_eq_error_iff`: what tokens spell, by what the parser of actions answers.
-/
import Mathlib.Tactic
import PolishCalc.Control
import PolishCalc.Program.Parser
import PolishCalc.Proofs.Token.Lexeme

namespace PolishCalc.Parser

open Lexeme

/-! ## Expressions -/

theorem exprWithin_nil (limit room : ℕ) : exprWithin limit room [] = .error (.prematureEnd ["expression"]) [] := by
  rw [exprWithin]
  rfl

theorem exprWithin_marker (limit room : ℕ) (t : Token) (ts : List Token) (h : isMarker t.lexeme = true) :
    exprWithin limit room (t :: ts) = .error (.prematureEndAt t "expression") (t :: ts) := by
  rw [exprWithin]
  exact bind_of_error _ _ _ _ _ (by simp [exprHead, h])

theorem exprHead_of_not_marker (t : Token) (ts : List Token) (h : isMarker t.lexeme = false) :
    exprHead (t :: ts) = .ok t ts := by
  simp [exprHead, h]

theorem exprHead_unary (op : UnaryOp) (t : Token) (ts : List Token) (h : t.lexeme = op.symbol) :
    exprHead (t :: ts) = .ok t ts ∧ UnaryOp.ofSymbol? t.lexeme = some op := by
  refine ⟨exprHead_of_not_marker t ts ?_, (UnaryOp.ofSymbol?_eq_some_iff _ op).2 h⟩
  rw [h]
  cases op <;> decide

theorem exprHead_binary (op : BinaryOp) (t : Token) (ts : List Token) (h : t.lexeme = op.symbol) :
    exprHead (t :: ts) = .ok t ts ∧ UnaryOp.ofSymbol? t.lexeme = none ∧ BinaryOp.ofSymbol? t.lexeme = some op := by
  refine ⟨exprHead_of_not_marker t ts ?_, ?_, (BinaryOp.ofSymbol?_eq_some_iff _ op).2 h⟩ <;>
  · rw [h]
    cases op <;> decide

theorem exprWithin_unary_zero (limit : ℕ) (op : UnaryOp) (t : Token) (ts : List Token) (h : t.lexeme = op.symbol) :
    exprWithin limit 0 (t :: ts) = .error (.nestingLimitExceeded t limit) ts := by
  obtain ⟨hh, hu⟩ := exprHead_unary op t ts h
  rw [exprWithin, bind_of_ok _ _ _ _ _ hh, hu]
  rfl

theorem exprWithin_unary (limit room : ℕ) (op : UnaryOp) (t : Token) (ts : List Token) (h : t.lexeme = op.symbol) :
    exprWithin limit (room + 1) (t :: ts) = (exprWithin limit room >>= fun e => pure (Expr.unary op e)) ts := by
  obtain ⟨hh, hu⟩ := exprHead_unary op t ts h
  rw [exprWithin, bind_of_ok _ _ _ _ _ hh, hu]

theorem exprWithin_binary_zero (limit : ℕ) (op : BinaryOp) (t : Token) (ts : List Token) (h : t.lexeme = op.symbol) :
    exprWithin limit 0 (t :: ts) = .error (.nestingLimitExceeded t limit) ts := by
  obtain ⟨hh, hu, hb⟩ := exprHead_binary op t ts h
  rw [exprWithin, bind_of_ok _ _ _ _ _ hh, hu, hb]
  rfl

theorem exprWithin_binary (limit room : ℕ) (op : BinaryOp) (t : Token) (ts : List Token) (h : t.lexeme = op.symbol) :
    exprWithin limit (room + 1) (t :: ts) =
      (exprWithin limit room >>= fun l => exprWithin limit room >>= fun r => pure (Expr.binary op l r)) ts := by
  obtain ⟨hh, hu, hb⟩ := exprHead_binary op t ts h
  rw [exprWithin, bind_of_ok _ _ _ _ _ hh, hu, hb]

theorem exprWithin_name (limit room : ℕ) (t : Token) (ts : List Token) (h : IsName t.lexeme) :
    exprWithin limit room (t :: ts) = .ok (.var t.lexeme) ts := by
  obtain ⟨hm, hu, hb⟩ := not_reserved t.lexeme (not_reserved_of_isName _ h)
  rw [exprWithin, bind_of_ok _ _ _ _ _ (exprHead_of_not_marker t ts hm), hu, hb]
  simp only [(isIdentifier_iff _).2 h]
  rfl

theorem exprWithin_literal (limit room : ℕ) (v : Int32) (t : Token) (ts : List Token)
    (h : Decimal.Denotes t.lexeme v.toInt) : exprWithin limit room (t :: ts) = .ok (.const v) ts := by
  obtain ⟨hm, hu, hb⟩ := not_reserved t.lexeme (not_reserved_of_denotes _ v h)
  rw [exprWithin, bind_of_ok _ _ _ _ _ (exprHead_of_not_marker t ts hm), hu, hb]
  simp only [isIdentifier_of_denotes _ _ h, (literal?_eq_some_iff _ v).2 h]
  rfl

theorem exprWithin_illegal (limit room : ℕ) (t : Token) (ts : List Token) (h : t.lexeme ∉ reserved)
    (hi : isIdentifier t.lexeme = false) (hl : literal? t.lexeme = none) :
    exprWithin limit room (t :: ts) = .error (.illegalOperator t) ts := by
  obtain ⟨hm, hu, hb⟩ := not_reserved t.lexeme h
  rw [exprWithin, bind_of_ok _ _ _ _ _ (exprHead_of_not_marker t ts hm), hu, hb]
  simp only [hi, hl]
  rfl

/-! ## Actions -/

theorem expect_cons (label : String) (t : Token) (ts : List Token) : expect label (t :: ts) = .ok t ts := rfl

theorem action_nil (limit : ℕ) : action limit [] = .error (.prematureEnd ["action"]) [] := rfl

theorem action_assign_nil (limit : ℕ) (t : Token) (h : t.lexeme = assignMarker) :
    action limit [t] = .error (.prematureEnd ["assignment target"]) [] := by
  rw [action, bind_of_ok _ _ _ _ _ (expect_cons _ _ _), if_pos h]
  rfl

theorem action_assign (limit : ℕ) (t target : Token) (ts : List Token) (h : t.lexeme = assignMarker)
    (hn : IsName target.lexeme) :
    action limit (t :: target :: ts) = (expr limit >>= fun e => pure (Action.assign target.lexeme e)) ts := by
  rw [action, bind_of_ok _ _ _ _ _ (expect_cons _ _ _), if_pos h, bind_of_ok _ _ _ _ _ (expect_cons _ _ _),
    if_pos ((isIdentifier_iff _).2 hn)]

theorem action_illegalTarget (limit : ℕ) (t target : Token) (ts : List Token) (h : t.lexeme = assignMarker)
    (hn : ¬ IsName target.lexeme) : action limit (t :: target :: ts) = .error (.illegalTarget target) ts := by
  rw [action, bind_of_ok _ _ _ _ _ (expect_cons _ _ _), if_pos h, bind_of_ok _ _ _ _ _ (expect_cons _ _ _),
    if_neg fun hi => hn ((isIdentifier_iff _).1 hi)]
  rfl

theorem action_print (limit : ℕ) (t : Token) (ts : List Token) (h : t.lexeme = printMarker) :
    action limit (t :: ts) = (expr limit >>= fun e => pure (Action.print e)) ts := by
  have ha : t.lexeme ≠ assignMarker := by rw [h]; decide
  rw [action, bind_of_ok _ _ _ _ _ (expect_cons _ _ _), if_neg ha, if_pos h]

theorem action_illegal (limit : ℕ) (t : Token) (ts : List Token) (ha : t.lexeme ≠ assignMarker)
    (hp : t.lexeme ≠ printMarker) : action limit (t :: ts) = .error (.illegalAction t) ts := by
  rw [action, bind_of_ok _ _ _ _ _ (expect_cons _ _ _), if_neg ha, if_neg hp]
  rfl

/-! ## Programs -/

theorem actionsAfter_nil (limit : ℕ) (acc : Array Action) : actionsAfter limit acc [] = .ok acc.toList [] := by
  rw [actionsAfter]

theorem actionsAfter_cons (limit : ℕ) (acc : Array Action) (t : Token) (ts : List Token) :
    actionsAfter limit acc (t :: ts) =
      match action limit (t :: ts) with
      | .ok a rest => actionsAfter limit (acc.push a) rest
      | .error e rest => .error e rest := by
  rw [actionsAfter]
  split
  · next h => rw [h]
  · next h => rw [h]

theorem actionsAfter_of_ok (limit : ℕ) (acc : Array Action) (ts rest : List Token) (a : Action)
    (h : action limit ts = .ok a rest) : actionsAfter limit acc ts = actionsAfter limit (acc.push a) rest := by
  cases ts with
  | nil => cases h
  | cons t ts => rw [actionsAfter_cons, h]

theorem actionsAfter_of_error (limit : ℕ) (acc : Array Action) (t : Token) (ts rest : List Token) (e : ParseError)
    (h : action limit (t :: ts) = .error e rest) : actionsAfter limit acc (t :: ts) = .error e rest := by
  rw [actionsAfter_cons, h]

/-! ## Parsers that read a block of tokens -/

/-- takes exactly the tokens `pre` for `a`, whatever follows them -/
def Reads {α : Type} (p : Parser α) (pre : List Token) (a : α) : Prop := ∀ post, p (pre ++ post) = .ok a post

theorem Reads.bind {α β : Type} (p : Parser α) (f : α → Parser β) (pre mid : List Token) (a : α) (b : β)
    (hp : Reads p pre a) (hf : Reads (f a) mid b) : Reads (p >>= f) (pre ++ mid) b := by
  intro post
  rw [List.append_assoc, bind_of_ok _ _ _ _ _ (hp (mid ++ post))]
  exact hf post

theorem actionsAfter_of_reads (limit : ℕ) (acc : Array Action) (pre post : List Token) (a : Action)
    (h : Reads (action limit) pre a) :
    actionsAfter limit acc (pre ++ post) = actionsAfter limit (acc.push a) post :=
  actionsAfter_of_ok limit acc (pre ++ post) post a (h post)

end PolishCalc.Parser

namespace PolishCalc

open PolishCalc.Parser

/-! ## What tokens spell -/

theorem ofTokens_eq_ok_iff_run (limit : ℕ) (ts : List Token) (p : Program) :
    Program.ofTokens limit ts = .ok p ↔ ∃ rest, actionsAfter limit #[] ts = .ok p rest := by
  rw [Program.ofTokens, Parser.program]
  cases actionsAfter limit #[] ts with
  | ok q rest => simp
  | error e rest => simp

theorem ofTokens_eq_error_iff (limit : ℕ) (ts : List Token) (e : ParseError) :
    Program.ofTokens limit ts = .error e ↔ ∃ rest, actionsAfter limit #[] ts = .error e rest := by
  rw [Program.ofTokens, Parser.program]
  cases actionsAfter limit #[] ts with
  | ok p rest => simp
  | error e' rest => simp

end PolishCalc

/-
A parser that asks for the classes in another order.

`exprWithin` asks of the first token whether it is a marker, a unary operator, a binary operator, an identifier, a
literal, in this order. `exprAsking order` is a parser that asks in the order of its argument.

- `dispatch_of_branch`: the first "yes" is the only one, wherever it comes;
- `exprAsking_eq`: in every order that leaves no question out, the parser is `exprWithin`;
- `classes_exact`: what literals are, that no lexeme is in two classes, and that the order is of no consequence.
-/
import Mathlib.Tactic
import PolishCalc.Proofs.Program.Descent

namespace PolishCalc.Parser

open Lexeme

/-! ## Asking in another order -/

/-- what the parser does with the tokens after `t` if `t` is in the class; `below` parses an operand, and is `none`
where operators nest too deep for one -/
def branch (limit : ℕ) (below : Option (Parser Expr)) (t : Token) : Kind → Option (Parser Expr)
  | .marker =>
    if isMarker t.lexeme then some fun ts => .error (.prematureEndAt t "expression") (t :: ts) else none
  | .unary =>
    (UnaryOp.ofSymbol? t.lexeme).map fun op =>
      match below with
      | none => throw (.nestingLimitExceeded t limit)
      | some p => return .unary op (← p)
  | .binary =>
    (BinaryOp.ofSymbol? t.lexeme).map fun op =>
      match below with
      | none => throw (.nestingLimitExceeded t limit)
      | some p => do
        let l ← p
        let r ← p
        return .binary op l r
  | .identifier => if isIdentifier t.lexeme then some (pure (.var t.lexeme)) else none
  | .literal => (literal? t.lexeme).map fun v => pure (.const v)

/-- takes the branch of the first class in the order that the next token is in -/
def dispatch (order : List Kind) (limit : ℕ) (below : Option (Parser Expr)) : Parser Expr
  | [] => .error (.prematureEnd ["expression"]) []
  | t :: ts =>
    match order.findSome? (branch limit below t) with
    | some p => p ts
    | none => .error (.illegalOperator t) ts

/-- parses an expression in which operators nest at most `room` deep, and asks for the classes in the given order -/
def exprAsking (order : List Kind) (limit : ℕ) : ℕ → Parser Expr
  | 0 => dispatch order limit none
  | room + 1 => dispatch order limit (some (exprAsking order limit room))

/-! ## The order is of no consequence -/

theorem isSome_branch (limit : ℕ) (below : Option (Parser Expr)) (t : Token) (c : Kind) :
    (branch limit below t c).isSome = c.has t.lexeme := by
  cases c with
  | marker =>
    unfold branch Kind.has
    cases isMarker t.lexeme <;> rfl
  | unary => simp [branch, Kind.has]
  | binary => simp [branch, Kind.has]
  | identifier =>
    unfold branch Kind.has
    cases isIdentifier t.lexeme <;> rfl
  | literal => simp [branch, Kind.has]

theorem dispatch_of_findSome? (order : List Kind) (limit : ℕ) (below : Option (Parser Expr)) (t : Token)
    (ts : List Token) (p : Parser Expr) (h : order.findSome? (branch limit below t) = some p) :
    dispatch order limit below (t :: ts) = p ts := by
  rw [dispatch, h]

/-- the first "yes" is the only one, wherever it comes -/
theorem dispatch_of_branch (order : List Kind) (limit : ℕ) (below : Option (Parser Expr)) (t : Token)
    (ts : List Token) (c : Kind) (p : Parser Expr) (hc : c ∈ order) (hp : branch limit below t c = some p) :
    dispatch order limit below (t :: ts) = p ts := by
  cases hf : order.findSome? (branch limit below t) with
  | none =>
    rw [List.findSome?_eq_none_iff.1 hf c hc] at hp
    cases hp
  | some q =>
    obtain ⟨d, -, hd⟩ := List.exists_of_findSome?_eq_some hf
    have has : ∀ (e : Kind) (r : Parser Expr), branch limit below t e = some r → e.has t.lexeme = true := by
      intro e r he
      rw [← isSome_branch limit below, he]
      rfl
    obtain rfl := class_unique t.lexeme c d (has c p hp) (has d q hd)
    rw [hp] at hd
    cases hd
    exact dispatch_of_findSome? order limit below t ts p hf

theorem dispatch_of_none (order : List Kind) (limit : ℕ) (below : Option (Parser Expr)) (t : Token)
    (ts : List Token) (h : ∀ c : Kind, c.has t.lexeme = false) :
    dispatch order limit below (t :: ts) = .error (.illegalOperator t) ts := by
  have hnone : order.findSome? (branch limit below t) = none := by
    rw [List.findSome?_eq_none_iff]
    intro c _
    rw [← Option.not_isSome_iff_eq_none, isSome_branch, h c]
    exact Bool.false_ne_true
  rw [dispatch, hnone]

/-- one level of the descent, if the operands are parsed as they are -/
theorem dispatch_eq (order : List Kind) (limit room : ℕ) (below : Option (Parser Expr)) (horder : ∀ c, c ∈ order)
    (hbelow : below = match room with | 0 => none | room + 1 => some (exprWithin limit room)) :
    dispatch order limit below = exprWithin limit room := by
  funext ts
  cases ts with
  | nil => rw [exprWithin_nil, dispatch]
  | cons t ts =>
    have asked : ∀ (c : Kind) (p : Parser Expr), branch limit below t c = some p →
        dispatch order limit below (t :: ts) = p ts := fun c p hp =>
      dispatch_of_branch order limit below t ts c p (horder c) hp
    rcases class_cases t.lexeme with hm | ⟨op, hop⟩ | ⟨op, hop⟩ | hn | ⟨v, hv⟩ | ⟨hr, hi, hl⟩
    · rw [exprWithin_marker limit room t ts hm, asked .marker _ (if_pos hm)]
    · have hu := (UnaryOp.ofSymbol?_eq_some_iff _ op).2 hop
      cases room with
      | zero =>
        subst hbelow
        rw [exprWithin_unary_zero limit op t ts hop, asked .unary _ (by rw [branch, hu]; rfl)]
        rfl
      | succ room =>
        subst hbelow
        rw [exprWithin_unary limit room op t ts hop, asked .unary _ (by rw [branch, hu]; rfl)]
    · have hb := (BinaryOp.ofSymbol?_eq_some_iff _ op).2 hop
      cases room with
      | zero =>
        subst hbelow
        rw [exprWithin_binary_zero limit op t ts hop, asked .binary _ (by rw [branch, hb]; rfl)]
        rfl
      | succ room =>
        subst hbelow
        rw [exprWithin_binary limit room op t ts hop, asked .binary _ (by rw [branch, hb]; rfl)]
    · rw [exprWithin_name limit room t ts hn, asked .identifier _ (if_pos ((isIdentifier_iff _).2 hn))]
      rfl
    · have hl := (literal?_eq_some_iff _ v).2 hv
      rw [exprWithin_literal limit room v t ts hv, asked .literal _ (by rw [branch, hl]; rfl)]
      rfl
    · rw [exprWithin_illegal limit room t ts hr hi hl, dispatch_of_none]
      intro c
      cases hc : c.has t.lexeme with
      | false => rfl
      | true =>
        rcases has_of_not_reserved _ c hr hc with ⟨-, hi'⟩ | ⟨rfl, -⟩
        · exact absurd (hi.symm.trans hi') (by decide)
        · simp [Kind.has, hl] at hc

/-- **Any order.** In every order that leaves no question out, the parser is the one that asks in the usual order. -/
theorem exprAsking_eq (order : List Kind) (limit room : ℕ) (h : ∀ c, c ∈ order) :
    exprAsking order limit room = exprWithin limit room := by
  induction room with
  | zero => exact dispatch_eq order limit 0 _ h rfl
  | succ room ih =>
    unfold exprAsking
    exact dispatch_eq order limit (room + 1) _ h (by rw [ih])

end PolishCalc.Parser

namespace PolishCalc

open PolishCalc.Lexeme

/-- **Classes of lexemes.** A lexeme is read as a literal exactly if it is a numeral of an integer in range, and as that
integer. Every 32-bit value is read back from its numeral. No lexeme is in two of the five classes, and a parser of
expressions that asks for them in any order is the parser that asks in the usual one. -/
theorem classes_exact (s : String) :
    (∀ n : ℤ, (literal? s).map Int32.toInt = some n ↔ Decimal.Denotes s n ∧ -2 ^ 31 ≤ n ∧ n ≤ 2 ^ 31 - 1) ∧
    (∀ v, literal? (Decimal.ofInt32 v) = some v) ∧
    (∀ c d : Kind, c.has s = true → d.has s = true → c = d) ∧
    (∀ order : List Kind, (∀ c, c ∈ order) → ∀ limit room,
      Parser.exprAsking order limit room = Parser.exprWithin limit room) := by
  refine ⟨fun n => ?_, fun v => ?_, class_unique s, fun order h limit room => Parser.exprAsking_eq order limit room h⟩
  · constructor
    · intro h
      obtain ⟨v, hv, rfl⟩ := Option.map_eq_some_iff.1 h
      have hhi := v.toInt_lt
      exact ⟨(literal?_eq_some_iff s v).1 hv, v.le_toInt, by omega⟩
    · rintro ⟨hs, hlo, hhi⟩
      have hn : (Int32.ofInt n).toInt = n := Int32.toInt_ofInt_of_le hlo (by omega)
      rw [(literal?_eq_some_iff s (Int32.ofInt n)).2 (by rwa [hn]), Option.map_some, hn]
  · exact (literal?_eq_some_iff _ v).2 (Decimal.denotes_ofInt32 v)

end PolishCalc

/-
The classes of lexemes, and that no lexeme is in two of them.

A parser asks of a lexeme, in this order: is it an action marker, a unary operator, a binary operator, an identifier, a
literal? The lemmas here say what each answer means and that each "yes" comes with a "no" to all other questions, so
the order is of no consequence.

- `isIdentifier_iff`, `literal?_eq_some_iff`, `isMarker_iff`, `ofSymbol?_eq_some_iff`: what the answers mean;
- `class_cases`: every lexeme is a marker, an operator symbol, an identifier, a literal or none of these;
- `class_unique`: no lexeme is in two classes.
-/
import Mathlib.Tactic
import PolishCalc.Operator
import PolishCalc.Proofs.Decimal
import PolishCalc.Token.Basic

namespace PolishCalc

theorem UnaryOp.ofSymbol?_eq_some_iff (s : String) (op : UnaryOp) : UnaryOp.ofSymbol? s = some op ↔ s = op.symbol := by
  constructor
  · intro h
    have hs := List.find?_some h
    rw [beq_iff_eq] at hs
    exact hs.symm
  · rintro rfl
    exact UnaryOp.ofSymbol?_symbol op

theorem BinaryOp.ofSymbol?_eq_some_iff (s : String) (op : BinaryOp) :
    BinaryOp.ofSymbol? s = some op ↔ s = op.symbol := by
  constructor
  · intro h
    have hs := List.find?_some h
    rw [beq_iff_eq] at hs
    exact hs.symm
  · rintro rfl
    exact BinaryOp.ofSymbol?_symbol op

namespace Lexeme

/-- the lexeme starts with an ASCII letter -/
def IsName (s : String) : Prop := ∃ c l, s.toList = c :: l ∧ c.isAlpha = true

theorem isIdentifier_iff (s : String) : isIdentifier s = true ↔ IsName s := by
  unfold isIdentifier IsName
  split
  · next hs => simp [hs]
  · next c l hs => simp [hs]

theorem literal?_eq_some_iff (s : String) (v : Int32) : literal? s = some v ↔ Decimal.Denotes s v.toInt :=
  Decimal.read?_eq_some_iff s v

theorem isMarker_iff (s : String) : isMarker s = true ↔ s = assignMarker ∨ s = printMarker := by
  simp [isMarker]

/-! ## No lexeme is in two classes -/

/-- the lexemes with a meaning of their own: the markers and the operator symbols -/
def reserved : List String :=
  [assignMarker, printMarker] ++ UnaryOp.all.map UnaryOp.symbol ++ BinaryOp.all.map BinaryOp.symbol

theorem reserved_not_value (s : String) (h : s ∈ reserved) : isIdentifier s = false ∧ literal? s = none := by
  have all : ∀ s ∈ reserved, isIdentifier s = false ∧ literal? s = none := by decide
  exact all s h

theorem symbol_mem_reserved (op : UnaryOp) : op.symbol ∈ reserved := by cases op <;> decide

theorem symbol_mem_reserved' (op : BinaryOp) : op.symbol ∈ reserved := by cases op <;> decide

/-- a lexeme that is no marker and no operator symbol gets a "no" to the first three questions -/
theorem not_reserved (s : String) (h : s ∉ reserved) :
    isMarker s = false ∧ UnaryOp.ofSymbol? s = none ∧ BinaryOp.ofSymbol? s = none := by
  refine ⟨?_, ?_, ?_⟩
  · rw [Bool.eq_false_iff, ne_eq, isMarker_iff]
    rintro (rfl | rfl) <;> exact h (by decide)
  · rw [Option.eq_none_iff_forall_ne_some]
    intro op hop
    exact h ((UnaryOp.ofSymbol?_eq_some_iff s op).1 hop ▸ symbol_mem_reserved op)
  · rw [Option.eq_none_iff_forall_ne_some]
    intro op hop
    exact h ((BinaryOp.ofSymbol?_eq_some_iff s op).1 hop ▸ symbol_mem_reserved' op)

theorem not_reserved_of_isName (s : String) (h : IsName s) : s ∉ reserved := by
  intro hs
  rw [← isIdentifier_iff, (reserved_not_value s hs).1] at h
  exact absurd h (by decide)

theorem not_reserved_of_denotes (s : String) (v : Int32) (h : Decimal.Denotes s v.toInt) : s ∉ reserved := by
  intro hs
  rw [← literal?_eq_some_iff, (reserved_not_value s hs).2] at h
  exact absurd h (by simp)

theorem isAlpha_of_isDigit (c : Char) (h : c.isDigit = true) : c.isAlpha = false := by
  obtain ⟨-, h9⟩ := Char.isDigit_iff_toNat.1 h
  rw [Bool.eq_false_iff]
  intro ha
  -- the first letter comes after the last digit
  have hA : 'A'.toNat ≤ c.toNat := by
    rcases Bool.or_eq_true_iff.1 ha with hu | hl
    · exact UInt32.le_iff_toNat_le.1 (of_decide_eq_true hu).1
    · have hle := of_decide_eq_true (Bool.and_eq_true_iff.1 hl).1
      exact le_trans (by decide) (UInt32.le_iff_toNat_le.1 hle)
  exact absurd (hA.trans h9) (by decide)

theorem isIdentifier_of_denotes (s : String) (n : ℤ) (h : Decimal.Denotes s n) : isIdentifier s = false := by
  obtain ⟨l, hne, hd, ⟨hs, -⟩ | ⟨hs, -⟩⟩ := h
  · obtain ⟨c, l, rfl⟩ := List.exists_cons_of_ne_nil hne
    simp only [isIdentifier, hs]
    exact isAlpha_of_isDigit c (hd c List.mem_cons_self)
  · simp [isIdentifier, hs]

inductive Kind where
  | marker
  | unary
  | binary
  | identifier
  | literal
deriving DecidableEq

def Kind.all : List Kind := [marker, unary, binary, identifier, literal]

/-- the answer to the question whether the lexeme is in the class -/
def Kind.has (s : String) : Kind → Bool
  | marker => isMarker s
  | unary => (UnaryOp.ofSymbol? s).isSome
  | binary => (BinaryOp.ofSymbol? s).isSome
  | identifier => isIdentifier s
  | literal => (literal? s).isSome

theorem has_of_not_reserved (s : String) (c : Kind) (h : s ∉ reserved) (hc : c.has s = true) :
    c = .identifier ∧ isIdentifier s = true ∨ c = .literal ∧ isIdentifier s = false := by
  obtain ⟨hm, hu, hb⟩ := not_reserved s h
  cases c with
  | marker => simp [Kind.has, hm] at hc
  | unary => simp [Kind.has, hu] at hc
  | binary => simp [Kind.has, hb] at hc
  | identifier => exact Or.inl ⟨rfl, hc⟩
  | literal =>
    obtain ⟨v, hv⟩ := Option.isSome_iff_exists.1 hc
    exact Or.inr ⟨rfl, isIdentifier_of_denotes s v.toInt ((literal?_eq_some_iff s v).1 hv)⟩

/-- **One class at most.** No lexeme is in two classes. -/
theorem class_unique (s : String) (c d : Kind) (hc : c.has s = true) (hd : d.has s = true) : c = d := by
  by_cases hr : s ∈ reserved
  · have all : ∀ s ∈ reserved, ∀ c ∈ Kind.all, ∀ d ∈ Kind.all, c.has s = true → d.has s = true → c = d := by decide
    exact all s hr c (by cases c <;> decide) d (by cases d <;> decide) hc hd
  · rcases has_of_not_reserved s c hr hc with ⟨rfl, hi⟩ | ⟨rfl, hi⟩ <;>
    rcases has_of_not_reserved s d hr hd with ⟨rfl, hj⟩ | ⟨rfl, hj⟩
    · rfl
    · exact absurd (hi.symm.trans hj) (by decide)
    · exact absurd (hi.symm.trans hj) (by decide)
    · rfl

/-- every lexeme is a marker, an operator symbol, an identifier, a literal or none of these -/
theorem class_cases (s : String) :
    isMarker s = true ∨ (∃ op : UnaryOp, s = op.symbol) ∨ (∃ op : BinaryOp, s = op.symbol) ∨ IsName s ∨
      (∃ v : Int32, Decimal.Denotes s v.toInt) ∨ (s ∉ reserved ∧ isIdentifier s = false ∧ literal? s = none) := by
  by_cases hr : s ∈ reserved
  · have all : ∀ s ∈ reserved, isMarker s = true ∨ (∃ op ∈ UnaryOp.all, s = op.symbol) ∨
        ∃ op ∈ BinaryOp.all, s = op.symbol := by decide
    rcases all s hr with h | ⟨op, -, h⟩ | ⟨op, -, h⟩
    · exact Or.inl h
    · exact Or.inr (Or.inl ⟨op, h⟩)
    · exact Or.inr (Or.inr (Or.inl ⟨op, h⟩))
  · refine Or.inr (Or.inr (Or.inr ?_))
    cases hi : isIdentifier s with
    | true => exact Or.inl ((isIdentifier_iff s).1 hi)
    | false =>
      right
      cases hl : literal? s with
      | some v => exact Or.inl ⟨v, (literal?_eq_some_iff s v).1 hl⟩
      | none => exact Or.inr ⟨hr, rfl, rfl⟩

end Lexeme

end PolishCalc

/-
Arithmetic against the integers.

The operators work on 32-bit values; what they are to compute is said over the integers. `WrapsTo n v`: the value `v` is
what is left of the exact result `n` in 32 bits. `Truncates a b q r`: a quotient truncated toward zero, and its
remainder. `FloorSqrt a r`: a square root rounded down.

- `BinaryOp.apply_wraps`: a binary operator fails on a zero divisor or returns its exact result, wrapped around;
- `toInt_div`: the quotient is exact but for the least value by -1;
- `sqrt_floor`: the square root is exact up to the largest value, although `(r + 1) * (r + 1)` is out of range there;
- `arithmetic_exact`: all seven operators on all operands.
-/
import Mathlib.Tactic
import PolishCalc.Operator

namespace PolishCalc

/-! ## What the operators are to compute -/

/-- the one value in range that is congruent to an exact result modulo `2 ^ 32` -/
def WrapsTo (n : ℤ) (v : Int32) : Prop :=
  v.toInt ≡ n [ZMOD 2 ^ 32] ∧ ∀ m : ℤ, -2 ^ 31 ≤ m → m ≤ 2 ^ 31 - 1 → m ≡ n [ZMOD 2 ^ 32] → m = v.toInt

/-- `a` divided by `b` is `q`, truncated toward zero, and leaves `r` -/
def Truncates (a b q r : ℤ) : Prop := a = q * b + r ∧ |r| < |b| ∧ (r = 0 ∨ r.sign = a.sign)

/-- `r` is the square root of `a`, rounded down -/
def FloorSqrt (a r : ℤ) : Prop := 0 ≤ r ∧ r * r ≤ a ∧ a < (r + 1) * (r + 1)

/-- the result over the integers -/
def BinaryOp.exact : BinaryOp → ℤ → ℤ → ℤ
  | .add, a, b => a + b
  | .sub, a, b => a - b
  | .mul, a, b => a * b
  | .div, a, b => a.tdiv b
  | .mod, a, b => a.tmod b

/-! ## Wrapping around -/

theorem wrapsTo_of_bmod (n : ℤ) (v : Int32) (h : v.toInt = n.bmod (2 ^ 32)) : WrapsTo n v := by
  have hv : v.toInt ≡ n [ZMOD 2 ^ 32] := by
    rw [h]
    exact Int.bmod_emod
  refine ⟨hv, fun m hlo hhi hm => ?_⟩
  -- two values in range are less than the modulus apart
  have hlo' := v.le_toInt
  have hhi' := v.toInt_lt
  have hmod : m % 2 ^ 32 = v.toInt % 2 ^ 32 := hm.trans hv.symm
  omega

/-- **Wrapping around.** A binary operator whose divisor is not zero returns its exact result, wrapped around. -/
theorem BinaryOp.apply_exact (op : BinaryOp) (a b : Int32) (h : op = .div ∨ op = .mod → b ≠ 0) :
    ∃ v, op.apply a b = .ok v ∧ v.toInt = (op.exact a.toInt b.toInt).bmod (2 ^ 32) := by
  cases op with
  | add => exact ⟨a + b, rfl, Int32.toInt_add a b⟩
  | sub => exact ⟨a - b, rfl, Int32.toInt_sub a b⟩
  | mul => exact ⟨a * b, rfl, Int32.toInt_mul a b⟩
  | div => exact ⟨a / b, if_neg (h (Or.inl rfl)), Int32.toInt_div a b⟩
  | mod =>
    have hself : (a % b).toInt = (a % b).toInt.bmod (2 ^ 32) := (Int32.toInt_bmod_size (a % b)).symm
    exact ⟨a % b, if_neg (h (Or.inr rfl)), hself.trans (by rw [Int32.toInt_mod]; rfl)⟩

theorem BinaryOp.apply_wraps (op : BinaryOp) (a b : Int32) (h : op = .div ∨ op = .mod → b ≠ 0) :
    ∃ v, op.apply a b = .ok v ∧ WrapsTo (op.exact a.toInt b.toInt) v := by
  obtain ⟨v, hv, hn⟩ := BinaryOp.apply_exact op a b h
  exact ⟨v, hv, wrapsTo_of_bmod _ v hn⟩

/-! ## Quotient and remainder -/

theorem truncates_tdiv (a b : ℤ) (hb : b ≠ 0) : Truncates a b (a.tdiv b) (a.tmod b) := by
  refine ⟨(Int.tdiv_mul_add_tmod a b).symm, ?_, ?_⟩
  · rw [Int.abs_eq_natAbs, Int.abs_eq_natAbs, Int.natAbs_tmod]
    exact_mod_cast Nat.mod_lt _ (Int.natAbs_pos.2 hb)
  · rw [← Int.sign_eq_zero_iff_zero, Int.sign_tmod]
    by_cases hd : b ∣ a
    · exact Or.inl (if_pos hd)
    · exact Or.inr (if_neg hd)

/-- the quotient is exact but for the least value by -1, whose quotient is out of range -/
theorem toInt_div (a b : Int32) :
    (a / b).toInt = if a.toInt = -2 ^ 31 ∧ b.toInt = -1 then -2 ^ 31 else a.toInt.tdiv b.toInt := by
  split
  · next h =>
    rw [Int32.toInt_div, h.1, h.2]
    decide
  · next h =>
    rcases not_and_or.1 h with ha | hb
    · exact Int32.toInt_div_of_ne_left a b fun hmin => ha (by rw [hmin]; rfl)
    · exact Int32.toInt_div_of_ne_right a b fun hone => hb (by rw [hone]; rfl)

/-! ## Square roots -/

theorem floorSqrt_sqrt (n : ℕ) : FloorSqrt n n.sqrt := by
  refine ⟨Int.natCast_nonneg _, ?_, ?_⟩
  · exact_mod_cast Nat.sqrt_le n
  · exact_mod_cast Nat.lt_succ_sqrt n

/-- **Square roots.** The square root of a value that is not negative is exact, rounded down. -/
theorem UnaryOp.sqrt_floor (a : Int32) (h : 0 ≤ a.toInt) :
    ∃ r, UnaryOp.sqrt.apply a = .ok r ∧ FloorSqrt a.toInt r.toInt := by
  have hneg : ¬ a < 0 := by
    rw [Int32.lt_iff_toInt_lt]
    exact not_lt.2 h
  have hlt : a.toInt.toNat.sqrt < 2 ^ 31 := by
    have hle := Nat.sqrt_le_self a.toInt.toNat
    have hmax := a.toInt_lt
    omega
  refine ⟨_, if_neg hneg, ?_⟩
  rw [Int32.toInt_ofNat_of_lt hlt]
  have hcast : (a.toInt.toNat : ℤ) = a.toInt := Int.toNat_of_nonneg h
  exact hcast ▸ floorSqrt_sqrt a.toInt.toNat

/-! ## All operators -/

/-- **Arithmetic.** On all 32-bit operands, sums, differences, products and negation are the exact results wrapped
around. Division and remainder fail exactly on a zero divisor; else the quotient is truncated toward zero and the
remainder fits it, but for the least value by -1, where the quotient wraps around and nothing remains. The square root
fails exactly on a negative operand and is rounded down otherwise. -/
theorem arithmetic_exact (a b : Int32) :
    (∃ v, BinaryOp.add.apply a b = .ok v ∧ WrapsTo (a.toInt + b.toInt) v) ∧
    (∃ v, BinaryOp.sub.apply a b = .ok v ∧ WrapsTo (a.toInt - b.toInt) v) ∧
    (∃ v, BinaryOp.mul.apply a b = .ok v ∧ WrapsTo (a.toInt * b.toInt) v) ∧
    (∃ v, UnaryOp.negate.apply a = .ok v ∧ WrapsTo (-a.toInt) v) ∧
    (∀ e, BinaryOp.div.apply a b = .error e ↔ b.toInt = 0 ∧ e = .divideByZero) ∧
    (∀ e, BinaryOp.mod.apply a b = .error e ↔ b.toInt = 0 ∧ e = .divideByZero) ∧
    (b.toInt ≠ 0 → ∃ q r, BinaryOp.div.apply a b = .ok q ∧ BinaryOp.mod.apply a b = .ok r ∧
      if a.toInt = -2 ^ 31 ∧ b.toInt = -1 then q.toInt = -2 ^ 31 ∧ r.toInt = 0
      else Truncates a.toInt b.toInt q.toInt r.toInt) ∧
    (∀ e, UnaryOp.sqrt.apply a = .error e ↔ a.toInt < 0 ∧ e = .negativeSquareRoot a) ∧
    (0 ≤ a.toInt → ∃ r, UnaryOp.sqrt.apply a = .ok r ∧ FloorSqrt a.toInt r.toInt) := by
  have hzero : b = 0 ↔ b.toInt = 0 := by rw [← Int32.toInt_inj]; rfl
  refine ⟨?_, ?_, ?_, ?_, fun e => ?_, fun e => ?_, fun hb => ?_, fun e => ?_, UnaryOp.sqrt_floor a⟩
  · exact BinaryOp.apply_wraps .add a b (by simp)
  · exact BinaryOp.apply_wraps .sub a b (by simp)
  · exact BinaryOp.apply_wraps .mul a b (by simp)
  · exact ⟨-a, rfl, wrapsTo_of_bmod _ _ (Int32.toInt_neg a)⟩
  · rw [BinaryOp.apply_eq_error_iff, hzero]
    simp
  · rw [BinaryOp.apply_eq_error_iff, hzero]
    simp
  · have hb' : b ≠ 0 := fun h => hb (hzero.1 h)
    refine ⟨a / b, a % b, if_neg hb', if_neg hb', ?_⟩
    rw [toInt_div, Int32.toInt_mod]
    split
    · next h =>
      rw [h.1, h.2]
      decide
    · exact truncates_tdiv a.toInt b.toInt hb
  · rw [UnaryOp.apply_eq_error_iff, Int32.lt_iff_toInt_lt]
    simp

end PolishCalc

/-
Decimal numerals of 32-bit values.

A value is written without leading zeros, a negative one with a minus sign in front. Reading is more generous: leading
zeros are skipped and `-0` is zero, but there is no plus sign, and a numeral outside the 32-bit range is refused.

- `magnitude_eq_min`: `magnitude` is the value of the digits, cut off at a bound so that a long numeral stays small.
-/

namespace PolishCalc.Decimal

def ofInt32 (v : Int32) : String := v.toInt.repr

/-- the value of a run of digits, cut off at `bound` -/
def magnitude (bound : Nat) (l : List Char) : Nat :=
  l.foldl (fun n c => min bound (10 * n + (c.toNat - '0'.toNat))) 0

theorem magnitude_eq_min (bound : Nat) (l : List Char) : magnitude bound l = min bound (Nat.ofDigitChars 10 l 0) := by
  have h : ∀ (l : List Char) (n : Nat),
      l.foldl (fun n c => min bound (10 * n + (c.toNat - '0'.toNat))) (min bound n) =
        min bound (Nat.ofDigitChars 10 l n) := by
    intro l
    induction l with
    | nil => intro n; rfl
    | cons c l ih =>
      intro n
      rw [List.foldl_cons, Nat.ofDigitChars_cons, ← ih]
      congr 1
      omega
  have h0 := h l 0
  rwa [Nat.min_eq_right (Nat.zero_le bound)] at h0

/-- a run of at least one ASCII digit -/
def isDigits (l : List Char) : Bool := !l.isEmpty && l.all Char.isDigit

/-- the 32-bit value of a numeral: digits, after a minus sign or without one, in range -/
def read? (s : String) : Option Int32 :=
  match s.toList with
  | '-' :: l =>
    let m := magnitude (0x80000001) l
    if isDigits l && m ≤ 0x80000000 then some (Int32.ofInt (-(m : Int))) else none
  | l =>
    let m := magnitude (0x80000001) l
    if isDigits l && m < 0x80000000 then some (Int32.ofInt m) else none

example : (read? "-007", read? "2147483648", read? "+5", read? "-") = (some (-7), none, none, none) := by decide

end PolishCalc.Decimal

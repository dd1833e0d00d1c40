/-
Numerals: what they denote, and that reading and writing agree with it.

`Denotes s n` says that the text `s` is a numeral of the integer `n`: at least one ASCII digit, behind a single minus
sign or behind none. Leading zeros are allowed, and `n` is unbounded.

- `read?_eq_some_iff`: a value is read off a text exactly when the text is a numeral of that value. A numeral of an
  integer outside the 32-bit range is read as no value at all.
- `denotes_ofInt32`: a value is written as one of its numerals.
-/
import Mathlib.Tactic
import PolishCalc.Decimal

namespace PolishCalc.Decimal

/-- the text is a numeral of the integer -/
def Denotes (s : String) (n : ℤ) : Prop :=
  ∃ l : List Char, l ≠ [] ∧ (∀ c ∈ l, c.isDigit = true) ∧
    (s.toList = l ∧ n = (Nat.ofDigitChars 10 l 0 : ℕ) ∨ s.toList = '-' :: l ∧ n = -(Nat.ofDigitChars 10 l 0 : ℕ))

theorem isDigits_iff (l : List Char) : isDigits l = true ↔ l ≠ [] ∧ ∀ c ∈ l, c.isDigit = true := by
  simp [isDigits]

theorem toInt_eq_of_ofInt (n : ℤ) (v : Int32) (hv : Int32.ofInt n = v) (h : -2 ^ 31 ≤ n) (h' : n < 2 ^ 31) :
    v.toInt = n := by
  rw [← hv, Int32.toInt_ofInt_of_le h h']

theorem ofInt_eq_of_toInt (n : ℤ) (v : Int32) (hv : v.toInt = n) : Int32.ofInt n = v := by
  rw [← hv, Int32.ofInt_toInt]

/-- **Reading.** A value is read off exactly the numerals of that value. -/
theorem read?_eq_some_iff (s : String) (v : Int32) : read? s = some v ↔ Denotes s v.toInt := by
  have hlo := v.le_toInt
  have hhi := v.toInt_lt
  unfold read? Denotes
  split
  · next l hs =>
    simp only [magnitude_eq_min, Option.ite_none_right_eq_some, Bool.and_eq_true, isDigits_iff, decide_eq_true_eq,
      Option.some.injEq, hs]
    constructor
    · rintro ⟨⟨⟨hne, hd⟩, hm⟩, hv⟩
      rw [Nat.min_eq_right (by omega)] at hv
      exact ⟨l, hne, hd, Or.inr ⟨rfl, toInt_eq_of_ofInt _ v hv (by omega) (by omega)⟩⟩
    · rintro ⟨d, hne, hd, ⟨hl, -⟩ | ⟨hl, hv⟩⟩
      · -- the minus sign would have to be a digit
        have hmem : '-' ∈ d := by rw [← hl]; exact List.mem_cons_self
        exact absurd (hd _ hmem) (by decide)
      · cases hl
        refine ⟨⟨⟨hne, hd⟩, by omega⟩, ?_⟩
        rw [Nat.min_eq_right (by omega)]
        exact ofInt_eq_of_toInt _ v hv
  · next l hs =>
    simp only [magnitude_eq_min, Option.ite_none_right_eq_some, Bool.and_eq_true, isDigits_iff, decide_eq_true_eq,
      Option.some.injEq]
    constructor
    · rintro ⟨⟨⟨hne, hd⟩, hm⟩, hv⟩
      rw [Nat.min_eq_right (by omega)] at hv
      exact ⟨s.toList, hne, hd, Or.inl ⟨rfl, toInt_eq_of_ofInt _ v hv (by omega) (by omega)⟩⟩
    · rintro ⟨d, hne, hd, ⟨rfl, hv⟩ | ⟨hl, -⟩⟩
      · refine ⟨⟨⟨hne, hd⟩, by omega⟩, ?_⟩
        rw [Nat.min_eq_right (by omega)]
        exact ofInt_eq_of_toInt _ v hv
      · exact absurd hl (hs d)

/-- **Writing.** A value is written as one of its numerals. -/
theorem denotes_ofInt32 (v : Int32) : Denotes (ofInt32 v) v.toInt := by
  have digits : ∀ n : ℕ, Nat.toDigits 10 n ≠ [] ∧ ∀ c ∈ Nat.toDigits 10 n, c.isDigit = true := fun n =>
    ⟨Nat.toDigits_ne_nil, fun c hc => Nat.isDigit_of_mem_toDigits (by decide) (by decide) hc⟩
  unfold ofInt32 Denotes
  cases v.toInt with
  | ofNat n =>
    refine ⟨Nat.toDigits 10 n, (digits n).1, (digits n).2, Or.inl ⟨Nat.toList_repr, ?_⟩⟩
    rw [Nat.ofDigitChars_ten_toDigits]
    rfl
  | negSucc n =>
    refine ⟨Nat.toDigits 10 (n + 1), (digits _).1, (digits _).2, Or.inr ⟨?_, ?_⟩⟩
    · simp [Int.repr]
    · rw [Nat.ofDigitChars_ten_toDigits]
      omega

end PolishCalc.Decimal

/-
Words: what a lexeme of a text looks like.

- `isWord_iff`: whether a string is a word can be evaluated;
- `isWord_of_mem_tokenize`: every lexeme of a text has a character, and no separator among its characters;
- `isWord_ofInt32`: so has the numeral of a value.
-/
import Mathlib.Tactic
import PolishCalc.Proofs.Token.Lexeme
import PolishCalc.Token.Lexer

namespace PolishCalc

open Text

namespace Lexeme

/-- at least one character, and no separator -/
def IsWord (s : String) : Prop := s.toList ≠ [] ∧ ∀ c ∈ s.toList, isSeparator c = false

theorem isWord_iff (s : String) : IsWord s ↔ s.toList ≠ [] ∧ s.toList.all (fun c => !isSeparator c) = true := by
  simp [IsWord]

-- by the characters of the word, since a search over all characters would be too long
instance (s : String) : Decidable (IsWord s) := decidable_of_iff _ (isWord_iff s).symm

/-- a name that is a word -/
def IsClean (s : String) : Prop := IsName s ∧ ∀ c ∈ s.toList, isSeparator c = false

theorem IsClean.isWord (s : String) (h : IsClean s) : IsWord s := by
  obtain ⟨⟨c, l, hs, -⟩, hsep⟩ := h
  exact ⟨by simp [hs], hsep⟩

theorem isSeparator_of_isDigit (c : Char) (h : c.isDigit = true) : isSeparator c = false := by
  rw [Bool.eq_false_iff]
  intro hc
  simp only [isSeparator, Bool.or_eq_true, beq_iff_eq] at hc
  rcases hc with (((rfl | rfl) | rfl) | rfl) | rfl <;> exact absurd h (by decide)

theorem isWord_ofInt32 (v : Int32) : IsWord (Decimal.ofInt32 v) := by
  obtain ⟨l, hne, hd, ⟨hs, -⟩ | ⟨hs, -⟩⟩ := Decimal.denotes_ofInt32 v
  · exact ⟨by simpa [hs] using hne, fun c hc => isSeparator_of_isDigit c (hd c (hs ▸ hc))⟩
  · refine ⟨by simp [hs], fun c hc => ?_⟩
    rw [hs] at hc
    rcases List.mem_cons.1 hc with rfl | hc
    · decide
    · exact isSeparator_of_isDigit c (hd c hc)

end Lexeme

theorem Lexer.collect_of_token (acc : Array Token) (lx after : Lexer) (t : Token) (h : lx.next = .token t after) :
    lx.collect acc = after.collect (acc.push t) := by
  rw [collect]
  split
  · next h' =>
    cases h.symm.trans h'
    rfl
  · next h' => cases h.symm.trans h'
  · next h' => cases h.symm.trans h'

theorem Lexer.collect_of_finished (acc : Array Token) (lx after : Lexer) (h : lx.next = .finished after) :
    lx.collect acc = acc.toList := by
  rw [collect]
  split
  · next h' => cases h.symm.trans h'
  · rfl
  · rfl

theorem isWord_of_next (lx after : Lexer) (t : Token) (h : lx.next = .token t after) : Lexeme.IsWord t.lexeme := by
  fun_induction Lexer.next lx with
  | case1 => cases h
  | case2 => cases h
  | case3 => cases h
  | case4 lx hopen hterm c r hr hs hm ih => exact ih h
  | case5 => cases h
  | case6 => cases h
  | case7 lx hopen hterm c r hr hs k hk =>
    cases h
    simp only [Lexeme.IsWord, String.toList_ofList, Cursor.word, hr]
    refine ⟨by simp [hs], fun d hd => ?_⟩
    simpa using List.all_eq_true.1 List.all_takeWhile d hd

theorem isWord_of_mem_collect (acc : Array Token) (lx : Lexer) (h : ∀ t ∈ acc, Lexeme.IsWord t.lexeme) :
    ∀ t ∈ Lexer.collect acc lx, Lexeme.IsWord t.lexeme := by
  fun_induction Lexer.collect acc lx with
  | case1 acc lx t after hnext ih =>
    refine ih fun u hu => ?_
    rcases Array.mem_push.1 hu with hu | rfl
    · exact h u hu
    · exact isWord_of_next lx after _ hnext
  | case2 acc lx after hnext => simpa using h
  | case3 acc lx hnext => simpa using h

theorem isWord_of_mem_tokenize (text : String) (mode : InputMode) (t : Token) (h : t ∈ tokenize text mode) :
    Lexeme.IsWord t.lexeme :=
  isWord_of_mem_collect #[] _ (by simp) t h

end PolishCalc

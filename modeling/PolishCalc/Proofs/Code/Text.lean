/-
Instruction text keeps the instructions.

An instruction is written as its fields, a mnemonic and perhaps an operand, with a space between them. A line of text
is read back field by field, so nothing is lost as long as no operand breaks up into other fields or lines. Only the
name of a variable could: `Instruction.IsClean` asks of it what a name in a program text has anyway.

- `ofLine_display`: the text of a clean instruction is read back as that instruction;
- `assemble_render`: the text of clean instructions is read back as these instructions, in either mode;
- `isClean_of_assemble`: what any text spells is clean, since an operand is one of its words;
- `assemble_render_iff`: so instructions are read back from their text if and only if they are clean.
-/
import Mathlib.Data.List.TakeWhile
import Mathlib.Tactic
import PolishCalc.Code.Assembly
import PolishCalc.Proofs.Text.Terminator
import PolishCalc.Proofs.Token.Words

namespace PolishCalc

open Text

namespace Instruction

def operand? : Instruction → Option String
  | push v => some (Decimal.ofInt32 v)
  | load name => some name
  | store name => some name
  | _ => none

def fields (i : Instruction) : List String := i.mnemonic :: i.operand?.toList

/-- no name in the instruction could be taken for anything but one operand -/
def IsClean : Instruction → Prop
  | load name => Lexeme.IsClean name
  | store name => Lexeme.IsClean name
  | _ => True

theorem mnemonic_mem (i : Instruction) : i.mnemonic ∈ mnemonics := by
  cases i with
  | unary op => cases op <;> decide
  | binary op => cases op <;> decide
  | _ => simp [mnemonics, mnemonic, operandFree]

theorem isWord_mnemonic (i : Instruction) : Lexeme.IsWord i.mnemonic := by
  have all : ∀ s ∈ mnemonics, Lexeme.IsWord s := by decide
  exact all _ i.mnemonic_mem

theorem isWord_operand (i : Instruction) (h : i.IsClean) (w : String) (hw : i.operand? = some w) :
    Lexeme.IsWord w := by
  cases i with
  | push v => cases hw; exact Lexeme.isWord_ofInt32 v
  | load name => cases hw; exact Lexeme.IsClean.isWord _ h
  | store name => cases hw; exact Lexeme.IsClean.isWord _ h
  | _ => cases hw

theorem display_of_operand (i : Instruction) (w : String) (h : i.operand? = some w) :
    i.display.toList = i.mnemonic.toList ++ ' ' :: w.toList := by
  cases i <;> cases h <;> simp [display, mnemonic]

theorem display_of_no_operand (i : Instruction) (h : i.operand? = none) : i.display = i.mnemonic := by
  cases i <;> first | rfl | cases h

theorem words_display (i : Instruction) (h : i.IsClean) : words i.display.toList = i.fields.map String.toList := by
  have hm := isWord_mnemonic i
  cases ho : i.operand? with
  | none =>
    rw [display_of_no_operand i ho, words_eq_singleton _ hm.1 hm.2]
    simp [fields, ho]
  | some w =>
    have hw := isWord_operand i h w ho
    rw [display_of_operand i w ho, words_append_separator _ _ ' ' rfl, words_eq_singleton _ hm.1 hm.2,
      words_eq_singleton _ hw.1 hw.2]
    simp [fields, ho]

theorem name?_of_isClean (name : String) (h : Lexeme.IsClean name) : name? name = some name :=
  if_pos ((Lexeme.isIdentifier_iff name).2 h.1)

theorem readWords_fields (i : Instruction) (h : i.IsClean) (line : ℕ) :
    readWords line i.mnemonic i.operand?.toList = .ok (i, []) := by
  have free : ∀ i ∈ operandFree, i.mnemonic ≠ "PUSH" ∧ i.mnemonic ≠ "LOAD" ∧ i.mnemonic ≠ "STORE" := by decide
  have hfree : ∀ i ∈ operandFree, readWords line i.mnemonic [] = .ok (i, []) := fun i hi => by
    obtain ⟨hp, hl, hs⟩ := free i hi
    rw [readWords, if_neg hp, if_neg hl, if_neg hs, operandFree?_mnemonic i hi]
  cases i with
  | push v =>
    have hv : Lexeme.literal? (Decimal.ofInt32 v) = some v :=
      (Lexeme.literal?_eq_some_iff _ v).2 (Decimal.denotes_ofInt32 v)
    simp [readWords, mnemonic, operand?, readOperand, hv]
  | load name =>
    simp [readWords, mnemonic, operand?, readOperand, name?_of_isClean name h]
  | store name =>
    simp [readWords, mnemonic, operand?, readOperand, name?_of_isClean name h]
  | unary op => exact hfree _ (by cases op <;> decide)
  | binary op => exact hfree _ (by cases op <;> decide)
  | print => exact hfree _ (by decide)

theorem ofWords_fields (i : Instruction) (h : i.IsClean) (line : ℕ) : ofWords line i.fields = .ok (some i) := by
  rw [fields, ofWords, readWords_fields i h line]
  rfl

/-- the text of a clean instruction is read back as that instruction -/
theorem ofLine_display (i : Instruction) (h : i.IsClean) (line : ℕ) : ofLine i.display.toList line = .ok (some i) := by
  rw [ofLine, words_display i h, List.map_map]
  simp only [Function.comp_def, String.ofList_toList, List.map_id']
  exact ofWords_fields i h line

/-! ## The text of an instruction is one line -/

theorem eq_space_of_mem_display (i : Instruction) (h : i.IsClean) (c : Char) (hc : c ∈ i.display.toList)
    (hs : isSeparator c = true) : c = ' ' := by
  have hm := (isWord_mnemonic i).2
  have hno : ∀ l : List Char, (∀ c ∈ l, isSeparator c = false) → c ∉ l := fun l hl hcl => by
    rw [hl c hcl] at hs
    cases hs
  cases ho : i.operand? with
  | none =>
    rw [display_of_no_operand i ho] at hc
    exact absurd hc (hno _ hm)
  | some w =>
    rw [display_of_operand i w ho, List.mem_append, List.mem_cons] at hc
    rcases hc with hc | hc | hc
    · exact absurd hc (hno _ hm)
    · exact hc
    · exact absurd hc (hno _ (isWord_operand i h w ho).2)

theorem display_no_line_end (i : Instruction) (h : i.IsClean) :
    '\n' ∉ i.display.toList ∧ i.display.toList.getLast? ≠ some '\r' := by
  constructor
  · intro hc
    exact absurd (eq_space_of_mem_display i h '\n' hc rfl) (by decide)
  · intro hc
    exact absurd (eq_space_of_mem_display i h '\r' (List.mem_of_getLast? hc) rfl) (by decide)

theorem display_head (i : Instruction) :
    ∃ c l, i.display.toList = c :: l ∧ isWhiteSpace c = false ∧ c ≠ '.' := by
  have all : ∀ s ∈ mnemonics, s.toList.head?.all (fun c => !isWhiteSpace c && c != '.') = true := by decide
  have hhead := all _ i.mnemonic_mem
  obtain ⟨c, l, hm⟩ := List.exists_cons_of_ne_nil (isWord_mnemonic i).1
  obtain ⟨hw, hdot⟩ : isWhiteSpace c = false ∧ c ≠ '.' := by simpa [hm] using hhead
  cases ho : i.operand? with
  | none => exact ⟨c, l, by rw [display_of_no_operand i ho, hm], hw, hdot⟩
  | some w => exact ⟨c, _, by rw [display_of_operand i w ho, hm, List.cons_append], hw, hdot⟩

theorem endsAt_display (i : Instruction) (mode : InputMode) : mode.endsAt i.display.toList = false := by
  obtain ⟨c, l, hd, hw, hdot⟩ := display_head i
  rw [InputMode.endsAt, hd, isTerminatorLine_cons c l hw hdot, Bool.and_false]

end Instruction

/-! ## Whole codes -/

namespace Code

theorem lines_render (c : Code) (h : ∀ i ∈ c, i.IsClean) :
    lines c.render.toList = c.map fun i => i.display.toList := by
  have htext : c.render.toList = (c.map fun i => i.display.toList).flatMap fun l => l ++ ['\n'] := by
    simp [render, String.toList_join, List.flatMap_map]
  rw [htext, lines, linesWith_flatMap]
  intro l hl
  obtain ⟨i, hi, rfl⟩ := List.mem_map.1 hl
  exact i.display_no_line_end (h i hi)

theorem assembleAfter_display (c : Code) (h : ∀ i ∈ c, i.IsClean) (n : ℕ) (acc : Array Instruction) :
    assembleAfter acc ((c.map fun i => i.display.toList).zipIdx n) = .ok (acc.toList ++ c) := by
  induction c generalizing n acc with
  | nil => simp [assembleAfter]
  | cons i c ih =>
    rw [List.map_cons, List.zipIdx_cons, assembleAfter, i.ofLine_display (h i List.mem_cons_self)]
    simp only
    rw [ih fun j hj => h j (List.mem_cons_of_mem i hj)]
    simp

/-- the text of clean instructions is read back as these instructions -/
theorem assemble_render (c : Code) (h : ∀ i ∈ c, i.IsClean) (mode : InputMode) : assemble c.render mode = .ok c := by
  have hall : (c.map fun i => i.display.toList).takeWhile (fun l => !mode.endsAt l) =
      c.map fun i => i.display.toList := by
    rw [List.takeWhile_eq_self_iff]
    intro l hl
    obtain ⟨i, -, rfl⟩ := List.mem_map.1 hl
    simp [i.endsAt_display mode]
  rw [assemble, sourceLines, lines_render c h, hall, assembleAfter_display c h]
  simp

end Code

/-! ## What is read is clean -/

namespace Instruction

theorem isClean_of_mem_operandFree (i : Instruction) (h : i ∈ operandFree) : i.IsClean := by
  simp only [operandFree, List.mem_append, List.mem_map, List.mem_singleton] at h
  rcases h with (⟨op, -, rfl⟩ | ⟨op, -, rfl⟩) | rfl <;> trivial

theorem isClean_of_name? (w name : String) (h : name? w = some name) (hw : ∀ c ∈ w.toList, isSeparator c = false) :
    Lexeme.IsClean name := by
  obtain ⟨hid, hname⟩ := Option.ite_none_right_eq_some.1 h
  cases hname
  exact ⟨(Lexeme.isIdentifier_iff w).1 hid, hw⟩

/-- an operand is read from the first word, and the instruction is made of it -/
theorem map_readOperand_eq_ok {α : Type} (read? : String → Option α) (f : α → Instruction) (line : ℕ)
    (mnemonic : String) (ws rest : List String) (i : Instruction)
    (h : (do return (← readOperand read? line mnemonic ws).map f id) = Except.ok (i, rest)) :
    ∃ w a, ws = w :: rest ∧ read? w = some a ∧ i = f a := by
  cases ws with
  | nil => cases h
  | cons w ws =>
    cases hr : read? w with
    | none => simp [readOperand, hr, bind, Except.bind] at h
    | some a =>
      simp only [readOperand, hr, bind, Except.bind, pure, Except.pure, Prod.map, Except.ok.injEq, Prod.mk.injEq] at h
      exact ⟨w, a, by rw [← h.2]; rfl, hr, h.1.symm⟩

theorem isClean_of_readWords (line : ℕ) (mnemonic : String) (ws rest : List String) (i : Instruction)
    (hws : ∀ w ∈ ws, ∀ c ∈ w.toList, isSeparator c = false) (h : readWords line mnemonic ws = .ok (i, rest)) :
    i.IsClean := by
  unfold readWords at h
  split_ifs at h
  · obtain ⟨w, v, -, -, rfl⟩ := map_readOperand_eq_ok _ _ _ _ _ _ _ h
    trivial
  · obtain ⟨w, name, rfl, hname, rfl⟩ := map_readOperand_eq_ok _ _ _ _ _ _ _ h
    exact isClean_of_name? w name hname (hws w List.mem_cons_self)
  · obtain ⟨w, name, rfl, hname, rfl⟩ := map_readOperand_eq_ok _ _ _ _ _ _ _ h
    exact isClean_of_name? w name hname (hws w List.mem_cons_self)
  · split at h
    · next j hj =>
      cases h
      exact isClean_of_mem_operandFree _ (List.mem_of_find?_eq_some hj)
    · cases h

theorem isClean_of_ofLine (text : List Char) (line : ℕ) (i : Instruction) (h : ofLine text line = .ok (some i)) :
    i.IsClean := by
  have hwords : ∀ w ∈ (words text).map String.ofList, ∀ c ∈ w.toList, isSeparator c = false := by
    intro w hw
    obtain ⟨l, hl, rfl⟩ := List.mem_map.1 hw
    rw [String.toList_ofList]
    exact not_isSeparator_of_mem_words text l hl
  unfold ofLine ofWords at h
  split at h
  · cases h
  · next mnemonic ws hsplit =>
    rw [hsplit] at hwords
    cases hr : readWords line mnemonic ws with
    | error e => simp [hr, bind, Except.bind] at h
    | ok r =>
      obtain ⟨j, rest⟩ := r
      have hj := isClean_of_readWords line mnemonic ws rest j (fun w hw => hwords w (List.mem_cons_of_mem _ hw)) hr
      cases rest with
      | nil =>
        simp only [hr, bind, Except.bind, pure, Except.pure, Except.ok.injEq, Option.some.injEq] at h
        rwa [← h]
      | cons extra rest =>
        rw [hr] at h
        cases h

end Instruction

namespace Code

theorem isClean_of_assembleAfter (acc : Array Instruction) (ls : List (List Char × ℕ)) (c : Code)
    (hacc : ∀ i ∈ acc, i.IsClean) (h : assembleAfter acc ls = .ok c) : ∀ i ∈ c, i.IsClean := by
  fun_induction assembleAfter acc ls with
  | case1 acc =>
    cases h
    simpa using hacc
  | case2 acc text line rest _ ih => exact ih hacc h
  | case3 acc text line rest i hi ih =>
    refine ih (fun j hj => ?_) h
    rcases Array.mem_push.1 hj with hj | rfl
    · exact hacc j hj
    · exact Instruction.isClean_of_ofLine text line _ hi
  | case4 => cases h

/-- what a text spells is clean -/
theorem isClean_of_assemble (text : String) (mode : InputMode) (c : Code) (h : assemble text mode = .ok c) :
    ∀ i ∈ c, i.IsClean :=
  isClean_of_assembleAfter #[] _ c (by simp) h

/-- **Instruction text, both ways.** Instructions are read back from their text exactly when their names are clean, and
every text that spells instructions spells clean ones: they are read back from their own text, in either mode. -/
theorem assemble_render_iff :
    (∀ (c : Code) (mode : InputMode), assemble c.render mode = .ok c ↔ ∀ i ∈ c, i.IsClean) ∧
    ∀ (text : String) (mode : InputMode) (c : Code), assemble text mode = .ok c →
      (∀ i ∈ c, i.IsClean) ∧ ∀ mode', assemble c.render mode' = .ok c := by
  constructor
  · intro c mode
    exact ⟨isClean_of_assemble c.render mode c, fun h => assemble_render c h mode⟩
  · intro text mode c h
    have hc := isClean_of_assemble text mode c h
    exact ⟨hc, fun mode' => assemble_render c hc mode'⟩

/-- the second part at a text with blank lines, a return, a leading zero and a terminator line -/
theorem assemble_render_again :
    assemble "\n PUSH  007\r\n\x0cSTORE xé\n . \nJUNK" .interactive = .ok [.push 7, .store "xé"] ∧
    assemble (render [.push 7, .store "xé"]) .file = .ok [.push 7, .store "xé"] := by
  have h : assemble "\n PUSH  007\r\n\x0cSTORE xé\n . \nJUNK" .interactive = .ok [.push 7, .store "xé"] := by
    decide +kernel
  exact ⟨h, (assemble_render_iff.2 _ _ _ h).2 .file⟩

end Code

end PolishCalc

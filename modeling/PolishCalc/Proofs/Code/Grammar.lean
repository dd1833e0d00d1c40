/-
The grammar of instruction text, and that the assembler reads exactly it.

A line is read in fields, its words. It is good when it has no field at all, or when its fields spell an instruction: a
mnemonic alone, `PUSH` and a numeral, or `LOAD` or `STORE` and a name. A line that is not good has one fault, the first
from the left: an unknown mnemonic, a missing operand, a malformed operand or a field too many.

- `Instruction.ofWords_of_spelling`, `Instruction.ofWords_of_fault`: what a single line is read as;
- `Code.spelling_or_fault`: lines spell a code, or there is a first line with a fault;
- `assemble_eq_pieces`: the returns at line ends and an empty last line make no difference;
- `assemble_grammar`: the assembler answers with a code exactly when the lines spell it, and with an error exactly when
  the first line that is not good has the fault that the error tells.
-/
import Mathlib.Tactic
import PolishCalc.Code.Assembly
import PolishCalc.Proofs.Text.Terminator
import PolishCalc.Proofs.Token.Lexeme

namespace PolishCalc

open Text Lexeme

/-! ## The grammar -/

namespace Instruction

def alone : List (String × Instruction) :=
  [("ADD", .binary .add), ("SUB", .binary .sub), ("MUL", .binary .mul), ("DIV", .binary .div), ("MOD", .binary .mod),
    ("NEG", .unary .negate), ("SQRT", .unary .sqrt), ("PRINT", .print)]

def withOperand : List String := ["PUSH", "LOAD", "STORE"]

/-- the fields spell the instruction -/
inductive Spelling : Instruction → List String → Prop
  | alone (m : String) (i : Instruction) (h : (m, i) ∈ alone) : Spelling i [m]
  | push (w : String) (v : Int32) (h : Decimal.Denotes w v.toInt) : Spelling (.push v) ["PUSH", w]
  | load (w : String) (h : IsName w) : Spelling (.load w) ["LOAD", w]
  | store (w : String) (h : IsName w) : Spelling (.store w) ["STORE", w]

end Instruction

/-- the first fault from the left in the fields of a line, and the field to blame -/
inductive LineFault : List String → AssembleError.Kind → String → Prop
  | unknown (m : String) (ws : List String) (h : ∀ i, (m, i) ∉ Instruction.alone)
      (h' : m ∉ Instruction.withOperand) : LineFault (m :: ws) .illegalInstruction m
  | missing (m : String) (h : m ∈ Instruction.withOperand) : LineFault [m] .prematureEnd m
  | malformed (m w : String) (ws : List String) (h : m ∈ Instruction.withOperand)
      (hw : ∀ i : Instruction, ¬ i.Spelling [m, w]) : LineFault (m :: w :: ws) .illegalOperand w
  | surplus (i : Instruction) (us : List String) (w : String) (ws : List String) (h : i.Spelling us) :
      LineFault (us ++ w :: ws) .illegalOperand w

/-- a line without fields or with the fields of an instruction -/
def IsGoodLine (ws : List String) : Prop := ws = [] ∨ ∃ i : Instruction, i.Spelling ws

/-- the fields of the lines spell the code, one instruction on each line that is not blank -/
inductive Code.Spelling : Code → List (List String) → Prop
  | nil : Spelling [] []
  | blank (c : Code) (ls : List (List String)) (h : Spelling c ls) : Spelling c ([] :: ls)
  | line (i : Instruction) (c : Code) (ws : List String) (ls : List (List String)) (hi : i.Spelling ws)
      (h : Spelling c ls) : Spelling (i :: c) (ws :: ls)

/-- the fields of each line of a text, up to the line that ends the input -/
def Code.fieldLines (text : String) (mode : InputMode) : List (List String) :=
  (((text.toList.splitOn '\n').map (dropReturn '\r')).takeWhile fun l => !mode.endsAt l).map fun l =>
    (words l).map String.ofList

/-! ## One line -/

namespace Instruction

theorem readWords_alone (m : String) (i : Instruction) (h : (m, i) ∈ alone) (line : ℕ) (ws : List String) :
    readWords line m ws = .ok (i, ws) := by
  have all : ∀ p ∈ alone, (p.1 ≠ "PUSH" ∧ p.1 ≠ "LOAD" ∧ p.1 ≠ "STORE") ∧ operandFree? p.1 = some p.2 := by decide
  obtain ⟨⟨hp, hl, hs⟩, hfree⟩ := all _ h
  simp only at hp hl hs hfree
  rw [readWords, if_neg hp, if_neg hl, if_neg hs, hfree]

theorem readWords_unknown (m : String) (h : ∀ i, (m, i) ∉ alone) (h' : m ∉ withOperand) (line : ℕ)
    (ws : List String) : readWords line m ws = .error ⟨.illegalInstruction, line, m⟩ := by
  have hfree : operandFree? m = none := by
    rw [operandFree?, List.find?_eq_none]
    have all : ∀ i ∈ operandFree, (i.mnemonic, i) ∈ alone := by decide
    intro i hi hm
    rw [beq_iff_eq] at hm
    exact h i (hm ▸ all i hi)
  simp only [withOperand, List.mem_cons, List.not_mem_nil, or_false, not_or] at h'
  rw [readWords, if_neg h'.1, if_neg h'.2.1, if_neg h'.2.2, hfree]

theorem readWords_missing (m : String) (h : m ∈ withOperand) (line : ℕ) :
    readWords line m [] = .error ⟨.prematureEnd, line, m⟩ := by
  simp only [withOperand, List.mem_cons, List.not_mem_nil, or_false] at h
  rcases h with rfl | rfl | rfl <;> rfl

/-- the fields of an instruction are read as it, whatever follows them -/
theorem readWords_of_spelling (i : Instruction) (m : String) (us : List String) (h : i.Spelling (m :: us)) (line : ℕ)
    (ws : List String) : readWords line m (us ++ ws) = .ok (i, ws) := by
  cases h with
  | alone _ _ h => exact readWords_alone m i h line ws
  | push w v h =>
    have hv : literal? w = some v := (literal?_eq_some_iff w v).2 h
    simp [readWords, readOperand, hv]
  | load w h =>
    have hw : name? w = some w := if_pos ((isIdentifier_iff w).2 h)
    simp [readWords, readOperand, hw]
  | store w h =>
    have hw : name? w = some w := if_pos ((isIdentifier_iff w).2 h)
    simp [readWords, readOperand, hw]

theorem name?_eq_none (w : String) (h : ¬ IsName w) : name? w = none :=
  if_neg fun hi => h ((isIdentifier_iff w).1 hi)

theorem readWords_malformed (m w : String) (h : m ∈ withOperand) (hw : ∀ i, ¬ Spelling i [m, w]) (line : ℕ)
    (ws : List String) : readWords line m (w :: ws) = .error ⟨.illegalOperand, line, w⟩ := by
  simp only [withOperand, List.mem_cons, List.not_mem_nil, or_false] at h
  rcases h with rfl | rfl | rfl
  · have hv : literal? w = none := by
      rw [Option.eq_none_iff_forall_ne_some]
      exact fun v hv => hw _ (.push w v ((literal?_eq_some_iff w v).1 hv))
    simp [readWords, readOperand, hv, bind, Except.bind]
  · simp [readWords, readOperand, name?_eq_none w fun hn => hw _ (.load w hn), bind, Except.bind]
  · simp [readWords, readOperand, name?_eq_none w fun hn => hw _ (.store w hn), bind, Except.bind]

theorem Spelling.exists_cons (i : Instruction) (ws : List String) (h : i.Spelling ws) : ∃ m us, ws = m :: us := by
  cases h <;> exact ⟨_, _, rfl⟩

/-- fields that spell an instruction are read as it -/
theorem ofWords_of_spelling (i : Instruction) (ws : List String) (h : i.Spelling ws) (line : ℕ) :
    ofWords line ws = .ok (some i) := by
  obtain ⟨m, us, rfl⟩ := h.exists_cons
  have hread := readWords_of_spelling i m us h line []
  rw [List.append_nil] at hread
  rw [ofWords, hread]
  rfl

/-- fields with a fault are refused with it -/
theorem ofWords_of_fault (ws : List String) (k : AssembleError.Kind) (w : String) (h : LineFault ws k w) (line : ℕ) :
    ofWords line ws = .error ⟨k, line, w⟩ := by
  cases h with
  | unknown _ us h h' => rw [ofWords, readWords_unknown w h h']; rfl
  | missing _ h => rw [ofWords, readWords_missing w h]; rfl
  | malformed m _ us h hw => rw [ofWords, readWords_malformed m w h hw]; rfl
  | surplus i us _ vs h =>
    obtain ⟨m, us, rfl⟩ := h.exists_cons
    rw [List.cons_append, ofWords, readWords_of_spelling i m us h]
    rfl

theorem not_good_of_fault (ws : List String) (k : AssembleError.Kind) (w : String) (h : LineFault ws k w) :
    ¬ IsGoodLine ws := by
  have herr := ofWords_of_fault ws k w h 0
  rintro (rfl | ⟨i, hi⟩)
  · cases herr
  · rw [ofWords_of_spelling i ws hi] at herr
    cases herr

/-- there is no third kind of line -/
theorem good_or_fault (ws : List String) : IsGoodLine ws ∨ ∃ k w, LineFault ws k w := by
  cases ws with
  | nil => exact Or.inl (Or.inl rfl)
  | cons m us =>
    by_cases ha : ∃ i, (m, i) ∈ alone
    · obtain ⟨i, hi⟩ := ha
      have hs : Spelling i [m] := .alone m i hi
      cases us with
      | nil => exact Or.inl (Or.inr ⟨i, hs⟩)
      | cons w ws => exact Or.inr ⟨_, w, .surplus i [m] w ws hs⟩
    · by_cases ho : m ∈ withOperand
      · cases us with
        | nil => exact Or.inr ⟨_, m, .missing m ho⟩
        | cons w ws =>
          by_cases hs : ∃ i, Spelling i [m, w]
          · obtain ⟨i, hs⟩ := hs
            cases ws with
            | nil => exact Or.inl (Or.inr ⟨i, hs⟩)
            | cons x ws => exact Or.inr ⟨_, x, .surplus i [m, w] x ws hs⟩
          · exact Or.inr ⟨_, w, .malformed m w ws ho (not_exists.1 hs)⟩
      · exact Or.inr ⟨_, m, .unknown m us (not_exists.1 ha) ho⟩

end Instruction

/-! ## All lines -/

namespace Code

def fields (l : List Char) : List String := (words l).map String.ofList

theorem assembleAfter_cons (acc : Array Instruction) (l : List Char) (n : ℕ) (ls : List (List Char × ℕ)) :
    assembleAfter acc ((l, n) :: ls) =
      match Instruction.ofWords n (fields l) with
      | .ok none => assembleAfter acc ls
      | .ok (some i) => assembleAfter (acc.push i) ls
      | .error e => .error e := by
  rw [assembleAfter]
  rfl

theorem good_of_spelling (c : Code) (ls : List (List String)) (h : c.Spelling ls) : ∀ ws ∈ ls, IsGoodLine ws := by
  induction h with
  | nil => simp
  | blank c ls _ ih => exact List.forall_mem_cons.2 ⟨Or.inl rfl, ih⟩
  | line i c ws ls hi _ ih => exact List.forall_mem_cons.2 ⟨Or.inr ⟨i, hi⟩, ih⟩

/-- lines spell a code, or there is a first line with a fault -/
theorem spelling_or_fault (ls : List (List String)) :
    (∃ c : Code, c.Spelling ls) ∨
      ∃ pre ws post k w, ls = pre ++ ws :: post ∧ (∀ u ∈ pre, IsGoodLine u) ∧ LineFault ws k w := by
  induction ls with
  | nil => exact Or.inl ⟨[], .nil⟩
  | cons ws ls ih =>
    rcases Instruction.good_or_fault ws with hgood | ⟨k, w, hf⟩
    · rcases ih with ⟨c, hc⟩ | ⟨pre, us, post, k, w, rfl, hpre, hf⟩
      · rcases hgood with rfl | ⟨i, hi⟩
        · exact Or.inl ⟨c, .blank c ls hc⟩
        · exact Or.inl ⟨i :: c, .line i c ws ls hi hc⟩
      · exact Or.inr ⟨ws :: pre, us, post, k, w, rfl, List.forall_mem_cons.2 ⟨hgood, hpre⟩, hf⟩
    · exact Or.inr ⟨[], ws, ls, k, w, rfl, by simp, hf⟩

theorem assembleAfter_of_spelling (c : Code) (ls : List (List Char)) (h : c.Spelling (ls.map fields))
    (acc : Array Instruction) (n : ℕ) : assembleAfter acc (ls.zipIdx n) = .ok (acc.toList ++ c) := by
  induction ls generalizing c acc n with
  | nil =>
    cases h
    simp [assembleAfter]
  | cons l ls ih =>
    rw [List.map_cons] at h
    rw [List.zipIdx_cons, assembleAfter_cons]
    generalize fields l = ws at h ⊢
    cases h with
    | blank _ _ h => exact ih c h acc (n + 1)
    | line i c _ _ hi h =>
      rw [Instruction.ofWords_of_spelling i ws hi]
      simp only [ih c h (acc.push i) (n + 1)]
      simp

theorem assembleAfter_of_fault (pre post : List (List Char)) (l : List Char) (k : AssembleError.Kind) (w : String)
    (hpre : ∀ u ∈ pre, IsGoodLine (fields u)) (h : LineFault (fields l) k w) (acc : Array Instruction) (n : ℕ) :
    assembleAfter acc ((pre ++ l :: post).zipIdx n) = .error ⟨k, n + pre.length, w⟩ := by
  induction pre generalizing acc n with
  | nil =>
    rw [List.nil_append, List.zipIdx_cons, assembleAfter_cons, Instruction.ofWords_of_fault _ k w h]
    rfl
  | cons u pre ih =>
    obtain ⟨hu, hpre⟩ := List.forall_mem_cons.1 hpre
    have hnum : n + (u :: pre).length = n + 1 + pre.length := by rw [List.length_cons]; omega
    rw [List.cons_append, List.zipIdx_cons, assembleAfter_cons, hnum]
    rcases hu with hu | ⟨i, hi⟩
    · rw [hu]
      exact ih hpre acc (n + 1)
    · rw [Instruction.ofWords_of_spelling i _ hi]
      exact ih hpre (acc.push i) (n + 1)

/-! ## Lines as pieces between line feeds -/

/-- the pieces of a text between its line feeds, up to the one that ends the input -/
def pieces (text : String) (mode : InputMode) : List (List Char) :=
  (text.toList.splitOn '\n').takeWhile fun l => !mode.endsAt l

theorem endsAt_dropReturn (mode : InputMode) (l : List Char) : mode.endsAt (dropReturn '\r' l) = mode.endsAt l := by
  rw [InputMode.endsAt, isTerminatorLine_dropReturn]
  rfl

theorem fields_dropReturn (l : List Char) : fields (dropReturn '\r' l) = fields l := by
  rw [fields, words_dropReturn]
  rfl

/-- a blank line behind all others makes no difference -/
theorem assembleAfter_append_blank (ls : List (List Char)) (acc : Array Instruction) (n : ℕ) :
    assembleAfter acc ((ls ++ [[]]).zipIdx n) = assembleAfter acc (ls.zipIdx n) := by
  induction ls generalizing acc n with
  | nil => simp [assembleAfter_cons, fields, words_eq_nil, Instruction.ofWords]
  | cons l ls ih => simp only [List.cons_append, List.zipIdx_cons, assembleAfter_cons, ih]

/-- lines with the same words are assembled alike -/
theorem assembleAfter_congr (ls ls' : List (List Char)) (h : ls.map words = ls'.map words) (acc : Array Instruction)
    (n : ℕ) : assembleAfter acc (ls.zipIdx n) = assembleAfter acc (ls'.zipIdx n) := by
  induction ls generalizing ls' acc n with
  | nil => rw [List.map_eq_nil_iff.1 h.symm]
  | cons l ls ih =>
    obtain ⟨l', ls', rfl, hl, hls⟩ := List.map_eq_cons_iff.1 h.symm
    have hfields : fields l = fields l' := by rw [fields, fields, hl]
    simp only [List.zipIdx_cons, assembleAfter_cons, hfields, ih ls' hls.symm]

/-- the pieces of a text have the words of its lines, up to an empty last piece, which is no line -/
theorem words_lines (mode : InputMode) (l : List Char) :
    let ps := (l.splitOn '\n').takeWhile fun p => !mode.endsAt p
    let ls := (lines l).takeWhile fun p => !mode.endsAt p
    ps.map words = ls.map words ∨ ps.map words = (ls ++ [[]]).map words := by
  induction l using line_induction '\n' with
  | last p hp =>
    rw [lines, linesWith_last _ _ p hp, List.splitOn_eq_singleton hp]
    cases p with
    | nil =>
      have hends : mode.endsAt [] = false := by cases mode <;> decide
      simp [hends]
    | cons c p => exact Or.inl rfl
  | line p l hp ih =>
    rw [lines, linesWith_cons _ _ p l hp, List.splitOn_append_cons_self_of_not_mem hp]
    simp only [List.takeWhile_cons, endsAt_dropReturn]
    cases mode.endsAt p with
    | true => exact Or.inl rfl
    | false => simpa [words_dropReturn, lines] using ih

/-- a text is assembled from its pieces: returns at line ends and an empty last line make no difference -/
theorem assemble_eq_pieces (text : String) (mode : InputMode) :
    assemble text mode = assembleAfter #[] ((pieces text mode).zipIdx 1) := by
  rw [assemble, sourceLines]
  rcases words_lines mode text.toList with h | h
  · exact (assembleAfter_congr _ _ h #[] 1).symm
  · exact ((assembleAfter_congr _ _ h #[] 1).trans (assembleAfter_append_blank _ #[] 1)).symm

theorem fieldLines_eq (text : String) (mode : InputMode) : fieldLines text mode = (pieces text mode).map fields := by
  have hends : ((fun l => !mode.endsAt l) ∘ dropReturn '\r') = fun l => !mode.endsAt l :=
    funext fun l => congrArg not (endsAt_dropReturn mode l)
  rw [fieldLines, pieces, List.takeWhile_map, hends, List.map_map]
  exact List.map_congr_left fun l _ => fields_dropReturn l

theorem assemble_of_spelling (text : String) (mode : InputMode) (c : Code) (h : c.Spelling (fieldLines text mode)) :
    assemble text mode = .ok c := by
  rw [fieldLines_eq] at h
  rw [assemble_eq_pieces, assembleAfter_of_spelling c _ h]
  simp

theorem assemble_of_fault (text : String) (mode : InputMode) (pre post : List (List String)) (ws : List String)
    (k : AssembleError.Kind) (w : String) (hsplit : fieldLines text mode = pre ++ ws :: post)
    (hpre : ∀ u ∈ pre, IsGoodLine u) (h : LineFault ws k w) :
    assemble text mode = .error ⟨k, pre.length + 1, w⟩ := by
  rw [fieldLines_eq] at hsplit
  obtain ⟨us, vs, hpieces, rfl, hvs⟩ := List.map_eq_append_iff.1 hsplit
  obtain ⟨l, vs, rfl, rfl, rfl⟩ := List.map_eq_cons_iff.1 hvs
  rw [assemble_eq_pieces, hpieces, assembleAfter_of_fault us vs l k w (List.forall_mem_map.1 hpre) h, List.length_map,
    Nat.add_comm]

/-- **The assembler reads exactly its grammar.** It answers with a code exactly when the lines spell that code, which
is when every line is good; and with an error exactly when the error has the number and the fault of the first line that
is not good. -/
theorem assemble_grammar (text : String) (mode : InputMode) :
    (∀ c, assemble text mode = .ok c ↔ c.Spelling (fieldLines text mode)) ∧
    ((∃ c, assemble text mode = .ok c) ↔ ∀ ws ∈ fieldLines text mode, IsGoodLine ws) ∧
    ∀ e, assemble text mode = .error e ↔
      ∃ pre ws post, fieldLines text mode = pre ++ ws :: post ∧ (∀ u ∈ pre, IsGoodLine u) ∧ ¬ IsGoodLine ws ∧
        LineFault ws e.kind e.found ∧ e.line = pre.length + 1 := by
  rcases spelling_or_fault (fieldLines text mode) with ⟨d, hd⟩ | ⟨pre, ws, post, k, w, hsplit, hpre, hf⟩
  · have hok := assemble_of_spelling text mode d hd
    have hgood := good_of_spelling d _ hd
    refine ⟨fun c => ⟨fun h => ?_, assemble_of_spelling text mode c⟩, ⟨fun _ => hgood, fun _ => ⟨d, hok⟩⟩,
      fun e => ⟨fun h => ?_, ?_⟩⟩
    · rw [hok] at h
      cases h
      exact hd
    · rw [hok] at h
      cases h
    · rintro ⟨pre, ws, post, hsplit, -, hbad, -⟩
      exact absurd (hgood ws (by simp [hsplit])) hbad
  · have herr := assemble_of_fault text mode pre post ws k w hsplit hpre hf
    have hbad := Instruction.not_good_of_fault ws k w hf
    have hno : ∀ c, assemble text mode ≠ .ok c := fun c h => by rw [herr] at h; cases h
    refine ⟨fun c => ⟨fun h => absurd h (hno c), assemble_of_spelling text mode c⟩,
      ⟨fun ⟨c, h⟩ => absurd h (hno c), fun h => absurd (h ws (by simp [hsplit])) hbad⟩, fun e => ⟨fun h => ?_, ?_⟩⟩
    · rw [herr] at h
      cases h
      exact ⟨pre, ws, post, hsplit, hpre, hbad, hf, rfl⟩
    · rintro ⟨pre, ws, post, hsplit, hpre, -, hf, hline⟩
      rw [assemble_of_fault text mode pre post ws e.kind e.found hsplit hpre hf, ← hline]

end Code

end PolishCalc

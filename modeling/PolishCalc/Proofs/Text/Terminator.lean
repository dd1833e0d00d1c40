/-
The part of a text that is read, in either mode.

A file is read to its end. Interactive input is read up to its first terminator line, which `beforeTerminator` finds
among the pieces between the line feeds. A reader that goes over the text character by character meets the lines one by
one instead: at the start of a line it can look at the line, and within a line it goes on to the next line feed.

- `beforeTerminator_append`: a line in front that is no terminator line is part of what is read;
- `beforeTerminator_cases`: what is read is the whole text, or it ends where a line ends;
- `InputMode.portion_eq`: at the start of a line, the line decides whether anything more is read;
- `InputMode.portionWithin_append`: within a line, what is read next is what stands next;
- `InputMode.exists_portion_append`: what is read is a first part of the text, all of it or up to the end of a line.
-/
import Mathlib.Data.List.TakeWhile
import Mathlib.Tactic
import PolishCalc.Proofs.Text.Lines
import PolishCalc.Text

namespace PolishCalc

namespace Text

/-- the part of a text before its first terminator line, and the whole text when it has none -/
def beforeTerminator (l : List Char) : List Char :=
  if (l.splitOn '\n').any isTerminatorLine then
    ((l.splitOn '\n').takeWhile fun p => !isTerminatorLine p).flatMap fun p => p ++ ['\n']
  else l

def firstLine (l : List Char) : List Char := l.takeWhile (· != '\n')

/-- the rest of a line and, behind its line feed, the part of the text before the first terminator line -/
def throughLine : List Char → List Char
  | [] => []
  | c :: l => c :: if c = '\n' then beforeTerminator l else throughLine l

theorem firstLine_of_not_mem (p : List Char) (h : '\n' ∉ p) : firstLine p = p := by
  rw [firstLine, List.takeWhile_eq_self_iff]
  intro c hc
  simpa using ne_of_mem_of_not_mem hc h

theorem firstLine_append (p l : List Char) (h : '\n' ∉ p) : firstLine (p ++ '\n' :: l) = p := by
  have hp := firstLine_of_not_mem p h
  rw [firstLine] at hp ⊢
  rw [List.takeWhile_append, hp]
  simp

theorem throughLine_append (p l : List Char) (h : '\n' ∉ p) : throughLine (p ++ l) = p ++ throughLine l := by
  induction p with
  | nil => rfl
  | cons c p ih =>
    obtain ⟨hc, hp⟩ := List.ne_and_not_mem_of_not_mem_cons h
    rw [List.cons_append, throughLine, if_neg (Ne.symm hc), ih hp, List.cons_append]

theorem throughLine_of_not_mem (p : List Char) (h : '\n' ∉ p) : throughLine p = p := by
  have := throughLine_append p [] h
  rwa [List.append_nil, throughLine, List.append_nil] at this

/-- a text of one line is read unless it is the terminator line -/
theorem beforeTerminator_of_not_mem (p : List Char) (h : '\n' ∉ p) :
    beforeTerminator p = if isTerminatorLine p then [] else p := by
  rw [beforeTerminator, List.splitOn_eq_singleton h]
  cases hp : isTerminatorLine p <;> simp [hp]

/-- a first line that is no terminator line is read, and then what is read of the lines after it -/
theorem beforeTerminator_append (p l : List Char) (h : '\n' ∉ p) :
    beforeTerminator (p ++ '\n' :: l) = if isTerminatorLine p then [] else p ++ '\n' :: beforeTerminator l := by
  rw [beforeTerminator, beforeTerminator, List.splitOn_append_cons_self_of_not_mem h]
  cases hp : isTerminatorLine p with
  | true => simp [hp]
  | false =>
    cases hl : (l.splitOn '\n').any isTerminatorLine <;> simp [hp, hl]

/-- a line that starts with anything but white space and the terminator is no terminator line -/
theorem isTerminatorLine_cons (c : Char) (l : List Char) (hw : isWhiteSpace c = false) (hdot : c ≠ '.') :
    isTerminatorLine (c :: l) = false := by
  obtain ⟨l', ht⟩ := trim_cons c l hw
  simp [isTerminatorLine, ht, terminator, hdot]

theorem isTerminatorLine_concat_return (l : List Char) : isTerminatorLine (l ++ ['\r']) = isTerminatorLine l := by
  rw [isTerminatorLine, isTerminatorLine, trim_append_whiteSpace l '\r' rfl]

theorem isTerminatorLine_dropReturn (l : List Char) : isTerminatorLine (dropReturn '\r' l) = isTerminatorLine l := by
  rw [isTerminatorLine, isTerminatorLine, trim_dropReturn]

/-- a text without a terminator line is read as a whole -/
theorem beforeTerminator_of_forall (l : List Char) (h : ∀ p ∈ l.splitOn '\n', isTerminatorLine p = false) :
    beforeTerminator l = l := by
  rw [beforeTerminator, if_neg]
  simpa using h

/-- what is read is the whole text, or it ends with a line feed if it has an end -/
theorem beforeTerminator_cases (l : List Char) :
    beforeTerminator l = l ∨ ∀ c ∈ (beforeTerminator l).getLast?, c = '\n' := by
  rw [beforeTerminator]
  split
  · right
    rcases List.eq_nil_or_concat' ((l.splitOn '\n').takeWhile fun p => !isTerminatorLine p) with hnil | ⟨ps, p, hps⟩
    · simp [hnil]
    · rw [hps, List.flatMap_append, List.flatMap_singleton, ← List.append_assoc, List.getLast?_concat]
      simp
  · exact Or.inl rfl

/-- what is read is a first part of the text -/
theorem exists_beforeTerminator_append (l : List Char) : ∃ r, l = beforeTerminator l ++ r := by
  induction l using line_induction '\n' with
  | last p hp =>
    rw [beforeTerminator_of_not_mem p hp]
    split
    · exact ⟨p, rfl⟩
    · exact ⟨[], (List.append_nil p).symm⟩
  | line p l hp ih =>
    obtain ⟨r, hr⟩ := ih
    rw [beforeTerminator_append p l hp]
    split
    · exact ⟨p ++ '\n' :: l, rfl⟩
    · exact ⟨r, by rw [List.append_assoc, List.cons_append, ← hr]⟩

/-- what is read, by the first line alone -/
theorem beforeTerminator_eq (l : List Char) :
    beforeTerminator l = if isTerminatorLine (firstLine l) then [] else throughLine l := by
  by_cases h : '\n' ∈ l
  · obtain ⟨p, r, rfl, hp⟩ := List.eq_append_cons_of_mem h
    rw [beforeTerminator_append p r hp, firstLine_append p r hp, throughLine_append p _ hp]
    rfl
  · rw [beforeTerminator_of_not_mem l h, firstLine_of_not_mem l h, throughLine_of_not_mem l h]

end Text

open Text

namespace InputMode

/-- the part of a text that is read -/
def portion (mode : InputMode) (l : List Char) : List Char :=
  match mode with
  | file => l
  | interactive => beforeTerminator l

/-- the part of a text that is read when the text starts within a line -/
def portionWithin (mode : InputMode) (l : List Char) : List Char :=
  match mode with
  | file => l
  | interactive => throughLine l

/-- at the start of a line, the line decides whether anything more is read -/
theorem portion_eq (mode : InputMode) (l : List Char) :
    mode.portion l = if mode.endsAt (firstLine l) then [] else mode.portionWithin l := by
  cases mode with
  | file => rfl
  | interactive => exact beforeTerminator_eq l

theorem portionWithin_nil (mode : InputMode) : mode.portionWithin [] = [] := by cases mode <;> rfl

/-- within a line, the next character is read, and a line feed starts a line -/
theorem portionWithin_cons (mode : InputMode) (c : Char) (l : List Char) :
    mode.portionWithin (c :: l) = c :: if c = '\n' then mode.portion l else mode.portionWithin l := by
  cases mode with
  | file => simp [portion, portionWithin]
  | interactive => rfl

theorem portionWithin_append (mode : InputMode) (p l : List Char) (h : '\n' ∉ p) :
    mode.portionWithin (p ++ l) = p ++ mode.portionWithin l := by
  cases mode with
  | file => rfl
  | interactive => exact throughLine_append p l h

/-- what is read is a first part of the text: all of it, or up to the end of a line -/
theorem exists_portion_append (mode : InputMode) (l : List Char) :
    ∃ r, l = mode.portion l ++ r ∧ (r = [] ∨ ∀ c ∈ (mode.portion l).getLast?, c = '\n') := by
  cases mode with
  | file => exact ⟨[], (List.append_nil l).symm, Or.inl rfl⟩
  | interactive =>
    obtain ⟨r, hr⟩ := exists_beforeTerminator_append l
    refine ⟨r, hr, (beforeTerminator_cases l).imp_left fun hall => ?_⟩
    rw [hall] at hr
    exact List.append_right_eq_self.1 hr.symm

end InputMode

end PolishCalc

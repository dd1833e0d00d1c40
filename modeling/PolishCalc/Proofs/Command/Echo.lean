/-
The echo of a run, against what is parsed.

A run cuts its source into lines and shows the words of each line that has any. The parser reads the source as a whole,
and at a terminal it looks for the terminator line once more. Both come to the same words: a word never reaches over the
end of a line, and what is read at a terminal has no terminator line. So the echo, read as a file, has the lexemes of the
source. It may be longer than the source, by a space in front of a line and a line feed behind the last one, but not by
more than half of it.

- `words_spaced`: a line is shown with its words;
- `echo_eq`: the echo line by line;
- `lines_echo`, `words_echo`: its lines and its words;
- `tokenize_line_echo`: none of its lines is blank;
- `size_echo`: its size;
- `portion_of_source`: what is read is parsed to its end;
- `output_runPlan`: where the echo stands in the output;
- `echo_faithful`: all of it, for a whole run.
-/
import Mathlib.Tactic
import PolishCalc.Proofs.Command.Stream
import PolishCalc.Proofs.Program.Uniform

namespace PolishCalc.Command

open Text

/-! ## One line -/

/-- the words of a line behind a space, with one space between two of them -/
def spaced (l : List Char) : List Char := ' ' :: [' '].intercalate (words l)

theorem words_spaced (l : List Char) : words (spaced l) = words l := by
  calc words (spaced l) = words ([' '].intercalate (words l)) := words_cons_separator ' ' _ rfl
    _ = (words l).flatMap words := words_intercalate ' ' rfl (words l)
    _ = (words l).flatMap fun w => [w] := List.flatMap_congr (words_of_mem_words l)
    _ = words l := List.flatMap_singleton' (words l)

theorem ofList_spaced (l : List Char) :
    String.ofList (spaced l) = " " ++ " ".intercalate ((words l).map String.ofList) := by
  rw [← String.toList_inj, String.toList_append, String.toList_intercalate, List.map_map]
  simp [spaced, Function.comp_def]

/-- a space is the only separator that is shown -/
theorem eq_space_of_mem_spaced (l : List Char) (c : Char) (h : c ∈ spaced l) (hc : isSeparator c = true) : c = ' ' := by
  rcases List.mem_cons.1 h with rfl | h
  · rfl
  · rcases mem_intercalate ' ' c (words l) h with rfl | ⟨w, hw, hmem⟩
    · rfl
    · rw [not_isSeparator_of_mem_words l w hw c hmem] at hc
      cases hc

/-- the words of a line with one space between two of them are no longer than the line -/
theorem length_encode_words (l : List Char) : (encode ([' '].intercalate (words l))).length ≤ (encode l).length := by
  induction l using word_induction with
  | last w hw =>
    rw [words_of_not_isSeparator w hw]
    split
    · exact Nat.zero_le _
    · rw [List.intercalate_singleton]
  | gap w c l hw hc ih =>
    have hlen : (encode w).length + 1 + (encode l).length ≤ (encode (w ++ c :: l)).length := by
      have hone : 0 < c.utf8Size := c.utf8Size_pos
      rw [encode_append, encode_cons, List.length_append, List.length_append, String.length_utf8EncodeChar]
      omega
    rw [words_append_separator w l c hc, words_of_not_isSeparator w hw]
    refine le_trans ?_ hlen
    split
    · exact le_trans ih (Nat.le_add_left _ _)
    · rw [List.singleton_append]
      cases hl : words l with
      | nil =>
        rw [List.intercalate_singleton]
        omega
      | cons v vs =>
        have hspace : (encode [' ']).length = 1 := rfl
        rw [hl] at ih
        rw [List.intercalate_cons_cons, encode_append, encode_append, List.length_append, List.length_append, hspace]
        omega

/-! ## The echo, line by line -/

def wordLines (ls : List (List Char)) : List (List Char) := ls.filter fun l => !(words l).isEmpty

theorem wordLines_cons_of_nil (l : List Char) (ls : List (List Char)) (h : words l = []) :
    wordLines (l :: ls) = wordLines ls := by
  rw [wordLines, List.filter_cons_of_neg (by simp [h]), wordLines]

theorem wordLines_cons_of_ne (l : List Char) (ls : List (List Char)) (h : words l ≠ []) :
    wordLines (l :: ls) = l :: wordLines ls := by
  rw [wordLines, List.filter_cons_of_pos (by simpa using h), wordLines]

/-- the tokens of a line are its words -/
theorem lexemes_line (l : List Char) (h : (encode l).length ≤ ByteOffset.last) :
    (tokenize (String.ofList l) .file).map Token.lexeme = (words l).map String.ofList := by
  have hsize : (String.ofList l).utf8ByteSize ≤ ByteOffset.last := by rwa [← length_encode, String.toList_ofList]
  rw [lexemes_tokenize _ .file hsize, InputMode.portion, String.toList_ofList]

/-- a line of a text is no longer than the text -/
theorem size_line_le (source : String) (l : List Char) (h : l ∈ lines source.toList) :
    (encode l).length ≤ source.utf8ByteSize := by
  have hwritten : ∀ ls, l ∈ ls → (encode l).length + 1 ≤ (written ls).utf8ByteSize := by
    intro ls hl
    induction ls with
    | nil => cases hl
    | cons m ls ih =>
      rw [size_written_cons]
      rcases List.mem_cons.1 hl with rfl | hl
      · exact Nat.le_add_right _ _
      · exact le_trans (ih hl) (Nat.le_add_left _ _)
  exact Nat.le_of_add_le_add_right (le_trans (hwritten _ h) (size_written_lines source))

/-- the echo is written line by line, from the lines that have a word -/
theorem echo_eq (source : String) (h : source.utf8ByteSize ≤ ByteOffset.last) :
    echo source = written ((wordLines (lines source.toList)).map spaced) := by
  have hsize : ∀ l ∈ lines source.toList, (encode l).length ≤ ByteOffset.last := by
    intro l hl
    exact le_trans (size_line_le source l hl) h
  rw [echo]
  generalize lines source.toList = ls at hsize ⊢
  induction ls with
  | nil => rfl
  | cons l ls ih =>
    obtain ⟨hl, hls⟩ := List.forall_mem_cons.1 hsize
    have hlex := lexemes_line l hl
    rw [List.map_cons, String.join_cons, ih hls]
    split
    · next hts =>
      rw [hts] at hlex
      have hw : words l = [] := List.map_eq_nil_iff.1 hlex.symm
      rw [wordLines_cons_of_nil l ls hw, String.empty_append]
    · next hts =>
      have hw : words l ≠ [] := by
        intro hnil
        rw [hnil] at hlex
        exact hts (List.map_eq_nil_iff.1 hlex)
      rw [wordLines_cons_of_ne l ls hw, hlex, List.map_cons, written_cons, ofList_spaced]

theorem lines_echo (source : String) (h : source.utf8ByteSize ≤ ByteOffset.last) :
    lines (echo source).toList = (wordLines (lines source.toList)).map spaced := by
  rw [echo_eq source h, toList_written]
  refine linesWith_flatMap '\n' '\r' _ fun p hp => ?_
  obtain ⟨l, -, rfl⟩ := List.mem_map.1 hp
  constructor
  · intro hlf
    exact absurd (eq_space_of_mem_spaced l '\n' hlf rfl) (by decide)
  · intro hlast
    exact absurd (eq_space_of_mem_spaced l '\r' (List.mem_of_getLast? hlast) rfl) (by decide)

/-- no line of the echo is blank -/
theorem tokenize_line_echo (source : String) (h : source.utf8ByteSize ≤ ByteOffset.last)
    (hecho : (echo source).utf8ByteSize ≤ ByteOffset.last) (l : List Char) (hl : l ∈ lines (echo source).toList) :
    tokenize (String.ofList l) .file ≠ [] := by
  intro hnil
  have hlex := lexemes_line l (le_trans (size_line_le (echo source) l hl) hecho)
  rw [lines_echo source h] at hl
  obtain ⟨m, hm, rfl⟩ := List.mem_map.1 hl
  have hwords : words m ≠ [] := by simpa using (List.mem_filter.1 hm).2
  rw [hnil, words_spaced] at hlex
  exact hwords (List.map_eq_nil_iff.1 hlex.symm)

/-- the echo has the words of the source -/
theorem words_echo (source : String) (h : source.utf8ByteSize ≤ ByteOffset.last) :
    words (echo source).toList = words source.toList := by
  rw [echo_eq source h, words_written, ← words_flatMap_lines source.toList]
  induction lines source.toList with
  | nil => rfl
  | cons l ls ih =>
    rw [List.flatMap_cons]
    by_cases hw : words l = []
    · rw [wordLines_cons_of_nil l ls hw, ih, hw, List.nil_append]
    · rw [wordLines_cons_of_ne l ls hw, List.map_cons, List.flatMap_cons, words_spaced, ih]

/-- the echo is at most half as long again as the source, up to the line feed behind the last line -/
theorem size_echo (source : String) (h : source.utf8ByteSize ≤ ByteOffset.last) :
    2 * (echo source).utf8ByteSize ≤ 3 * (source.utf8ByteSize + 1) := by
  have hlines : ∀ ls : List (List Char),
      2 * (written ((wordLines ls).map spaced)).utf8ByteSize ≤ 3 * (written ls).utf8ByteSize := by
    intro ls
    induction ls with
    | nil => exact Nat.le_refl 0
    | cons l ls ih =>
      rw [size_written_cons l ls]
      by_cases hw : words l = []
      · rw [wordLines_cons_of_nil l ls hw]
        omega
      · have hshown : (encode (spaced l)).length ≤ (encode l).length + 1 := by
          have hwords := length_encode_words l
          have hspace : (String.utf8EncodeChar ' ').length = 1 := rfl
          rw [spaced, encode_cons, List.length_append, hspace]
          omega
        -- a line with a word has a byte, and that pays for the space and the line feed
        have hpos : 0 < (encode l).length := by
          refine List.length_pos_of_ne_nil fun hnil => hw ?_
          rw [(encode_eq_nil_iff l).1 hnil]
          rfl
        rw [wordLines_cons_of_ne l ls hw, List.map_cons, size_written_cons]
        omega
  calc 2 * (echo source).utf8ByteSize
      = 2 * (written ((wordLines (lines source.toList)).map spaced)).utf8ByteSize := by rw [echo_eq source h]
    _ ≤ 3 * (written (lines source.toList)).utf8ByteSize := hlines _
    _ ≤ 3 * (source.utf8ByteSize + 1) := Nat.mul_le_mul_left 3 (size_written_lines source)

/-! ## What is read -/

/-- what a task reads, from a file or from the terminal, and its mode; a terminal gives the lines before its
terminator line, whatever stands behind that -/
inductive IsSource (terminal : List UInt8) (d : Directory) : Option String → String → InputMode → Prop
  | file (path text : String) (h : d.read path = .ok text) : IsSource terminal d (some path) text .file
  | terminal (text : String) (n : ℕ) (h : TerminalRead.ofBytes terminal = ⟨some text, n⟩) :
      IsSource terminal d none text .interactive

/-- what is read of lines is written from some of them, and no terminator line is among these -/
theorem TerminalRead.exists_written_of_linesAfter (text text' : String) (k n : ℕ) (bs : List (List UInt8))
    (h : linesAfter text k bs = ⟨some text', n⟩) :
    ∃ ls, text' = text ++ written ls ∧ ∀ l ∈ ls, encode l ∈ bs ∧ isTerminatorLine l = false := by
  induction bs generalizing text k with
  | nil =>
    cases h
    exact ⟨[], String.append_empty.symm, by simp⟩
  | cons b bs ih =>
    rw [linesAfter] at h
    cases hb : lineText? b with
    | none =>
      rw [hb] at h
      cases h
    | some s =>
      rw [hb] at h
      cases hs : isTerminatorLine s.toList with
      | true =>
        simp only [hs, if_true] at h
        cases h
        exact ⟨[], String.append_empty.symm, by simp⟩
      | false =>
        simp only [hs] at h
        obtain ⟨ls, rfl, hls⟩ := ih _ _ h
        refine ⟨s.toList :: ls, ?_, List.forall_mem_cons.2 ⟨⟨?_, hs⟩, fun l hl => ?_⟩⟩
        · rw [written_cons, String.ofList_toList]
          simp only [String.append_assoc]
        · rw [← encode_of_fromUTF8? b s hb]
          exact List.mem_cons_self
        · exact ⟨List.mem_cons_of_mem b (hls l hl).1, (hls l hl).2⟩

/-- what is read is parsed to its end: at a terminal, too, it has no terminator line -/
theorem portion_of_source (terminal : List UInt8) (d : Directory) (file : Option String) (source : String)
    (mode : InputMode) (h : IsSource terminal d file source mode) : mode.portion source.toList = source.toList := by
  cases h with
  | file path text h => rfl
  | terminal text n h =>
    obtain ⟨ls, rfl, hls⟩ := TerminalRead.exists_written_of_linesAfter "" source 1 n _ h
    rw [String.empty_append]
    refine beforeTerminator_of_forall _ (isTerminatorLine_of_mem_written ls fun l hl => ⟨?_, (hls l hl).2⟩)
    rw [← mem_encode_iff '\n' 10 rfl (by decide)]
    exact not_mem_of_mem_linesWith 10 13 terminal _ (hls l hl).1

theorem output_result (o : Outcome) (w : Wording) (prompts : String) : (o.result w prompts).output = o.output := by
  unfold Outcome.result
  cases o.failure <;> rfl

/-- a task prints what its plan prints -/
theorem output_of_source (t : Task) (w : Wording) (terminal : List UInt8) (d : Directory) (source : String)
    (mode : InputMode) (h : IsSource terminal d t.file source mode) :
    (t.perform w terminal d).output = ((t.plan source mode).perform d).output := by
  generalize hfile : t.file = file at h
  cases h with
  | file path text h =>
    have hread : Reading terminal d t.file source .file 0 := by
      rw [hfile]
      exact .file path source h
    rw [t.perform_of_reading w terminal d source .file 0 hread, output_result]
  | terminal text n h => rw [t.perform_of_ofBytes w terminal d source n hfile h, output_result]

/-! ## Whole runs -/

/-- a program that is parsed is displayed behind the echo -/
theorem output_runPlan (source : String) (mode : InputMode) (emit : Option String) (d : Directory) (p : Program)
    (h : Program.ofText source mode = .ok p) :
    ∃ rest, ((runPlan source mode emit).perform d).output = "(prefix)\n" ++ echo source ++ "(infix)\n" ++ rest := by
  simp only [runPlan, h, Plan.perform_print, String.append_assoc]
  exact ⟨_, rfl⟩

/-- **The echo is a faithful copy of what is parsed.** What a run prints up to the program is the echo of its source, and
if the source does not parse, it prints nothing else. The echo has one line for each line of the source that has a word:
these words behind a space, with single spaces between them. So no line of it is blank. Read as a file, it has the
lexemes of the source as that is read, and it spells the same program, or there are errors that differ in their places
only. -/
theorem echo_faithful (w : Wording) (file emit : Option String) (terminal : List UInt8) (d : Directory)
    (source : String) (mode : InputMode) (hsource : IsSource terminal d file source mode)
    (hsize : source.utf8ByteSize ≤ 2 ^ 31) :
    (∀ e, Program.ofText source mode = .error e →
      ((Task.run file emit).perform w terminal d).output = "(prefix)\n" ++ echo source) ∧
    (∀ p, Program.ofText source mode = .ok p →
      ∃ rest, ((Task.run file emit).perform w terminal d).output =
        "(prefix)\n" ++ echo source ++ "(infix)\n" ++ rest) ∧
    lines (echo source).toList = (wordLines (lines source.toList)).map spaced ∧
    (∀ l ∈ lines (echo source).toList, tokenize (String.ofList l) .file ≠ []) ∧
    (tokenize (echo source) .file).map Token.lexeme = (tokenize source mode).map Token.lexeme ∧
    SameAnswer (echo source) source .file mode := by
  have hfits : source.utf8ByteSize ≤ ByteOffset.last := le_trans hsize (by decide)
  have hecho : (echo source).utf8ByteSize ≤ ByteOffset.last := by
    have htwice := size_echo source hfits
    have hlast : ByteOffset.last = 2 ^ 32 - 1 := rfl
    omega
  have houtput := output_of_source (.run file emit) w terminal d source mode hsource
  have hlexemes : (tokenize (echo source) .file).map Token.lexeme = (tokenize source mode).map Token.lexeme := by
    calc (tokenize (echo source) .file).map Token.lexeme
        = (words (echo source).toList).map String.ofList := lexemes_tokenize _ .file hecho
      _ = (words source.toList).map String.ofList := by rw [words_echo source hfits]
      _ = (words (mode.portion source.toList)).map String.ofList := by
          rw [portion_of_source terminal d file source mode hsource]
      _ = (tokenize source mode).map Token.lexeme := (lexemes_tokenize source mode hfits).symm
  refine ⟨?fails, ?parses, lines_echo source hfits, tokenize_line_echo source hfits hecho, hlexemes,
    sameAnswer_of_lexemes _ _ _ _ hlexemes⟩
  case fails =>
    intro e he
    rw [houtput, Task.plan, runPlan_of_parse_error source mode emit d e he]
  case parses =>
    intro p hp
    rw [houtput, Task.plan]
    exact output_runPlan source mode emit d p hp

/-- an action over two lines with an empty line between them, typed before a terminator line with a byte behind it that
is no text; and a file that does not parse, whose last line ends with a return -/
theorem echo_faithful_typed :
    IsSource (encode "@\t+  1\r\n\n2\n .\n".toList ++ [255]) .empty none "@\t+  1\n\n2\n" .interactive ∧
    IsSource [] (.ofList [("p", ") é\r".toUTF8)]) (some "p") ") é\r" .file ∧
    "@\t+  1\n\n2\n".utf8ByteSize ≤ 2 ^ 31 ∧ ") é\r".utf8ByteSize ≤ 2 ^ 31 ∧
    lines (echo "@\t+  1\n\n2\n").toList = [" @ + 1".toList, " 2".toList] ∧
    (tokenize (echo "@\t+  1\n\n2\n") .file).map Token.lexeme =
      (tokenize "@\t+  1\n\n2\n" .interactive).map Token.lexeme ∧
    SameAnswer (echo ") é\r") ") é\r" .file .file := by
  have htyped : IsSource (encode "@\t+  1\r\n\n2\n .\n".toList ++ [255]) .empty none "@\t+  1\n\n2\n" .interactive :=
    .terminal _ 4 (by decide +kernel)
  have hread : IsSource [] (.ofList [("p", ") é\r".toUTF8)]) (some "p") ") é\r" .file :=
    .file "p" _ (Directory.read_ofList ⟨by decide, by decide, by decide, by decide, by decide⟩ _)
  have hsize : "@\t+  1\n\n2\n".utf8ByteSize ≤ 2 ^ 31 := by decide
  have hsize' : ") é\r".utf8ByteSize ≤ 2 ^ 31 := by decide
  obtain ⟨-, -, hlines, -, hlexemes, -⟩ :=
    echo_faithful ⟨Failure.message, fun _ => ""⟩ none none _ _ _ _ htyped hsize
  obtain ⟨-, -, -, -, -, hsame⟩ := echo_faithful ⟨Failure.message, fun _ => ""⟩ (some "p") none _ _ _ _ hread hsize'
  have hshown : (wordLines (lines "@\t+  1\n\n2\n".toList)).map spaced = [" @ + 1".toList, " 2".toList] := by decide
  exact ⟨htyped, hread, hsize, hsize', hlines.trans hshown, hlexemes, hsame⟩

end PolishCalc.Command

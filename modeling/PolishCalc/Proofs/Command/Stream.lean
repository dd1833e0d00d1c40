/-
What is read of any bytes at a terminal.

A terminal gives bytes, of which only the lines up to the first terminator line have to be text. What is read of them is
written anew, line by line, and then taken apart again by the lexer and the assembler, which look for a terminator line
themselves. They find none, and come to what they would come to on the bytes.

- `words_written`, `size_written_lines`: the words and the size of a text that is written line by line;
- `linesAfter_takeWhile`: the reading ends at the first terminator line, whatever follows it;
- `ofBytes_of_lines`: the lines before it are read, if they are text;
- `assemble_typed`, `alike_typed`: what is read of a text has its instructions, and its words on the same lines;
- `ofBytes_of_endsIn`: the line that ends the reading adds nothing, and neither does what is behind it;
- `terminal_eq_text`: all of it, for the commands.
-/
import Mathlib.Tactic
import PolishCalc.Proofs.Command.Task
import PolishCalc.Proofs.Interactive
import PolishCalc.Proofs.Token.Alike

namespace PolishCalc.Command

open Text

/-! ## Texts written line by line -/

/-- the text of the lines, with a line feed behind each -/
def written (ls : List (List Char)) : String := String.join (ls.map fun l => String.ofList l ++ "\n")

theorem written_cons (l : List Char) (ls : List (List Char)) :
    written (l :: ls) = String.ofList l ++ "\n" ++ written ls := by
  rw [written, List.map_cons, String.join_cons, written]

theorem toList_written (ls : List (List Char)) : (written ls).toList = ls.flatMap fun l => l ++ ['\n'] := by
  induction ls with
  | nil => rfl
  | cons l ls ih =>
    rw [written_cons, String.toList_append, ih, String.toList_append, String.toList_ofList]
    rfl

theorem size_written_cons (l : List Char) (ls : List (List Char)) :
    (written (l :: ls)).utf8ByteSize = (encode l).length + 1 + (written ls).utf8ByteSize := by
  rw [← length_encode, ← length_encode, toList_written, toList_written, List.flatMap_cons, List.append_assoc,
    List.singleton_append, length_encode_line]
  omega

/-- a text that was written has the words of its lines -/
theorem words_written (ls : List (List Char)) : words (written ls).toList = ls.flatMap words := by
  rw [toList_written]
  induction ls with
  | nil => rfl
  | cons l ls ih =>
    rw [List.flatMap_cons, List.append_assoc, List.singleton_append, words_append_separator l _ '\n' rfl, ih,
      List.flatMap_cons]

theorem splitOn_written (ls : List (List Char)) (h : ∀ l ∈ ls, '\n' ∉ l) :
    (written ls).toList.splitOn '\n' = ls ++ [[]] := by
  rw [toList_written, splitOn_flatMap '\n' ls h]

/-- lines that are no terminator lines are none when they are written -/
theorem isTerminatorLine_of_mem_written (ls : List (List Char)) (h : ∀ l ∈ ls, '\n' ∉ l ∧ isTerminatorLine l = false) :
    ∀ p ∈ (written ls).toList.splitOn '\n', isTerminatorLine p = false := by
  rw [splitOn_written ls fun l hl => (h l hl).1]
  refine List.forall_mem_append.2 ⟨fun l hl => (h l hl).2, List.forall_mem_singleton.2 ?_⟩
  decide

namespace TerminalRead

/-! ## The line that ends the reading -/

/-- whether the line is text, and a terminator line -/
def isTerminator (line : List UInt8) : Bool := (lineText? line).any fun s => isTerminatorLine s.toList

/-- the lines before the first terminator line, and all lines when there is none -/
def linesBefore (bytes : List UInt8) : List (List UInt8) :=
  (linesWith 10 13 bytes).takeWhile fun line => !isTerminator line

theorem isTerminator_encode (l : List Char) : isTerminator (encode l) = isTerminatorLine l := by
  rw [isTerminator, lineText?_encode, Option.any_some, String.toList_ofList]

theorem exists_of_isTerminator (line : List UInt8) (h : isTerminator line = true) :
    ∃ l, line = encode l ∧ isTerminatorLine l = true := by
  obtain ⟨s, hs, hl⟩ := (Option.any_eq_true _ _).1 h
  exact ⟨s.toList, encode_of_fromUTF8? line s hs, hl⟩

theorem isTerminator_dropReturn (line : List UInt8) (h : isTerminator line = true) :
    isTerminator (dropReturn 13 line) = true := by
  obtain ⟨l, rfl, hl⟩ := exists_of_isTerminator line h
  rw [dropReturn_encode '\r' 13 rfl (by decide), isTerminator_encode, isTerminatorLine_dropReturn]
  exact hl

/-- a terminator line and what follows it are not read -/
theorem linesAfter_append_terminator (text : String) (prompts : ℕ) (ls rest : List (List UInt8)) (line : List UInt8)
    (h : isTerminator line = true) : linesAfter text prompts (ls ++ line :: rest) = linesAfter text prompts ls := by
  induction ls generalizing text prompts with
  | nil =>
    obtain ⟨l, rfl, hl⟩ := exists_of_isTerminator line h
    simp only [List.nil_append, linesAfter, lineText?_encode, String.toList_ofList, hl, if_true]
  | cons l ls ih =>
    simp only [List.cons_append, linesAfter]
    cases lineText? l with
    | none => rfl
    | some s =>
      dsimp only
      split
      · rfl
      · exact ih _ _

theorem linesAfter_takeWhile (text : String) (prompts : ℕ) (ls : List (List UInt8)) :
    linesAfter text prompts ls = linesAfter text prompts (ls.takeWhile fun line => !isTerminator line) := by
  conv_lhs => rw [← List.takeWhile_append_dropWhile (p := fun line => !isTerminator line) (l := ls)]
  cases hrest : ls.dropWhile fun line => !isTerminator line with
  | nil => rw [List.append_nil]
  | cons line rest =>
    have hline : isTerminator line = true := by
      have hhead := List.head?_dropWhile_not (fun line => !isTerminator line) ls
      simpa [hrest] using hhead
    exact linesAfter_append_terminator text prompts _ rest line hline

/-! ## The lines in front of it -/

/-- what is read is what was written before the terminator line, if it is text -/
theorem ofBytes_of_lines (bytes : List UInt8) (h : ∀ line ∈ linesBefore bytes, (lineText? line).isSome = true) :
    ∃ ls, (∀ l ∈ ls, '\n' ∉ l ∧ isTerminatorLine l = false) ∧ (linesBefore bytes).length = ls.length ∧
      ofBytes bytes = ⟨some (written ls), 1 + ls.length⟩ := by
  have hrange : ∀ line ∈ linesBefore bytes, line ∈ Set.range encode := by
    intro line hline
    obtain ⟨s, hs⟩ := Option.isSome_iff_exists.1 (h line hline)
    exact ⟨s.toList, (encode_of_fromUTF8? line s hs).symm⟩
  obtain ⟨ls, hls⟩ : linesBefore bytes ∈ Set.range (List.map encode) := by
    rw [Set.range_list_map]
    exact hrange
  have hmem : ∀ l ∈ ls, encode l ∈ linesBefore bytes := fun l hl => hls ▸ List.mem_map_of_mem hl
  have hread : ∀ l ∈ ls, '\n' ∉ l ∧ isTerminatorLine l = false := by
    intro l hl
    have hline : encode l ∈ linesWith 10 13 bytes := (List.takeWhile_sublist _).subset (hmem l hl)
    have hend := List.mem_takeWhile_imp (hmem l hl)
    rw [isTerminator_encode] at hend
    refine ⟨?_, by simpa using hend⟩
    rw [← mem_encode_iff '\n' 10 rfl (by decide)]
    exact not_mem_of_mem_linesWith 10 13 bytes _ hline
  refine ⟨ls, hread, by rw [← hls, List.length_map], ?_⟩
  have hall : (ls.takeWhile fun l => !isTerminatorLine l) = ls :=
    List.takeWhile_eq_self_iff.2 fun l hl => by simp [(hread l hl).2]
  rw [ofBytes, linesAfter_takeWhile, ← linesBefore, ← hls, linesAfter_encode, hall, String.empty_append]
  rfl

end TerminalRead

/-! ## Bytes that are text throughout -/

theorem typed_eq (source : String) : typed source = written (typedLines source) := rfl

theorem mem_typedLines (source : String) (l : List Char) (h : l ∈ typedLines source) :
    '\n' ∉ l ∧ isTerminatorLine l = false := by
  refine ⟨not_mem_of_mem_linesWith '\n' '\r' _ l ((List.takeWhile_sublist _).subset h), ?_⟩
  simpa using List.mem_takeWhile_imp h

theorem pieces_typed (source : String) : Code.pieces (typed source) .interactive = typedLines source ++ [[]] := by
  have hread := isTerminatorLine_of_mem_written (typedLines source) (mem_typedLines source)
  rw [Code.pieces, typed_eq, ← splitOn_written _ fun l hl => (mem_typedLines source l hl).1,
    List.takeWhile_eq_self_iff]
  intro p hp
  simpa [InputMode.endsAt] using hread p hp

/-- what is read of a text is assembled as the text is -/
theorem assemble_typed (source : String) :
    Code.assemble (typed source) .interactive = Code.assemble source .interactive := by
  rw [Code.assemble_eq_pieces, pieces_typed, Code.assembleAfter_append_blank]
  rfl

/-- the tokens of interactive input by the pieces that are read -/
theorem numbered_interactive (source : String) (h : source.utf8ByteSize ≤ ByteOffset.last) :
    (tokenize source .interactive).map (fun t => (t.lexeme.toList, t.span.line)) =
      numberedWords 1 (Code.pieces source .interactive) := by
  have hlay := (layout_tokenize (beforeTerminatorLine source) .file
    (le_trans (size_beforeTerminatorLine source) h)).numbered
  rw [tokenize_interactive source h, hlay]
  rcases Code.splitOn_beforeTerminatorLine source with hps | hps
  · exact congrArg _ hps
  · exact (congrArg _ hps).trans (numberedWords_append_blank 1 _)

/-- the lines of a text, written anew, are at most one byte longer, by the line feed behind the last of them -/
theorem size_written_lines (source : String) :
    (written (lines source.toList)).utf8ByteSize ≤ source.utf8ByteSize + 1 := by
  rw [← length_encode, ← length_encode, toList_written]
  induction source.toList using line_induction '\n' with
  | last p hp =>
    rw [lines, linesWith_last '\n' '\r' p hp]
    split
    · exact Nat.zero_le _
    · rw [List.flatMap_singleton, length_encode_line]
      exact le_rfl
  | line p l hp ih =>
    have hret : (encode (dropReturn '\r' p)).length ≤ (encode p).length := by
      rcases dropReturn_cases '\r' p with h | h
      · rw [h]
      · conv_rhs => rw [h, encode_append, List.length_append]
        exact Nat.le_add_right _ _
    rw [lines, linesWith_cons '\n' '\r' p l hp, ← lines, List.flatMap_cons, List.append_assoc, List.singleton_append,
      length_encode_line, length_encode_line]
    omega

theorem size_typed (source : String) : (typed source).utf8ByteSize ≤ source.utf8ByteSize + 1 := by
  have hprefix : (encode ((typedLines source).flatMap fun l => l ++ ['\n'])).length ≤
      (encode ((lines source.toList).flatMap fun l => l ++ ['\n'])).length :=
    (((List.takeWhile_prefix _).flatMap _).flatMap _).length_le
  rw [← toList_written, ← toList_written, length_encode, length_encode, ← typed_eq] at hprefix
  exact le_trans hprefix (size_written_lines source)

theorem alike_typed (source : String) (h : source.utf8ByteSize < ByteOffset.last) :
    List.Forall₂ (Token.Alike Span.OnOneLine) (tokenize source .interactive) (tokenize (typed source) .interactive) := by
  refine alike_of_numbered _ _ ?_
  rw [numbered_interactive source h.le, numbered_interactive (typed source) (le_trans (size_typed source) h),
    pieces_typed, numberedWords_append_blank]
  rcases Code.words_lines .interactive source.toList with hw | hw
  · exact numberedWords_congr 1 _ _ hw
  · exact (numberedWords_congr 1 _ _ hw).trans (numberedWords_append_blank 1 _)

/-! ## Bytes behind the terminator line -/

/-- the bytes are whole lines, a terminator line, and perhaps a line feed with anything behind it -/
structure EndsIn (bytes front line behind : List UInt8) : Prop where
  bytes_eq : bytes = front ++ (line ++ behind)
  whole : ∀ b ∈ front.getLast?, b = 10
  one_line : 10 ∉ line
  terminator : TerminalRead.isTerminator line = true
  cut : ∀ b ∈ behind.head?, b = 10

/-- only the lines in front of the terminator line are read -/
theorem ofBytes_of_endsIn (bytes front line behind : List UInt8) (h : EndsIn bytes front line behind) :
    TerminalRead.ofBytes bytes = TerminalRead.ofBytes front := by
  have hlines : ∃ line' rest, TerminalRead.isTerminator line' = true ∧
      linesWith 10 13 (line ++ behind) = line' :: rest := by
    cases behind with
    | nil =>
      have hne : line.isEmpty = false := by
        cases line with
        | nil => exact absurd h.terminator (by decide)
        | cons => rfl
      refine ⟨line, [], h.terminator, ?_⟩
      rw [List.append_nil, linesWith_last 10 13 line h.one_line, hne]
      rfl
    | cons b behind =>
      obtain rfl : b = 10 := h.cut b rfl
      exact ⟨_, _, TerminalRead.isTerminator_dropReturn line h.terminator, linesWith_cons 10 13 line behind h.one_line⟩
  obtain ⟨line', rest, hterm, hlines⟩ := hlines
  rw [TerminalRead.ofBytes, h.bytes_eq, linesWith_append 10 13 front _ h.whole, hlines]
  exact TerminalRead.linesAfter_append_terminator _ _ _ rest line' hterm

theorem Task.perform_congr (t : Task) (w : Wording) (bytes bytes' : List UInt8) (d : Directory)
    (h : TerminalRead.ofBytes bytes = TerminalRead.ofBytes bytes') : t.perform w bytes d = t.perform w bytes' d := by
  rw [Task.perform, Task.perform, h]

/-- **A terminal gives the text before the terminator line.** If the lines before the first terminator line are text:
- a text is read that has no terminator line, and a task that reads the terminal shows one prompt more than there are
  such lines, and does what its plan says;
- if all of the bytes are text, what is read has its instructions or its error, and the lexemes of its tokens on the
  lines that they are on, as far as the offsets fit.

And what follows the terminator line makes no difference to a task, text or not: exit code, both outputs and files are
the same, whatever the wording of failures and errors, as long as nothing but errors is logged. -/
theorem terminal_eq_text :
    (∀ bytes : List UInt8,
      (∀ line ∈ TerminalRead.linesBefore bytes, (TerminalRead.lineText? line).isSome = true) →
      ∃ text, TerminalRead.ofBytes bytes = ⟨some text, 1 + (TerminalRead.linesBefore bytes).length⟩ ∧
        (∀ p ∈ text.toList.splitOn '\n', isTerminatorLine p = false) ∧
        (∀ (t : Task) (w : Wording) (d : Directory), t.file = none → t.perform w bytes d =
          ((t.plan text .interactive).perform d).result w (t.prompts (1 + (TerminalRead.linesBefore bytes).length))) ∧
        ∀ source, String.fromUTF8? ⟨bytes.toArray⟩ = some source →
          Code.assemble text .interactive = Code.assemble source .interactive ∧
          (bytes.length < ByteOffset.last →
            List.Forall₂ (Token.Alike Span.OnOneLine) (tokenize source .interactive) (tokenize text .interactive))) ∧
    ∀ front line bytes bytes' behind behind' : List UInt8,
      EndsIn bytes front line behind → EndsIn bytes' front line behind' →
        ∀ (t : Task) (w : Wording) (d : Directory), t.perform w bytes d = t.perform w bytes' d := by
  refine ⟨fun bytes h => ?_, fun front line bytes bytes' behind behind' h h' t w d => ?_⟩
  · obtain ⟨ls, hls, hlen, hread⟩ := TerminalRead.ofBytes_of_lines bytes h
    rw [← hlen] at hread
    refine ⟨written ls, hread, isTerminatorLine_of_mem_written ls hls, fun t w d ht => ?_, fun source hsource => ?_⟩
    · exact t.perform_of_ofBytes w bytes d _ _ ht hread
    · have htyped := TerminalRead.ofBytes_of_text bytes source hsource
      have htext : written ls = typed source := by
        rw [hread] at htyped
        exact Option.some.inj (TerminalRead.mk.inj htyped).1
      have hlength : bytes.length = source.utf8ByteSize := by
        rw [encode_of_fromUTF8? bytes source hsource, length_encode]
      rw [htext, hlength]
      exact ⟨assemble_typed source, alike_typed source⟩
  · exact t.perform_congr w bytes bytes' d
      ((ofBytes_of_endsIn bytes front line behind h).trans (ofBytes_of_endsIn bytes' front line behind' h').symm)

/-- two lines, one with two returns and one with no line end; and a terminator line that is cut off, or has a byte behind
it that is no text -/
theorem terminal_eq_text_cut :
    (∀ line ∈ TerminalRead.linesBefore (encode "@ é\r\r\n2".toList), (TerminalRead.lineText? line).isSome = true) ∧
    String.fromUTF8? ⟨(encode "@ é\r\r\n2".toList).toArray⟩ = some "@ é\r\r\n2" ∧
    (encode "@ é\r\r\n2".toList).length < ByteOffset.last ∧
    EndsIn (encode "@ 1\n . \r".toList) (encode "@ 1\n".toList) (encode " . \r".toList) [] ∧
    EndsIn (encode "@ 1\n . \r\n".toList ++ [255]) (encode "@ 1\n".toList) (encode " . \r".toList) [10, 255] ∧
    (∃ text, TerminalRead.ofBytes (encode "@ é\r\r\n2".toList) = ⟨some text, 3⟩ ∧
      Code.assemble text .interactive = .error ⟨.illegalInstruction, 1, "@"⟩ ∧
      List.Forall₂ (Token.Alike Span.OnOneLine) (tokenize "@ é\r\r\n2" .interactive) (tokenize text .interactive)) ∧
    (Task.run none none).perform ⟨Failure.message, fun _ => ""⟩ (encode "@ 1\n . \r".toList) .empty =
      (Task.run none none).perform ⟨Failure.message, fun _ => ""⟩ (encode "@ 1\n . \r\n".toList ++ [255]) .empty := by
  have hsome : ∀ line ∈ TerminalRead.linesBefore (encode "@ é\r\r\n2".toList),
      (TerminalRead.lineText? line).isSome = true := by decide +kernel
  have hsource : String.fromUTF8? ⟨(encode "@ é\r\r\n2".toList).toArray⟩ = some "@ é\r\r\n2" := fromUTF8?_encode _
  have hsize : (encode "@ é\r\r\n2".toList).length < ByteOffset.last := by decide
  have hcut : EndsIn (encode "@ 1\n . \r".toList) (encode "@ 1\n".toList) (encode " . \r".toList) [] :=
    ⟨rfl, by simp [encode, String.utf8EncodeChar], by decide, by decide +kernel, by simp⟩
  have hwhole : EndsIn (encode "@ 1\n . \r\n".toList ++ [255]) (encode "@ 1\n".toList) (encode " . \r".toList)
      [10, 255] := ⟨rfl, by simp [encode, String.utf8EncodeChar], by decide, by decide +kernel, by simp⟩
  have hprompts : 1 + (TerminalRead.linesBefore (encode "@ é\r\r\n2".toList)).length = 3 := by decide +kernel
  obtain ⟨text, hread, -, -, hmeans⟩ := terminal_eq_text.1 _ hsome
  obtain ⟨hcode, htokens⟩ := hmeans _ hsource
  refine ⟨hsome, hsource, hsize, hcut, hwhole, ⟨text, hprompts ▸ hread, ?_, htokens hsize⟩, ?_⟩
  · rw [hcode]
    decide +kernel
  · exact terminal_eq_text.2 _ _ _ _ _ _ hcut hwhole (.run none none) _ _

end PolishCalc.Command

/-
Blank characters, lines and words of a text, and where a text ends.

Two classes of blank characters matter, and they differ: `isSeparator` is what stands between two words of a program or
an instruction line, and `isWhiteSpace` is what `trim` removes at both ends of a line before the line is compared with
the terminator. Lines are stated for any kind of element, since a terminal is read in bytes and a file in characters.

- `words_append_separator`: a separator parts the words before it from the words after it;
- `words_eq_nil`, `words_eq_singleton`: a text of separators has no word, a text without one is a word.
-/

namespace PolishCalc

namespace Text

/-! ## Blank characters -/

/-- the characters that separate words: space, tab, line feed, form feed, carriage return -/
def isSeparator (c : Char) : Bool :=
  c == ' ' || c == '\t' || c == '\n' || c == '\x0c' || c == '\r'

def isSeparatorByte (b : UInt8) : Bool := b == 32 || b == 9 || b == 10 || b == 12 || b == 13

/-- the code points of the Unicode property White_Space, as closed ranges -/
def whiteSpaceRanges : List (Nat × Nat) :=
  [(0x09, 0x0D), (0x20, 0x20), (0x85, 0x85), (0xA0, 0xA0), (0x1680, 0x1680), (0x2000, 0x200A), (0x2028, 0x2029),
    (0x202F, 0x202F), (0x205F, 0x205F), (0x3000, 0x3000)]

def isWhiteSpace (c : Char) : Bool :=
  whiteSpaceRanges.any fun r => r.1 ≤ c.toNat && c.toNat ≤ r.2

def trim (l : List Char) : List Char :=
  ((l.dropWhile isWhiteSpace).reverse.dropWhile isWhiteSpace).reverse

/-! ## Lines -/

/-- a line without the return `cr` at its end, if it has one there -/
def dropReturn {α : Type} [DecidableEq α] (cr : α) (l : List α) : List α :=
  if l.getLast? = some cr then l.dropLast else l

/-- the lines of a text: each ends with `lf`, and one return `cr` just before that belongs to the line's end too; what
follows the last `lf` is one more line unless it is empty, and keeps its returns -/
def linesWith {α : Type} [DecidableEq α] (lf cr : α) (l : List α) : List (List α) :=
  let parts := l.splitOn lf
  let rest := parts.getLast?.getD []
  parts.dropLast.map (dropReturn cr) ++ if rest.isEmpty then [] else [rest]

def lines (l : List Char) : List (List Char) := linesWith '\n' '\r' l

example : lines "a\r\n\n b\r".toList = ["a".toList, [], " b\r".toList] := by decide

/-! ## Words -/

/-- the maximal runs of characters without a separator -/
def words (l : List Char) : List (List Char) := (l.splitOnP isSeparator).filter fun w => !w.isEmpty

theorem words_append_separator (x y : List Char) (c : Char) (h : isSeparator c = true) :
    words (x ++ c :: y) = words x ++ words y := by
  unfold words
  rw [List.splitOnP_append_cons x y h, List.filter_append]

theorem words_eq_nil (l : List Char) (h : ∀ c ∈ l, isSeparator c = true) : words l = [] := by
  induction l with
  | nil => rfl
  | cons c l ih =>
    have hc := words_append_separator [] l c (h c List.mem_cons_self)
    rw [List.nil_append] at hc
    rw [hc, ih fun d hd => h d (List.mem_cons_of_mem c hd)]
    rfl

theorem words_eq_singleton (l : List Char) (hl : l ≠ []) (h : ∀ c ∈ l, isSeparator c = false) : words l = [l] := by
  unfold words
  rw [List.splitOnP_eq_singleton h]
  simp [hl]

end Text

/-! ## The end of a text -/

/-- where a text comes from: `file` text is read to its end, `interactive` text to the terminator line -/
inductive InputMode where
  | file
  | interactive
deriving DecidableEq, Repr

def terminator : String := "."

/-- a line that holds the terminator and nothing else but white space -/
def isTerminatorLine (line : List Char) : Bool := Text.trim line == terminator.toList

/-- whether `line` ends the input: only interactive input has a terminator -/
def InputMode.endsAt (mode : InputMode) (line : List Char) : Bool :=
  mode == .interactive && isTerminatorLine line

end PolishCalc

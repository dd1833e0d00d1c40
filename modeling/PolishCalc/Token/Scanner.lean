/-
From bytes to tokens, one byte at a time.

A `Scanner` does what a `Lexer` does, on the bytes of the text. Its offsets and line numbers have 32 bits and saturate:
`ByteCursor.bump` goes from one byte to the next, and from the last offset it goes nowhere. The loops of a scanner ask
for the next byte until they find what they look for, and nothing bounds them: `wordTurn`, `nextTurn` and `tokensTurn`
are their turns. A loop that has no end has no result.

- `lt_bump_iff`: a bump moves the cursor unless there is no byte or the offset is the last one;
- `bump_of_last`: a cursor at the last offset stays there.
-/
import PolishCalc.Control
import PolishCalc.Text
import PolishCalc.Token.Basic

namespace PolishCalc

open Text

/-! ## The cursor -/

def lastLine : Nat := 0xFFFFFFFF

/-- a place in front of a byte of a text: its offset, its line -/
structure ByteCursor where
  offset : ByteOffset
  line : Nat
deriving DecidableEq, Repr

namespace ByteCursor

def start : ByteCursor := ⟨.zero, 1⟩

/-- the byte at the cursor, nothing at the end of the bytes -/
def peek (input : ByteArray) (k : ByteCursor) : Option UInt8 := input[k.offset.toNat]?

/-- moves over one byte, as far as the bytes and the offsets go -/
def bump (input : ByteArray) (k : ByteCursor) : ByteCursor :=
  ⟨.ofNat (min (k.offset.toNat + 1) input.size), if k.peek input = some 10 then min (k.line + 1) lastLine else k.line⟩

theorem isSome_peek (input : ByteArray) (k : ByteCursor) :
    (k.peek input).isSome = true ↔ k.offset.toNat < input.size := by
  simp [peek]

theorem lt_bump_iff (input : ByteArray) (k : ByteCursor) :
    k.offset.toNat < (k.bump input).offset.toNat ↔
      (k.peek input).isSome = true ∧ k.offset.toNat ≠ ByteOffset.last := by
  have hle := k.offset.toNat_le
  simp only [bump, ByteOffset.ofNat, isSome_peek]
  omega

theorem bump_of_last (input : ByteArray) (k : ByteCursor) (h : k.offset.toNat = ByteOffset.last)
    (hk : (k.peek input).isSome = true) : (k.bump input).offset.toNat = ByteOffset.last := by
  rw [isSome_peek] at hk
  simp only [bump, ByteOffset.ofNat]
  omega

theorem le_bump (input : ByteArray) (k : ByteCursor) (h : (k.peek input).isSome = true) :
    k.offset.toNat ≤ (k.bump input).offset.toNat := by
  by_cases hk : k.offset.toNat = ByteOffset.last
  · exact Nat.le_of_eq (hk.trans (bump_of_last input k hk h).symm)
  · exact Nat.le_of_lt ((lt_bump_iff input k).2 ⟨h, hk⟩)

def left (input : ByteArray) (k : ByteCursor) : Nat := input.size - k.offset.toNat

/-- one turn of the search for the end of a word -/
def wordTurn (input : ByteArray) (k : ByteCursor) : Option (Turn ByteCursor ByteCursor) :=
  match k.peek input with
  | none => some (.done k)
  | some b => if isSeparatorByte b then some (.done k) else some (.again (k.bump input))

/-- moves to the next separator or the end of the bytes -/
def skipWord (input : ByteArray) (k : ByteCursor) : Option ByteCursor := runLoop (left input) (wordTurn input) k

end ByteCursor

/-! ## The scanner -/

/-- a lexer over the bytes of a text -/
structure Scanner where
  input : ByteArray
  mode : InputMode
  cursor : ByteCursor
  atLineStart : Bool
  finished : Bool

namespace Scanner

def ofText (text : String) (mode : InputMode) : Scanner := ⟨text.toUTF8, mode, .start, true, false⟩

/-- the text between two offsets, empty where it would begin or end inside a character -/
def slice (s : Scanner) (start stop : Nat) : String := (String.fromUTF8? (s.input.extract start stop)).getD ""

/-- the offset of the first line feed from an offset on, or of the end -/
def lineEnd (input : ByteArray) (i : Nat) : Nat :=
  if h : i < input.size then if input[i] = 10 then i else lineEnd input (i + 1) else i
termination_by input.size - i

def restOfLine (s : Scanner) : List Char :=
  (s.slice s.cursor.offset.toNat (lineEnd s.input s.cursor.offset.toNat)).toList

/-- a scanner that stands before the terminator line -/
def atTerminator (s : Scanner) : Bool :=
  s.atLineStart && s.mode == .interactive && isTerminatorLine s.restOfLine

def finish (s : Scanner) : Scanner := { s with atLineStart := false, finished := true }

/-- the token that starts at the cursor, and the scanner behind it -/
def word (s : Scanner) : Option (Token × Scanner) := do
  let k ← s.cursor.skipWord s.input
  return (⟨s.slice s.cursor.offset.toNat k.offset.toNat, .between s.cursor.line s.cursor.offset k.offset⟩,
    { s with cursor := k, atLineStart := false })

def left (s : Scanner) : Nat := s.cursor.left s.input

/-- one turn of the search for the next token, which there is none of at the end of the input -/
def nextTurn (s : Scanner) : Option (Turn Scanner (Option Token × Scanner)) :=
  if s.finished then some (.done (none, s))
  else if s.atTerminator then some (.done (none, s.finish))
  else
    match s.cursor.peek s.input with
    | none => some (.done (none, s.finish))
    | some b =>
      if isSeparatorByte b then some (.again { s with cursor := s.cursor.bump s.input, atLineStart := b == 10 })
      else s.word.map fun r => .done (some r.1, r.2)

/-- the next token, or none at the end of the input, and the scanner after that -/
def next (s : Scanner) : Option (Option Token × Scanner) := runLoop left nextTurn s

/-- one turn of the search for all tokens, with those collected so far -/
def tokensTurn : Array Token × Scanner → Option (Turn (Array Token × Scanner) (List Token))
  | (acc, s) =>
    match s.next with
    | none => none
    | some (none, _) => some (.done acc.toList)
    | some (some t, s') => some (.again (acc.push t, s'))

/-- the tokens up to the end of the input, after those collected in `acc` -/
def collect (acc : Array Token) (s : Scanner) : Option (List Token) := runLoop (fun p => p.2.left) tokensTurn (acc, s)

/-- the tokens of a text, byte by byte -/
def tokenize (text : String) (mode : InputMode) : Option (List Token) := (ofText text mode).collect #[]

end Scanner

end PolishCalc

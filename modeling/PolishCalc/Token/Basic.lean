/-
Tokens: where they stand in a text, and the classes of their lexemes.

A `ByteOffset` counts bytes and has a last value, `ByteOffset.last`: `ofNat` takes every larger count to it. A `Span` is
a line and a range of offsets in order. A token is a word of the text with its span. The text itself does not classify
words; whoever reads a token asks which class its lexeme is in: an action marker, an operator symbol
(`PolishCalc.Operator`), an identifier or a literal.

- `eq_of_toNat`: an offset is the number of its bytes.
-/
import PolishCalc.Decimal

namespace PolishCalc

/-! ## Positions -/

def ByteOffset.last : Nat := 0xFFFFFFFF

/-- a position in a text, in bytes from its start -/
structure ByteOffset where
  toNat : Nat
  toNat_le : toNat ≤ ByteOffset.last
deriving DecidableEq, Repr

namespace ByteOffset

def zero : ByteOffset := ⟨0, Nat.zero_le last⟩

/-- the offset `n`, or the largest offset when `n` is past it -/
def ofNat (n : Nat) : ByteOffset := ⟨min n last, Nat.min_le_right n last⟩

theorem eq_of_toNat (a b : ByteOffset) (h : a.toNat = b.toNat) : a = b := by
  obtain ⟨a, _⟩ := a
  obtain ⟨b, _⟩ := b
  cases h
  rfl

end ByteOffset

/-- where a token stands: its line, counted from 1, and the bytes from `start` up to `stop` -/
structure Span where
  line : Nat
  start : ByteOffset
  stop : ByteOffset
  start_le_stop : start.toNat ≤ stop.toNat
deriving DecidableEq, Repr

namespace Span

/-- the span between two offsets, given in either order -/
def between (line : Nat) (a b : ByteOffset) : Span :=
  if h : a.toNat ≤ b.toNat then ⟨line, a, b, h⟩ else ⟨line, b, a, Nat.le_of_not_le h⟩

theorem between_of_le (line : Nat) (a b : ByteOffset) (h : a.toNat ≤ b.toNat) : between line a b = ⟨line, a, b, h⟩ :=
  dif_pos h

def length (s : Span) : Nat := s.stop.toNat - s.start.toNat

def isEmpty (s : Span) : Bool := s.start == s.stop

/-- the span as an error message names it: its line only -/
def display (s : Span) : String := "line " ++ s.line.repr

end Span

/-! ## Tokens -/

/-- a word of a text and where it stands -/
structure Token where
  lexeme : String
  span : Span
deriving DecidableEq, Repr

/-- the marker of an assignment, `= name expression` -/
def assignMarker : String := "="

/-- the marker of a print, `@ expression` -/
def printMarker : String := "@"

namespace Lexeme

def isMarker (s : String) : Bool := s == assignMarker || s == printMarker

/-- a lexeme that can name a variable: it starts with an ASCII letter, and anything may follow -/
def isIdentifier (s : String) : Bool :=
  match s.toList with
  | [] => false
  | c :: _ => c.isAlpha

/-- the value of a lexeme that is a 32-bit literal -/
def literal? (s : String) : Option Int32 := Decimal.read? s

end Lexeme

end PolishCalc

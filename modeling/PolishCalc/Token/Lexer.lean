/-
From text to tokens.

A `Cursor` stands between two characters and knows its byte offset and its line. `Cursor.bump` moves it over the next
character. Offsets are bounded, and a cursor whose next position would be past the last offset stays where it is. A
lexer on such a cursor would bump it for ever: its scan is `stalled`, and no token comes out of it. Only a text of 2^32
bytes or more gets there.

A `Lexer` walks over separators and hands out the words between them. In interactive mode it looks at each line before
it reads it, and the terminator line ends the input. A lexer that has come to the end of its input remembers that.

- `length_rest_bump`: a bump that moves the cursor leaves less text;
- `length_next`: a token leaves less text, so that `tokens` ends.
-/
import PolishCalc.Text
import PolishCalc.Token.Basic

namespace PolishCalc

open Text

/-! ## The cursor -/

/-- a place between two characters of a text: the text that follows, its byte offset, its line -/
structure Cursor where
  rest : List Char
  offset : ByteOffset
  line : Nat

namespace Cursor

def start (text : List Char) : Cursor := ⟨text, .zero, 1⟩

/-- moves over the next character; stays put at the end of the text and where the next offset does not fit -/
def bump (k : Cursor) : Cursor :=
  match k.rest with
  | [] => k
  | c :: r =>
    if h : k.offset.toNat + c.utf8Size ≤ ByteOffset.last then
      ⟨r, ⟨k.offset.toNat + c.utf8Size, h⟩, if c = '\n' then k.line + 1 else k.line⟩
    else k

/-- whether a bump moves the cursor -/
def canMove (k : Cursor) : Bool := k.offset.toNat < k.bump.offset.toNat

theorem length_rest_bump (k : Cursor) (h : k.canMove = true) : k.bump.rest.length < k.rest.length := by
  simp only [canMove, decide_eq_true_eq] at h
  unfold bump at h ⊢
  split
  · next hr => simp [hr] at h
  · next c r hr =>
    simp only [hr] at h ⊢
    split at h
    · next hfit => simp [hfit]
    · omega

def restOfLine (k : Cursor) : List Char := k.rest.takeWhile (· != '\n')

def word (k : Cursor) : List Char := k.rest.takeWhile fun c => !isSeparator c

/-- the cursor after the word it stands at, or nothing when it gets stuck inside the word -/
def afterWord? (k : Cursor) : Option Cursor :=
  match k.rest with
  | [] => some k
  | c :: _ =>
    if isSeparator c then some k
    else if _h : k.canMove = true then k.bump.afterWord? else none
termination_by k.rest.length
decreasing_by exact length_rest_bump k _h

theorem length_afterWord? (k k' : Cursor) (h : k.afterWord? = some k') : k'.rest.length ≤ k.rest.length := by
  fun_induction afterWord? k with
  | case1 k hr => cases h; omega
  | case2 k c r hr hs => cases h; omega
  | case3 k c r hr hs hm ih => exact Nat.le_trans (ih h) (Nat.le_of_lt (length_rest_bump k hm))
  | case4 => simp at h

end Cursor

/-! ## The lexer -/

structure Lexer where
  mode : InputMode
  cursor : Cursor
  atLineStart : Bool
  finished : Bool

/-- what a lexer answers when it is asked for the next token -/
inductive Scan where
  /-- a token, and the lexer that goes on after it -/
  | token (t : Token) (after : Lexer)
  /-- the end of the input, and the lexer that has come to it -/
  | finished (after : Lexer)
  /-- no answer ever: the cursor can move no further although text is left -/
  | stalled

namespace Lexer

def ofText (text : String) (mode : InputMode) : Lexer := ⟨mode, Cursor.start text.toList, true, false⟩

/-- a lexer that stands before the terminator line -/
def atTerminator (lx : Lexer) : Bool := lx.atLineStart && lx.mode.endsAt lx.cursor.restOfLine

def finish (lx : Lexer) : Lexer := ⟨lx.mode, lx.cursor, false, true⟩

def next (lx : Lexer) : Scan :=
  if lx.finished then .finished lx
  else if lx.atTerminator then .finished lx.finish
  else
    match lx.cursor.rest with
    | [] => .finished lx.finish
    | c :: _ =>
      if isSeparator c then
        if _h : lx.cursor.canMove = true then next ⟨lx.mode, lx.cursor.bump, c == '\n', false⟩ else .stalled
      else
        match lx.cursor.afterWord? with
        | none => .stalled
        | some k =>
          .token ⟨String.ofList lx.cursor.word, Span.between lx.cursor.line lx.cursor.offset k.offset⟩
            ⟨lx.mode, k, false, false⟩
termination_by lx.cursor.rest.length
decreasing_by exact Cursor.length_rest_bump _ _h

theorem length_next (lx after : Lexer) (t : Token) (h : lx.next = .token t after) :
    after.cursor.rest.length < lx.cursor.rest.length := by
  fun_induction next lx with
  | case1 => simp at h
  | case2 => simp at h
  | case3 => simp at h
  | case4 lx hopen hterm c r hr hs hm ih => exact Nat.lt_trans (ih h) (Cursor.length_rest_bump _ hm)
  | case5 => simp at h
  | case6 => simp at h
  | case7 lx hopen hterm c r hr hs k hk =>
    cases h
    rw [Cursor.afterWord?, hr] at hk
    simp only [hs, Bool.false_eq_true, if_false, dite_eq_ite] at hk
    obtain ⟨hm, hk⟩ := Option.ite_none_right_eq_some.1 hk
    exact Nat.lt_of_le_of_lt (Cursor.length_afterWord? _ _ hk) (Cursor.length_rest_bump _ hm)

/-- asks for the next token; a stalled lexer has none to give and stays as it is -/
def take (lx : Lexer) : Option Token × Lexer :=
  match lx.next with
  | .token t after => (some t, after)
  | .finished after => (none, after)
  | .stalled => (none, lx)

/-- the tokens that the lexer hands out from here on, after those collected in `acc`; a stalled lexer, of which no more
come, counts as one at the end of its input -/
def collect (acc : Array Token) (lx : Lexer) : List Token :=
  match _h : lx.next with
  | .token t after => collect (acc.push t) after
  | .finished _ => acc.toList
  | .stalled => acc.toList
termination_by lx.cursor.rest.length
decreasing_by exact length_next _ _ _ _h

def tokens (lx : Lexer) : List Token := collect #[] lx

end Lexer

/-- the tokens of a text; of a text of 2^32 bytes or more, those that come before the lexer is stalled -/
def tokenize (text : String) (mode : InputMode) : List Token := (Lexer.ofText text mode).tokens

end PolishCalc

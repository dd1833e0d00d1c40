/-
From tokens to programs.

A parser takes tokens from the front of a sequence; whether it succeeds or fails, it leaves the tokens that it has not
taken. Every operator stands before its operands and every action starts with a marker, so one token of lookahead
decides everything. Operators nest at most as deep as a limit: `expr limit room` may go down `room` more levels.

- `takes_exprWithin`, `takes_action`: an expression or an action takes at least one token, so that `program` ends.
-/
import PolishCalc.Program.Basic
import PolishCalc.Program.ParseError
import PolishCalc.Token.Lexer

namespace PolishCalc

/-- a parser: the rest of the tokens is its state -/
abbrev Parser (α : Type) := EStateM ParseError (List Token) α

namespace Parser

def defaultNesting : Nat := 256

/-- the next token, left where it is -/
def peek? : Parser (Option Token) := fun ts => .ok ts.head? ts

def next? : Parser (Option Token)
  | [] => .ok none []
  | t :: ts => .ok (some t) ts

/-- takes the next token; at the end of the tokens the error names `label` -/
def expect (label : String) : Parser Token
  | [] => .error (.prematureEnd [label]) []
  | t :: ts => .ok t ts

/-- takes the first token of an expression; an action marker is no such token and stays -/
def exprHead : Parser Token
  | [] => .error (.prematureEnd ["expression"]) []
  | t :: ts => if Lexeme.isMarker t.lexeme then .error (.prematureEndAt t "expression") (t :: ts) else .ok t ts

/-- parses an expression in which operators nest at most `room` deep -/
def exprWithin (limit : Nat) (room : Nat) : Parser Expr := do
  let t ← exprHead
  match UnaryOp.ofSymbol? t.lexeme, BinaryOp.ofSymbol? t.lexeme with
  | some op, _ =>
    match room with
    | 0 => throw (.nestingLimitExceeded t limit)
    | room + 1 => return .unary op (← exprWithin limit room)
  | none, some op =>
    match room with
    | 0 => throw (.nestingLimitExceeded t limit)
    | room + 1 =>
      let l ← exprWithin limit room
      let r ← exprWithin limit room
      return .binary op l r
  | none, none =>
    if Lexeme.isIdentifier t.lexeme then return .var t.lexeme
    else
      match Lexeme.literal? t.lexeme with
      | some v => return .const v
      | none => throw (.illegalOperator t)

def expr (limit : Nat) : Parser Expr := exprWithin limit limit

def action (limit : Nat) : Parser Action := do
  let marker ← expect "action"
  if marker.lexeme = assignMarker then
    let target ← expect "assignment target"
    if Lexeme.isIdentifier target.lexeme then return .assign target.lexeme (← expr limit)
    else throw (.illegalTarget target)
  else if marker.lexeme = printMarker then return .print (← expr limit)
  else throw (.illegalAction marker)

/-! ## Progress -/

/-- a parser that leaves no more tokens than it was given when it succeeds, and fewer by at least `n` -/
def Takes {α : Type} (n : Nat) (p : Parser α) : Prop :=
  ∀ ts a rest, p ts = .ok a rest → rest.length + n ≤ ts.length

theorem takes_pure {α : Type} (a : α) : Takes 0 (pure a : Parser α) := by
  intro ts b rest h
  cases h
  exact Nat.le_refl _

theorem takes_throw {α : Type} (n : Nat) (e : ParseError) : Takes n (throw e : Parser α) := by
  intro ts b rest h
  cases h

theorem takes_bind {α β : Type} (m n : Nat) (p : Parser α) (f : α → Parser β) (hp : Takes m p)
    (hf : ∀ a, Takes n (f a)) : Takes (m + n) (p >>= f) := by
  intro ts b rest h
  simp only [bind, EStateM.bind] at h
  split at h
  · next a mid hmid =>
    have h1 := hp _ _ _ hmid
    have h2 := hf a _ _ _ h
    omega
  · cases h

theorem takes_weaken {α : Type} (m n : Nat) (p : Parser α) (hp : Takes m p) (h : n ≤ m) : Takes n p := by
  intro ts a rest hr
  have := hp _ _ _ hr
  omega

theorem takes_expect (label : String) : Takes 1 (expect label) := by
  intro ts a rest h
  cases ts <;> simp only [expect] at h <;> cases h
  simp

theorem takes_exprHead : Takes 1 exprHead := by
  intro ts a rest h
  cases ts with
  | nil => simp [exprHead] at h
  | cons t ts =>
    simp only [exprHead] at h
    split at h <;> cases h
    simp

theorem takes_exprWithin (limit room : Nat) : Takes 1 (exprWithin limit room) := by
  induction room with
  | zero =>
    unfold exprWithin
    refine takes_bind 1 0 _ _ takes_exprHead fun t => ?_
    split
    · exact takes_throw _ _
    · exact takes_throw _ _
    · split
      · exact takes_pure _
      · split
        · exact takes_pure _
        · exact takes_throw _ _
  | succ room ih =>
    unfold exprWithin
    refine takes_bind 1 0 _ _ takes_exprHead fun t => ?_
    have ih0 : Takes 0 (exprWithin limit room) := takes_weaken 1 0 _ ih (by omega)
    split
    · exact takes_bind 0 0 _ _ ih0 fun e => takes_pure _
    · exact takes_bind 0 0 _ _ ih0 fun l => takes_bind 0 0 _ _ ih0 fun r => takes_pure _
    · split
      · exact takes_pure _
      · split
        · exact takes_pure _
        · exact takes_throw _ _

theorem takes_action (limit : Nat) : Takes 1 (action limit) := by
  have h0 : Takes 0 (expr limit) := takes_weaken 1 0 _ (takes_exprWithin limit limit) (by omega)
  refine takes_bind 1 0 _ _ (takes_expect _) fun marker => ?_
  split
  · refine takes_bind 0 0 _ _ (takes_weaken 1 0 _ (takes_expect _) (by omega)) fun target => ?_
    split
    · exact takes_bind 0 0 _ _ h0 fun e => takes_pure _
    · exact takes_throw _ _
  · split
    · exact takes_bind 0 0 _ _ h0 fun e => takes_pure _
    · exact takes_throw _ _

/-! ## Whole programs -/

/-- parses actions until no token is left, and puts them behind those in `acc` -/
def actionsAfter (limit : Nat) (acc : Array Action) (ts : List Token) : EStateM.Result ParseError (List Token) Program :=
  match ts with
  | [] => .ok acc.toList []
  | t :: ts =>
    match _h : action limit (t :: ts) with
    | .ok a rest => actionsAfter limit (acc.push a) rest
    | .error e rest => .error e rest
termination_by ts.length
decreasing_by exact takes_action limit _ _ _ _h

def program (limit : Nat) : Parser Program := actionsAfter limit #[]

end Parser

def Program.ofTokens (limit : Nat) (ts : List Token) : Except ParseError Program :=
  match Parser.program limit ts with
  | .ok p _ => .ok p
  | .error e _ => .error e

/-- the program that a text spells; of a text of 2^32 bytes or more, the one that its tokens spell up to where the lexer
is stalled -/
def Program.ofText (text : String) (mode : InputMode) : Except ParseError Program :=
  Program.ofTokens Parser.defaultNesting (tokenize text mode)

end PolishCalc

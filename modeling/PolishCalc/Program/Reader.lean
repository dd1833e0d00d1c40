/-
A parser that is kept between calls.

A `Reader` holds the tokens that are left, the nesting limit, and a counter of the operators it is inside of. The counter
is kept by hand: it goes one up before the operands of an operator are parsed, unless it has come to the limit, and one
down after them, whether they were parsed or not. The values that the counter is set to are written down beside it,
where no parser looks at them.

`Parser.exprWithin` does without a counter, since the room that is left comes down with the recursion.
-/
import PolishCalc.Program.Parser

namespace PolishCalc

/-- a parser that is kept between calls -/
structure Reader where
  limit : Nat
  tokens : List Token
  /-- how many operators the parser is inside of -/
  depth : Nat
  /-- the values that the depth was set to, the latest first -/
  depths : List Nat
deriving DecidableEq, Repr

/-- a computation on a reader; when it fails, the reader is left as it was at that moment -/
abbrev Reading (α : Type) := EStateM ParseError Reader α

namespace Reader

def ofTokens (limit : Nat) (ts : List Token) : Reader := ⟨limit, ts, 0, [0]⟩

/-- sets the depth, and writes it down -/
def setDepth (r : Reader) (d : Nat) : Reader := ⟨r.limit, r.tokens, d, d :: r.depths⟩

/-- takes tokens as a parser does -/
def onTokens {α : Type} (p : Parser α) : Reading α := fun r =>
  match p r.tokens with
  | .ok a ts => .ok a ⟨r.limit, ts, r.depth, r.depths⟩
  | .error e ts => .error e ⟨r.limit, ts, r.depth, r.depths⟩

/-- counts the operator `t`, unless the depth has come to the limit -/
def enter (t : Token) : Reading Unit := fun r =>
  if r.limit ≤ r.depth then .error (.nestingLimitExceeded t r.limit) r else .ok () (r.setDepth (r.depth + 1))

/-- counts an operator no longer -/
def leave (r : Reader) : Reader := r.setDepth (r.depth - 1)

/-- parses the operands of the operator `t`; the depth is restored whether they were parsed or not -/
def nested {α : Type} (t : Token) (p : Reading α) : Reading α := fun r =>
  match enter t r with
  | .error e r => .error e r
  | .ok _ r =>
    match p r with
    | .ok a r => .ok a r.leave
    | .error e r => .error e r.leave

/-- parses an expression when at most so many tokens are left -/
def exprUpTo : Nat → Reading Expr
  | 0 => throw (.prematureEnd ["expression"])
  | n + 1 => do
    let t ← onTokens Parser.exprHead
    match UnaryOp.ofSymbol? t.lexeme, BinaryOp.ofSymbol? t.lexeme with
    | some op, _ => nested t do
      return .unary op (← exprUpTo n)
    | none, some op => nested t do
      let l ← exprUpTo n
      let r ← exprUpTo n
      return .binary op l r
    | none, none =>
      if Lexeme.isIdentifier t.lexeme then return .var t.lexeme
      else
        match Lexeme.literal? t.lexeme with
        | some v => return .const v
        | none => throw (.illegalOperator t)

def expr : Reading Expr := fun r => exprUpTo r.tokens.length r

def action : Reading Action := do
  let marker ← onTokens (Parser.expect "action")
  if marker.lexeme = assignMarker then
    let target ← onTokens (Parser.expect "assignment target")
    if Lexeme.isIdentifier target.lexeme then return .assign target.lexeme (← expr)
    else throw (.illegalTarget target)
  else if marker.lexeme = printMarker then return .print (← expr)
  else throw (.illegalAction marker)

/-- parses actions until no token is left, of which there are at most so many, and puts them behind those in `acc` -/
def actionsUpTo : Nat → Array Action → Reading Program
  | 0, acc, r => .ok acc.toList r
  | n + 1, acc, r =>
    if r.tokens.isEmpty then .ok acc.toList r
    else
      match action r with
      | .ok a r => actionsUpTo n (acc.push a) r
      | .error e r => .error e r

def program : Reading Program := fun r => actionsUpTo r.tokens.length #[] r

end Reader

end PolishCalc

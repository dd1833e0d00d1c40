/-
Why a token sequence is no program.

An error has a kind, the labels of what was expected, and, unless the tokens simply ran out, the offending lexeme with
its span.
-/
import PolishCalc.Token.Basic

namespace PolishCalc

inductive ParseError.Kind where
  /-- an action starts with something other than a marker -/
  | illegalAction
  /-- an expression token is no operator, identifier or literal -/
  | illegalOperator
  /-- an assignment to something that is no identifier -/
  | illegalTarget
  /-- the tokens end, or the next action starts, inside an action -/
  | prematureEnd
  /-- operators are nested deeper than the limit -/
  | nestingLimitExceeded
deriving DecidableEq, Repr

structure ParseError where
  kind : ParseError.Kind
  span : Option Span
  expected : List String
  found : Option String
deriving DecidableEq, Repr

def ParseError.Kind.text : ParseError.Kind → String
  | illegalAction => "illegal action"
  | illegalOperator => "illegal operator"
  | illegalTarget => "illegal assignment target"
  | prematureEnd => "premature end of program"
  | nestingLimitExceeded => "nesting limit exceeded"

namespace ParseError

/-- an error at a token -/
def atToken (kind : Kind) (t : Token) (expected : List String) : ParseError :=
  ⟨kind, some t.span, expected, some t.lexeme⟩

/-- an action that starts with the token `t` -/
def illegalAction (t : Token) : ParseError := atToken .illegalAction t [assignMarker, printMarker]

/-- the token `t` where an expression should start -/
def illegalOperator (t : Token) : ParseError := atToken .illegalOperator t ["expression"]

/-- an assignment to the token `t` -/
def illegalTarget (t : Token) : ParseError := atToken .illegalTarget t ["identifier"]

/-- the tokens ran out -/
def prematureEnd (expected : List String) : ParseError := ⟨.prematureEnd, none, expected, none⟩

/-- the marker `t` inside an unfinished action -/
def prematureEndAt (t : Token) (expected : String) : ParseError := atToken .prematureEnd t [expected]

/-- the operator `t` below as many operators as the limit allows -/
def nestingLimitExceeded (t : Token) (limit : Nat) : ParseError :=
  atToken .nestingLimitExceeded t ["nesting <= " ++ limit.repr]

/-- the error as it is reported: what was found, where, and what was expected -/
def message (e : ParseError) : String :=
  let found := match e.found with
    | some s => ": `" ++ s ++ "`"
    | none => ""
  let place := match e.span with
    | some s => " (" ++ s.display ++ ")"
    | none => ""
  let expected := if e.expected.isEmpty then "" else ", expected " ++ " or ".intercalate e.expected
  e.kind.text ++ found ++ place ++ expected

end ParseError

end PolishCalc

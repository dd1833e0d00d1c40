/-
What a command does to the world, as data.

A plan prints texts, logs errors and writes files in order and ends in success or in a failure. `perform` carries it out
on a `Directory`; a failed write ends the plan with that failure, so what would have come after it does not happen. What
is logged below the level of errors, and only when it is asked for, is no part of a plan.

- `perform_print`: a plan that prints a text first prints it before everything else.
-/
import PolishCalc.Command.Directory
import PolishCalc.Execution

namespace PolishCalc.Command

/-- why a command failed: a message, and the cause outside the program if there is one -/
structure Failure where
  message : String
  cause : Option String
deriving DecidableEq, Repr

namespace Failure

/-- a failure of the program itself -/
def ofMessage (message : String) : Failure := ⟨message, none⟩

def reading (path : String) (cause : String) : Failure := ⟨"failed to read " ++ path, some cause⟩

def writing (path : String) (cause : String) : Failure := ⟨"failed to write " ++ path, some cause⟩

/-- a terminal line that is not text -/
def terminal : Failure := ⟨"failed to read from terminal", some FileError.notText.text⟩

end Failure

/-- two runs of one program that came to different executions, which is logged as an error -/
structure Disagreement where
  interpreted : Execution
  machined : Execution

/-- what is to be done, in order -/
inductive Plan where
  | print (text : String) (next : Plan)
  | write (path : String) (text : String) (next : Plan)
  | log (e : Disagreement) (next : Plan)
  /-- ends in success -/
  | done
  /-- ends in failure -/
  | fail (f : Failure)

/-- what came of a plan: the output, the errors that were logged, the failure if there was one, and the files -/
structure Outcome where
  output : String
  logged : List Disagreement
  failure : Option Failure
  directory : Directory

def Plan.perform : Plan → Directory → Outcome
  | print text next, d =>
    let o := next.perform d
    { o with output := text ++ o.output }
  | write path text next, d =>
    match d.write path text with
    | .ok d' => next.perform d'
    | .error e => ⟨"", [], some (.writing path e.text), d⟩
  | log e next, d =>
    let o := next.perform d
    { o with logged := e :: o.logged }
  | done, d => ⟨"", [], none, d⟩
  | fail f, d => ⟨"", [], some f, d⟩

theorem Plan.perform_print (text : String) (next : Plan) (d : Directory) :
    (Plan.print text next).perform d = { next.perform d with output := text ++ (next.perform d).output } := rfl

end PolishCalc.Command

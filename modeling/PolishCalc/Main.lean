/-
The command line program: reads arguments, terminal and files, and carries out the plan of the command.
-/
import PolishCalc.Command.Session

namespace PolishCalc.Command

def causeText : IO.Error → String
  | .noFileOrDirectory _ _ _ => FileError.missing.text
  | .inappropriateType _ code _ => if code = 21 then FileError.isDirectory.text else FileError.notDirectory.text
  | .invalidArgument _ code details => if code = 36 then FileError.nameTooLong.text else details
  | e => toString e

def readText (path : String) : IO (Except Failure String) := do
  try
    match String.fromUTF8? (← IO.FS.readBinFile path) with
    | some text => return .ok text
    | none => return .error (.reading path FileError.notText.text)
  catch e => return .error (.reading path (causeText e))

/-- the bytes of the terminal up to the end of the next line -/
partial def readLine (terminal : IO.FS.Stream) (line : List UInt8) : IO (List UInt8) := do
  match (← terminal.read 1).toList with
  | [] => return line.reverse
  | b :: _ => if b = 10 then return (b :: line).reverse else readLine terminal (b :: line)

/-- the bytes of the terminal up to the line that ends the reading, with a prompt before each line -/
partial def readTerminal (prompt : String) (terminal : IO.FS.Stream) (bytes : List UInt8) : IO (List UInt8) := do
  IO.eprint prompt
  let line ← readLine terminal []
  let all := bytes ++ line
  match Text.linesWith 10 13 line with
  | [] => return all
  | text :: _ => if TerminalRead.isLast text then return all else readTerminal prompt terminal all

/-- carries out a plan and answers with the exit code -/
def Plan.execute : Plan → IO UInt32
  | .print text next => do
    IO.print text
    next.execute
  | .write path text next => do
    let written : Except Failure Unit ←
      try
        IO.FS.writeFile path text
        pure (.ok ())
      catch e => pure (.error (.writing path (causeText e)))
    match written with
    | .ok _ => next.execute
    | .error f => do
      IO.eprint (Wording.standard.report f)
      return 1
  | .log e next => do
    IO.eprint (Wording.standard.logged e)
    next.execute
  | .done => return 0
  | .fail f => do
    IO.eprint (Wording.standard.report f)
    return 1

def Task.execute (t : Task) : IO UInt32 := do
  match t.file with
  | some path => (t.planFor (← readText path)).execute
  | none =>
    let bytes ← readTerminal t.prompt (← IO.getStdin) []
    (t.planFor (TerminalRead.ofBytes bytes).answer).execute

end PolishCalc.Command

def main (args : List String) : IO UInt32 := do
  match PolishCalc.Command.Invocation.ofArgs args with
  | .task t => t.execute
  | .version =>
    IO.print PolishCalc.Command.versionText
    return 0
  | .help =>
    IO.print PolishCalc.Command.usageText
    return 0
  | .usageError =>
    IO.eprint PolishCalc.Command.usageText
    return 2

/-
The two tasks of the program.

`run` reads a program, echoes its words, displays it, runs it on its tree, and then compiles it and runs the code on the
machine; both runs must leave the same execution. `machine` assembles and executes instructions. A task without a file
name reads the terminal, whose text ends at the terminator line.

How a failure and a logged error are worded is left to others: a task is performed with any `Wording`. Nothing is logged
but errors, as when no more is asked for; what a task logs beyond that on request is left out.
-/
import PolishCalc.Command.Plan
import PolishCalc.Command.Terminal
import PolishCalc.Compilation

namespace PolishCalc.Command

/-! ## What is to be done -/

/-- the words of each line that has any, behind a space -/
def echo (source : String) : String :=
  String.join <| (Text.lines source.toList).map fun line =>
    match tokenize (String.ofList line) .file with
    | [] => ""
    | ts => " " ++ " ".intercalate (ts.map Token.lexeme) ++ "\n"

/-- values in brackets, with a comma and a space between two of them -/
def listed (values : Array Int32) : String := "[" ++ ", ".intercalate (values.toList.map Decimal.ofInt32) ++ "]"

/-- runs a code on a fresh machine and goes on with the execution -/
def machinePlan (code : Code) (next : Execution → Plan) : Plan :=
  .print ("(machine) instructions:\n" ++ code.render ++ "(machine) executing...\n") <|
    match Machine.run (Machine.load code OperandStack.defaultLimit) with
    | .error e _ => .fail (.ofMessage e.message)
    | .ok _ m =>
      .print ("(machine) stack: " ++ listed m.work.stack.values ++ "\n" ++ m.work.execution.display) <|
        next m.work.execution

def writePlan (path : Option String) (text : String) (next : Plan) : Plan :=
  match path with
  | none => next
  | some path => .write path text next

/-- runs a program on both paths -/
def runPlan (source : String) (mode : InputMode) (emit : Option String) : Plan :=
  .print ("(prefix)\n" ++ echo source) <|
    match Program.ofText source mode with
    | .error e => .fail (.ofMessage e.message)
    | .ok p =>
      .print ("(infix)\n" ++ p.display ++ "(interpreter) running...\n") <|
        match p.run with
        | .error e => .fail (.ofMessage e.message)
        | .ok x =>
          .print x.display <|
            writePlan emit p.codeText <|
              match Code.assemble p.codeText .file with
              | .error e => .fail (.ofMessage e.message)
              | .ok code =>
                machinePlan code fun y =>
                  if x = y then .done
                  else .log ⟨x, y⟩ (.fail (.ofMessage "interpreter and machine produced different results"))

def assemblePlan (source : String) (mode : InputMode) : Plan :=
  match Code.assemble source mode with
  | .error e => .fail (.ofMessage e.message)
  | .ok code => machinePlan code fun _ => .done

inductive Task where
  /-- run a program on both paths; write its code to the file `emit` if one is named -/
  | run (file : Option String) (emit : Option String)
  /-- assemble and execute instructions -/
  | machine (file : Option String)
deriving DecidableEq, Repr

namespace Task

/-- the file to read; the terminal when there is none -/
def file : Task → Option String
  | run file _ => file
  | machine file => file

/-- what is shown on the terminal before each line -/
def prompt : Task → String
  | run _ _ => "> "
  | machine _ => "# "

/-- what to do with the text that was read -/
def plan (t : Task) (source : String) (mode : InputMode) : Plan :=
  match t with
  | run _ emit => runPlan source mode emit
  | machine _ => assemblePlan source mode

/-- what to do, given what the terminal or the directory answered -/
def planFor (t : Task) (answer : Except Failure String) : Plan :=
  match answer with
  | .error f => .fail f
  | .ok source => t.plan source (if t.file.isNone then .interactive else .file)

end Task

/-- the text that the terminal gave, or the failure to read it -/
def TerminalRead.answer (r : TerminalRead) : Except Failure String :=
  match r.text with
  | some text => .ok text
  | none => .error .terminal

/-! ## What is left of it -/

/-- how failures and logged errors are worded -/
structure Wording where
  failure : Failure → String
  /-- a line of the log -/
  logged : Disagreement → String

def Wording.report (w : Wording) (f : Failure) : String := "Error: " ++ w.failure f ++ "\n"

/-- what a task leaves: exit code, both outputs, files -/
structure Result where
  code : Nat
  output : String
  errors : String
  directory : Directory

/-- the result of a plan, after prompts -/
def Outcome.result (o : Outcome) (w : Wording) (prompts : String) : Result :=
  let errors := prompts ++ String.join (o.logged.map w.logged)
  match o.failure with
  | none => ⟨0, o.output, errors, o.directory⟩
  | some f => ⟨1, o.output, errors ++ w.report f, o.directory⟩

/-- performs a task with the bytes of the terminal and a directory -/
def Task.perform (t : Task) (w : Wording) (terminal : List UInt8) (d : Directory) : Result :=
  match t.file with
  | some path =>
    ((t.planFor ((d.read path).mapError fun e => .reading path e.text)).perform d).result w ""
  | none =>
    let r := TerminalRead.ofBytes terminal
    ((t.planFor r.answer).perform d).result w (String.join (List.replicate r.prompts t.prompt))

end PolishCalc.Command

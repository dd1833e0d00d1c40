/-
The command line around the tasks.

How arguments are understood, what is shown for help, and how failures and log lines are worded is the matter of
libraries that the program uses. It is written down here as far as it shows, so that the program runs; the tasks are
stated without it, for any wording.

Arguments are read from the left, and the first thing that decides the outcome does so: a fault, a request for the
version or for help. Single-letter options may share one argument (`-vv`), and the value of `-e` may follow in the same
argument (`-ePATH`, `-e=PATH`). After `--` every argument is a file name. No file name and no path may be empty, and an
argument that looks like an option is never the value of one.

Log output that is asked for is left out: whatever the verbosity flag and the environment say, nothing but errors is
logged, and without a time.
-/
import PolishCalc.Command.Task

namespace PolishCalc.Command

/-! ## Arguments -/

/-- the command line as it was understood -/
inductive Invocation where
  | task (t : Task)
  | version
  | help
  | usageError
deriving DecidableEq, Repr

namespace Invocation

/-- what a group of single-letter options amounts to -/
inductive Letters where
  /-- verbosity flags and nothing else -/
  | flags
  /-- the option that announces a path, and the path if it follows in the group -/
  | emit (value : Option (List Char))
  | version
  | help
  | unknown

def Letters.ofList : List Char → Letters
  | [] => flags
  | c :: rest =>
    if c = 'v' then ofList rest
    else if c = 'h' then help
    else if c = 'V' then version
    else if c = 'e' then
      emit <|
        match rest with
        | [] => none
        | '=' :: value => some value
        | value => some value
    else unknown

/-- an argument by its form -/
inductive Form where
  /-- two dashes alone -/
  | separator
  /-- two dashes and a name, with the value after an equals sign if there is one -/
  | long (name : String) (value : Option String)
  /-- one dash and a group of letters -/
  | letters (l : List Char)
  /-- anything else, also a single dash -/
  | plain (s : String)

def Form.ofString (s : String) : Form :=
  match s.toList with
  | ['-', '-'] => separator
  | '-' :: '-' :: l =>
    let name := l.takeWhile (· != '=')
    match l.drop name.length with
    | [] => long (String.ofList name) none
    | _ :: value => long (String.ofList name) (some (String.ofList value))
  | '-' :: c :: l => letters (c :: l)
  | _ => plain s

/-- a command while its arguments are read -/
structure Draft where
  isRun : Bool
  file : Option String
  emit : Option String
deriving DecidableEq, Repr

namespace Draft

def finish (d : Draft) : Invocation :=
  task (if d.isRun then .run d.file d.emit else .machine d.file)

/-- takes a file name, if there is none yet and it is not empty -/
def withFile? (d : Draft) (s : String) : Option Draft :=
  if d.file.isNone && !s.isEmpty then some { d with file := some s } else none

/-- takes a path to write, if the command writes one, there is none yet and it is not empty -/
def withEmit? (d : Draft) (s : String) : Option Draft :=
  if d.isRun && d.emit.isNone && !s.isEmpty then some { d with emit := some s } else none

/-- takes file names only -/
def ofNames (d : Draft) : List String → Invocation
  | [] => d.finish
  | s :: rest =>
    match d.withFile? s with
    | some d => ofNames d rest
    | none => usageError

/-- takes the arguments after the name of the command; `pending` says that the next one is the path to write -/
def ofArgs (d : Draft) (pending : Bool) : List String → Invocation
  | [] => if pending then usageError else d.finish
  | s :: rest =>
    match pending, Form.ofString s with
    | true, .plain s =>
      match d.withEmit? s with
      | some d => ofArgs d false rest
      | none => usageError
    | true, _ => usageError
    | false, .plain s =>
      match d.withFile? s with
      | some d => ofArgs d false rest
      | none => usageError
    | false, .separator => ofNames d rest
    | false, .long "verbose" none => ofArgs d false rest
    | false, .long "help" none => help
    | false, .long "emit" none => if d.isRun && d.emit.isNone then ofArgs d true rest else usageError
    | false, .long "emit" (some value) =>
      match d.withEmit? value with
      | some d => ofArgs d false rest
      | none => usageError
    | false, .long _ _ => usageError
    | false, .letters l =>
      match Letters.ofList l with
      | .flags => ofArgs d false rest
      | .help => help
      | .emit none => if d.isRun && d.emit.isNone then ofArgs d true rest else usageError
      | .emit (some value) =>
        match d.withEmit? (String.ofList value) with
        | some d => ofArgs d false rest
        | none => usageError
      | .version => usageError
      | .unknown => usageError

end Draft

/-- understands a command line: takes the arguments up to the name of the command, and hands on those behind it -/
def ofArgs : List String → Invocation
  | [] => usageError
  | s :: rest =>
    match Form.ofString s with
    | .plain "run" => Draft.ofArgs ⟨true, none, none⟩ false rest
    | .plain "machine" => Draft.ofArgs ⟨false, none, none⟩ false rest
    | .plain "help" => if rest ∈ [[], ["run"], ["machine"], ["help"]] then help else usageError
    | .long "verbose" none => ofArgs rest
    | .long "version" none => version
    | .long "help" none => help
    | .letters l =>
      match Letters.ofList l with
      | .flags => ofArgs rest
      | .version => version
      | .help => help
      | _ => usageError
    | _ => usageError

end Invocation

/-! ## Runs -/

def Wording.standard : Wording where
  failure f :=
    match f.cause with
    | none => f.message
    | some cause => f.message ++ "\n\nCaused by:\n    " ++ cause
  logged _ := "ERROR execution paths disagree\n"

def versionText : String := "treevm 0.1.0\n"

def usageText : String :=
  "usage: treevm [-v] run [FILE] [-e PATH]\n       treevm [-v] machine [FILE]\n       treevm --version\n"

/-- runs the command line with the bytes of the terminal and a directory -/
def perform (args : List String) (terminal : List UInt8) (d : Directory) : Result :=
  match Invocation.ofArgs args with
  | .task t => t.perform .standard terminal d
  | .version => ⟨0, versionText, "", d⟩
  | .help => ⟨0, usageText, "", d⟩
  | .usageError => ⟨2, "", usageText, d⟩

end PolishCalc.Command

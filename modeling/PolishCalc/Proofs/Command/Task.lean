/-
What a task leaves: exit code, both outputs and files.

A run echoes the words of the program, displays it, runs it on its tree, writes its code if asked to, and runs the code
on the machine. Up to the execution of the tree each phase can fail, and what was printed before stays. After that only
the writing can fail: the machine comes to the same execution. The machine's part of the output is printed again when
the code is executed on its own, from the file that was written or typed at the terminal.

- `Reading`: what there is to read for a command;
- `Task.perform_of_reading`: a task does with it what its plan says;
- `perform_machinePlan`: the code of a program that succeeds is executed with its report, whatever comes after;
- `runPlan_of_parse_error`, `runPlan_of_runtime_error`, `runPlan_of_ok`: the phases of a run;
- `machine_of_file`, `machine_of_terminal`: the code of a program on its own;
- `run_report`: whole runs, and what can be done with the file that they leave.
-/
import Mathlib.Tactic
import PolishCalc.Command.Task
import PolishCalc.Proofs.Command.Directory
import PolishCalc.Proofs.Command.Terminal
import PolishCalc.Proofs.Compilation

namespace PolishCalc.Command

open Text

/-! ## Reading -/

/-- what a task reads, from a file or from the terminal: the text and its mode, after so many prompts -/
inductive Reading (terminal : List UInt8) (d : Directory) : Option String → String → InputMode → ℕ → Prop
  | file (path text : String) (h : d.read path = .ok text) : Reading terminal d (some path) text .file 0
  | terminal (source : String) (h : String.fromUTF8? ⟨terminal.toArray⟩ = some source) :
      Reading terminal d none (typed source) .interactive (1 + (typedLines source).length)

/-- the prompts of a task that asks for so many lines -/
def Task.prompts (t : Task) (n : ℕ) : String := String.join (List.replicate n t.prompt)

section

variable (t : Task) (w : Wording) (terminal : List UInt8) (d : Directory) (text : String)

/-- a task that reads the terminal does with the text what its plan says -/
theorem Task.perform_of_ofBytes (n : ℕ) (ht : t.file = none) (h : TerminalRead.ofBytes terminal = ⟨some text, n⟩) :
    t.perform w terminal d = ((t.plan text .interactive).perform d).result w (t.prompts n) := by
  simp only [Task.perform, ht, h, TerminalRead.answer, Task.planFor, Option.isNone_none, if_true]
  rfl

theorem Task.perform_of_reading (mode : InputMode) (n : ℕ) (h : Reading terminal d t.file text mode n) :
    t.perform w terminal d = ((t.plan text mode).perform d).result w (t.prompts n) := by
  generalize hfile : t.file = file at h
  cases h with
  | file path text h =>
    simp only [Task.perform, hfile, h, Except.mapError, Task.planFor, Option.isNone_some]
    rfl
  | terminal source h =>
    exact t.perform_of_ofBytes w terminal d _ _ hfile (TerminalRead.ofBytes_of_text terminal source h)

end

/-! ## Results -/

theorem result_of_done (output prompts : String) (d : Directory) (w : Wording) :
    Outcome.result ⟨output, [], none, d⟩ w prompts = ⟨0, output, prompts, d⟩ := by
  simp [Outcome.result]

theorem result_of_failure (output prompts : String) (d : Directory) (w : Wording) (f : Failure) :
    Outcome.result ⟨output, [], some f, d⟩ w prompts = ⟨1, output, prompts ++ w.report f, d⟩ := by
  simp [Outcome.result]

/-! ## Plans -/

/-- the directory after a text was written to the path, if there is one, or the failure to write it -/
def Directory.save (d : Directory) (path : Option String) (text : String) : Except Failure Directory :=
  match path with
  | none => .ok d
  | some path => (d.write path text).mapError fun e => .writing path e.text

/-- what was saved is what is read -/
theorem Directory.read_of_save (d d' : Directory) (path text : String) (h : d.save (some path) text = .ok d') :
    d'.read path = .ok text := by
  simp only [save] at h
  cases hw : d.write path text with
  | error e =>
    rw [hw] at h
    cases h
  | ok w =>
    rw [hw] at h
    cases h
    exact read_write d d' path text hw

theorem perform_writePlan (path : Option String) (text : String) (next : Plan) (d : Directory) :
    (writePlan path text next).perform d =
      match d.save path text with
      | .ok d' => next.perform d'
      | .error f => ⟨"", [], some f, d⟩ := by
  cases path with
  | none => rfl
  | some path =>
    simp only [writePlan, Plan.perform, Directory.save]
    cases d.write path text <;> rfl

theorem Plan.perform_print_print (s t : String) (next : Plan) (d : Directory) :
    (Plan.print s (.print t next)).perform d = (Plan.print (s ++ t) next).perform d := by
  simp only [perform_print, String.append_assoc]

/-- what is printed before a program is run: the words of its text, and the program -/
def heading (source : String) (p : Program) : String :=
  "(prefix)\n" ++ echo source ++ "(infix)\n" ++ p.display

/-- what is printed when the code of a program is executed and comes to `x` -/
def machineReport (p : Program) (x : Execution) : String :=
  "(machine) instructions:\n" ++ p.codeText ++ "(machine) executing...\n" ++ ("(machine) stack: []\n" ++ x.display)

/-- the code of a program that succeeds is executed with its report, and leaves what the tree leaves -/
theorem perform_machinePlan (p : Program) (x : Execution) (next : Execution → Plan) (d : Directory)
    (h : p.need ≤ OperandStack.defaultLimit) (hx : p.run = .ok x) :
    (machinePlan p.code next).perform d = (Plan.print (machineReport p x) (next x)).perform d := by
  obtain ⟨m, hm, rfl, hempty⟩ := run_load_code p OperandStack.defaultLimit x h hx
  have hstack : listed m.work.stack.values = "[]" := by
    rw [OperandStack.isEmpty, Array.isEmpty_iff] at hempty
    rw [hempty]
    rfl
  have hline : "(machine) stack: " ++ "[]" ++ "\n" = "(machine) stack: []\n" := rfl
  simp only [machinePlan, hm, hstack, hline]
  exact Plan.perform_print_print _ _ _ _

section

variable (source : String) (mode : InputMode) (emit : Option String) (d : Directory)

theorem runPlan_of_parse_error (e : ParseError) (h : Program.ofText source mode = .error e) :
    (runPlan source mode emit).perform d = ⟨"(prefix)\n" ++ echo source, [], some (.ofMessage e.message), d⟩ := by
  simp only [runPlan, h, Plan.perform_print, Plan.perform, String.append_empty]

variable (p : Program) (hp : Program.ofText source mode = .ok p)
include hp

theorem runPlan_of_runtime_error (e : RuntimeError) (h : p.run = .error e) :
    (runPlan source mode emit).perform d =
      ⟨heading source p ++ "(interpreter) running...\n", [], some (.ofMessage e.message), d⟩ := by
  simp only [runPlan, hp, h, Plan.perform_print, Plan.perform, heading, String.append_assoc, String.append_empty]

/-- once the tree is executed, a run writes the code and executes it, and only the writing can fail -/
theorem runPlan_of_ok (x : Execution) (hx : p.run = .ok x) :
    (runPlan source mode emit).perform d =
      match d.save emit p.codeText with
      | .error f => ⟨heading source p ++ "(interpreter) running...\n" ++ x.display, [], some f, d⟩
      | .ok d' =>
        ⟨heading source p ++ "(interpreter) running...\n" ++ x.display ++ machineReport p x, [], none, d'⟩ := by
  have hasm : Code.assemble p.codeText .file = .ok p.code :=
    Code.assemble_render p.code (isClean_of_ofText source mode p hp) .file
  have hmachine : ∀ next d, (machinePlan p.code next).perform d = (Plan.print (machineReport p x) (next x)).perform d :=
    fun next d => perform_machinePlan p x next d (need_of_ofText source mode p hp) hx
  simp only [runPlan, hp, hx, hasm, Plan.perform_print, perform_writePlan]
  cases d.save emit p.codeText with
  | error f => simp only [heading, String.append_assoc, String.append_empty]
  | ok d' =>
    have hdone : Plan.done.perform d' = ⟨"", [], none, d'⟩ := rfl
    simp only [hmachine, Plan.perform_print, if_true, hdone, heading, String.append_assoc, String.append_empty]

/-- the text of the code is assembled and executed on its own, wherever it is read -/
theorem assemblePlan_codeText (x : Execution) (hx : p.run = .ok x) (mode' : InputMode) :
    (assemblePlan p.codeText mode').perform d = ⟨machineReport p x, [], none, d⟩ := by
  have hasm : Code.assemble p.codeText mode' = .ok p.code :=
    Code.assemble_render p.code (isClean_of_ofText source mode p hp) mode'
  simp only [assemblePlan, hasm]
  rw [perform_machinePlan p x _ d (need_of_ofText source mode p hp) hx]
  simp only [Plan.perform, String.append_empty]

/-- the file that holds the code can be executed on its own -/
theorem machine_of_file (x : Execution) (hx : p.run = .ok x) (w : Wording) (path : String) (terminal : List UInt8)
    (hread : d.read path = .ok p.codeText) :
    (Task.machine (some path)).perform w terminal d = ⟨0, machineReport p x, "", d⟩ := by
  rw [Task.perform_of_reading _ w terminal d p.codeText .file 0 (.file path _ hread), Task.plan,
    assemblePlan_codeText source mode d p hp x hx]
  exact result_of_done _ _ d w

/-- the code can be typed at the terminal and executed on its own -/
theorem machine_of_terminal (x : Execution) (hx : p.run = .ok x) (w : Wording) :
    (Task.machine none).perform w p.codeText.toUTF8.data.toList d =
      ⟨0, machineReport p x, (Task.machine none).prompts (1 + p.code.length), d⟩ := by
  have hclean := isClean_of_ofText source mode p hp
  have htyped : typed p.codeText = p.codeText := typed_render p.code hclean
  have hlength : (typedLines p.codeText).length = p.code.length := by
    rw [Program.codeText, typedLines_render p.code hclean, List.length_map]
  have hread : Reading _ d none _ _ _ := .terminal p.codeText (fromUTF8?_toUTF8 p.codeText)
  rw [htyped, hlength] at hread
  rw [Task.perform_of_reading _ w _ d p.codeText .interactive _ hread, Task.plan,
    assemblePlan_codeText source mode d p hp x hx]
  exact result_of_done _ _ d w

end

/-! ## Whole runs -/

/-- **Whole runs.** A text that does not parse leaves the echo of its words, and a program that fails on its tree leaves
what was printed up to there. A program that succeeds leaves its execution twice, from the tree and from the machine,
around the text of its code. Neither the assembler nor the machine can fail then, their results cannot differ, and the
stack is empty in the end: the run fails only if the file cannot be written. A file that was written holds the text of
the code, and executing it, or typing its text at the terminal, prints the machine's part again.

The error stream holds the prompts and the report of the failure, in any wording, as long as nothing but errors is
logged; what else is logged on request goes there too and changes nothing besides. Of a text of 2^32 bytes or more this
is about the tokens up to where its lexer is stalled. -/
theorem run_report (w : Wording) (n : ℕ) (file emit : Option String) (terminal : List UInt8) (d : Directory)
    (source : String) (mode : InputMode) (hread : Reading terminal d file source mode n) :
    (∀ e, Program.ofText source mode = .error e →
      (Task.run file emit).perform w terminal d =
        ⟨1, "(prefix)\n" ++ echo source, (Task.run file emit).prompts n ++ w.report (.ofMessage e.message), d⟩) ∧
    ∀ p, Program.ofText source mode = .ok p →
      (∀ e, p.run = .error e →
        (Task.run file emit).perform w terminal d =
          ⟨1, heading source p ++ "(interpreter) running...\n",
            (Task.run file emit).prompts n ++ w.report (.ofMessage e.message), d⟩) ∧
      ∀ x, p.run = .ok x →
        (∀ f, d.save emit p.codeText = .error f →
          (Task.run file emit).perform w terminal d =
            ⟨1, heading source p ++ "(interpreter) running...\n" ++ x.display,
              (Task.run file emit).prompts n ++ w.report f, d⟩) ∧
        (∀ d', d.save emit p.codeText = .ok d' →
          (Task.run file emit).perform w terminal d =
            ⟨0, heading source p ++ "(interpreter) running...\n" ++ x.display ++ machineReport p x,
              (Task.run file emit).prompts n, d'⟩ ∧
          ∀ path, emit = some path → d'.read path = .ok p.codeText ∧
            ∀ terminal', (Task.machine (some path)).perform w terminal' d' = ⟨0, machineReport p x, "", d'⟩) ∧
        ∀ d', (Task.machine none).perform w p.codeText.toUTF8.data.toList d' =
          ⟨0, machineReport p x, (Task.machine none).prompts (1 + p.code.length), d'⟩ := by
  rw [Task.perform_of_reading (.run file emit) w terminal d source mode n hread, Task.plan]
  refine ⟨?parse, fun p hp => ⟨?runtime, fun x hx => ⟨?unwritten, ?written, ?typed⟩⟩⟩
  case parse =>
    intro e he
    rw [runPlan_of_parse_error source mode emit d e he]
    exact result_of_failure _ _ d w _
  case runtime =>
    intro e he
    rw [runPlan_of_runtime_error source mode emit d p hp e he]
    exact result_of_failure _ _ d w _
  case unwritten =>
    intro f hf
    rw [runPlan_of_ok source mode emit d p hp x hx, hf]
    exact result_of_failure _ _ d w f
  case written =>
    intro d' hd'
    rw [runPlan_of_ok source mode emit d p hp x hx, hd']
    refine ⟨result_of_done _ _ d' w, ?_⟩
    rintro path rfl
    have hpath : d'.read path = .ok p.codeText := d.read_of_save d' path p.codeText hd'
    refine ⟨hpath, fun terminal' => ?_⟩
    exact machine_of_file source mode d' p hp x hx w path terminal' hpath
  case typed =>
    intro d'
    exact machine_of_terminal source mode d' p hp x hx w

/-- the program that `@ 1` spells -/
theorem ofText_print_one : Program.ofText "@ 1\n" .file = .ok [.print (.const 1)] := by
  have hmark : (Lexer.ofText "@ 1\n" .file).next =
      .token ⟨"@", .between 1 (.ofNat 0) (.ofNat 1)⟩ ⟨.file, ⟨[' ', '1', '\n'], .ofNat 1, 1⟩, false, false⟩ := by cbv
  have hvalue : (Lexer.mk .file ⟨[' ', '1', '\n'], .ofNat 1, 1⟩ false false).next =
      .token ⟨"1", .between 1 (.ofNat 2) (.ofNat 3)⟩ ⟨.file, ⟨['\n'], .ofNat 3, 1⟩, false, false⟩ := by cbv
  have hend : (Lexer.mk .file ⟨['\n'], .ofNat 3, 1⟩ false false).next =
      .finished ⟨.file, ⟨[], .ofNat 4, 2⟩, false, true⟩ := by cbv
  have hlexemes : (tokenize "@ 1\n" .file).map Token.lexeme = ["@"] ++ ["1"] ++ [] := by
    rw [tokenize, Lexer.tokens, Lexer.collect_of_token _ _ _ _ hmark, Lexer.collect_of_token _ _ _ _ hvalue,
      Lexer.collect_of_finished _ _ _ hend]
    rfl
  rw [Program.ofText, ofTokens_eq_ok_iff, hlexemes]
  have hnumeral : Decimal.ofInt32 1 = "1" := by decide
  have hone : Expr.Spelling (.const 1) ["1"] := .const 1 "1" (hnumeral ▸ Decimal.denotes_ofInt32 1)
  exact ⟨.cons _ _ _ _ (.print _ _ hone) .nil, by decide⟩

/-- a run that writes its code to a file, and the execution of that file -/
theorem run_report_saved :
    Reading [] (.ofList [("p", "@ 1\n".toUTF8)]) (some "p") "@ 1\n" .file 0 ∧
    ∃ d', (Task.run (some "p") (some "q")).perform ⟨Failure.message, fun _ => ""⟩ [] (.ofList [("p", "@ 1\n".toUTF8)]) =
        ⟨0, heading "@ 1\n" [.print (.const 1)] ++ "(interpreter) running...\n" ++ "1\nsymbol table:\n" ++
          machineReport [.print (.const 1)] ⟨#[1], .empty⟩, "", d'⟩ ∧
      d'.read "q" = .ok "PUSH 1\nPRINT\n" ∧
      (Task.machine (some "q")).perform ⟨Failure.message, fun _ => ""⟩ [] d' =
        ⟨0, machineReport [.print (.const 1)] ⟨#[1], .empty⟩, "", d'⟩ := by
  have hp : Place.IsName "p" := ⟨by decide, by decide, by decide, by decide, by decide⟩
  have hq : Place.IsName "q" := ⟨by decide, by decide, by decide, by decide, by decide⟩
  have hread : Reading [] (.ofList [("p", "@ 1\n".toUTF8)]) (some "p") "@ 1\n" .file 0 :=
    .file "p" "@ 1\n" (Directory.read_ofList hp _)
  have hfree : (Directory.ofList [("p", "@ 1\n".toUTF8)]).hasDirectory ["q"] = false := by
    rw [Directory.ofList, List.map_singleton, hp.ofPath_eq]
    simp [Directory.hasDirectory, Place.isAbove, Place.root, List.isPrefixOf]
  have hwrite := Directory.write_name hq _ "PUSH 1\nPRINT\n" hfree
  have hcode : Program.codeText [.print (.const 1)] = "PUSH 1\nPRINT\n" := by decide
  have hsave : (Directory.ofList [("p", "@ 1\n".toUTF8)]).save (some "q") (Program.codeText [.print (.const 1)]) =
      .ok ((Directory.ofList [("p", "@ 1\n".toUTF8)]).put ["q"] "PUSH 1\nPRINT\n".toUTF8) := by
    rw [hcode, Directory.save, hwrite]
    rfl
  obtain ⟨-, hok⟩ := run_report ⟨Failure.message, fun _ => ""⟩ _ _ (some "q") [] _ _ _ hread
  obtain ⟨-, hrun⟩ := hok _ ofText_print_one
  obtain ⟨-, hwritten, -⟩ := hrun ⟨#[1], .empty⟩ (by decide)
  obtain ⟨hperform, hfile⟩ := hwritten _ hsave
  obtain ⟨hsaved, hmachine⟩ := hfile "q" rfl
  exact ⟨hread, _, hperform, hsaved, hmachine []⟩

end PolishCalc.Command

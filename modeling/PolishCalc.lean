import PolishCalc.Main
import PolishCalc.Proofs.Arithmetic
import PolishCalc.Proofs.Code.Context
import PolishCalc.Proofs.Code.Decompilation
import PolishCalc.Proofs.Code.Grammar
import PolishCalc.Proofs.Code.Simulation
import PolishCalc.Proofs.Code.Text
import PolishCalc.Proofs.Command.Directory
import PolishCalc.Proofs.Command.Echo
import PolishCalc.Proofs.Command.Stream
import PolishCalc.Proofs.Command.Task
import PolishCalc.Proofs.Command.Terminal
import PolishCalc.Proofs.Compilation
import PolishCalc.Proofs.Decimal
import PolishCalc.Proofs.Interactive
import PolishCalc.Proofs.LineEndings
import PolishCalc.Proofs.Machine.Block
import PolishCalc.Proofs.Machine.Depth
import PolishCalc.Proofs.Machine.History
import PolishCalc.Proofs.Machine.Step
import PolishCalc.Proofs.Program.Appending
import PolishCalc.Proofs.Program.Binding
import PolishCalc.Proofs.Program.Blame
import PolishCalc.Proofs.Program.Descent
import PolishCalc.Proofs.Program.Diagnosis
import PolishCalc.Proofs.Program.Dispatch
import PolishCalc.Proofs.Program.Display
import PolishCalc.Proofs.Program.Evaluation
import PolishCalc.Proofs.Program.Grammar
import PolishCalc.Proofs.Program.Reader
import PolishCalc.Proofs.Program.Remainder
import PolishCalc.Proofs.Program.Replay
import PolishCalc.Proofs.Program.Source
import PolishCalc.Proofs.Program.Uniform
import PolishCalc.Proofs.SymbolTable
import PolishCalc.Proofs.Text.Bytes
import PolishCalc.Proofs.Text.Lines
import PolishCalc.Proofs.Text.Terminator
import PolishCalc.Proofs.Token.Alike
import PolishCalc.Proofs.Token.Layout
import PolishCalc.Proofs.Token.Lexeme
import PolishCalc.Proofs.Token.Progress
import PolishCalc.Proofs.Token.Scanner
import PolishCalc.Proofs.Token.Spans
import PolishCalc.Proofs.Token.Words

import Brainfuck.Arguments
import Brainfuck.Command
import Brainfuck.Console
import Brainfuck.Devices
import Brainfuck.Diagnostic
import Brainfuck.Fault
import Brainfuck.FileTree
import Brainfuck.Machine
import Brainfuck.Machine.Fuel
import Brainfuck.Main
import Brainfuck.Notice
import Brainfuck.Pairing
import Brainfuck.Policy
import Brainfuck.Program
import Brainfuck.Proofs.Abreast
import Brainfuck.Proofs.Attribution
import Brainfuck.Proofs.Balance
import Brainfuck.Proofs.CallOrder
import Brainfuck.Proofs.Calls
import Brainfuck.Proofs.Calm
import Brainfuck.Proofs.Cancellation
import Brainfuck.Proofs.Caret
import Brainfuck.Proofs.CodeWords
import Brainfuck.Proofs.CommandLine
import Brainfuck.Proofs.Comments
import Brainfuck.Proofs.Concatenation
import Brainfuck.Proofs.ConsoleMaps
import Brainfuck.Proofs.ContextWindow
import Brainfuck.Proofs.Course
import Brainfuck.Proofs.Culprit
import Brainfuck.Proofs.Endless
import Brainfuck.Proofs.ExactReading
import Brainfuck.Proofs.ExitStatus
import Brainfuck.Proofs.Fidelity
import Brainfuck.Proofs.FirstValid
import Brainfuck.Proofs.Growth
import Brainfuck.Proofs.Interruptions
import Brainfuck.Proofs.LastAssignment
import Brainfuck.Proofs.LoopGuards
import Brainfuck.Proofs.LoopTree
import Brainfuck.Proofs.Matching
import Brainfuck.Proofs.OnDemand
import Brainfuck.Proofs.Overflow
import Brainfuck.Proofs.Retesting
import Brainfuck.Proofs.Safety
import Brainfuck.Proofs.SettingsLayout
import Brainfuck.Proofs.SourcePlaces
import Brainfuck.Proofs.StepLimit
import Brainfuck.Proofs.Stepping
import Brainfuck.Proofs.Strays
import Brainfuck.Proofs.StructuredLoops
import Brainfuck.Proofs.Supply
import Brainfuck.Proofs.TapeOperations
import Brainfuck.Proofs.TextReading
import Brainfuck.Proofs.TrailingRemarks
import Brainfuck.Proofs.Validity
import Brainfuck.Proofs.WrittenSettings
import Brainfuck.Session
import Brainfuck.Settings
import Brainfuck.Settings.Precedence
import Brainfuck.Supervision
import Brainfuck.Tape
import Brainfuck.Tape.View
import Brainfuck.Text.Blank
import Brainfuck.Text.Decimal
import Brainfuck.Text.Lines
import Brainfuck.Usage

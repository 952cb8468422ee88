/-!
# Faults

Everything that can end a program early: a bracket without a partner, a pointer that leaves
the tape, a failing console, a limit that was reached. Each fault has a kind, and the kind
fixes the exit status that is reported for it.
-/
namespace Brainfuck

inductive Fault where
  /-- A loop was never closed. -/
  | unclosedLoop (index offset : Nat)
  /-- A loop is closed that was never opened. -/
  | unopenedLoop (index offset : Nat)
  /-- The pointer moved left of the first cell. -/
  | underflow (position : Nat)
  /-- The pointer moved right of the last cell of a bounded tape. -/
  | overflow (position pointer limit : Nat)
  /-- A tape of so many cells cannot be had. -/
  | refused (cells : Nat)
  | io (position : Nat) (reason : String)
  /-- The permitted number of commands was executed. -/
  | stepLimit (limit : Nat)
  | cancelled
  deriving DecidableEq

namespace Fault

/-- The coarse classification of faults. -/
inductive Kind where
  | bracket | tape | io | aborted
  deriving DecidableEq

def Kind.label : Kind → String
  | .bracket => "bracket error"
  | .tape => "tape error"
  | .io => "I/O failure"
  | .aborted => "aborted"

/-- The exit status of a command that ends with a fault of this kind. -/
def Kind.status : Kind → Nat
  | .bracket => 3
  | .tape => 4
  | .io => 5
  | .aborted => 6

def kind : Fault → Kind
  | .unclosedLoop .. | .unopenedLoop .. => .bracket
  | .underflow _ | .overflow .. | .refused _ => .tape
  | .io .. => .io
  | .stepLimit _ | .cancelled => .aborted

def status (f : Fault) : Nat := f.kind.status

/-- The index of the command that a fault points at, when there is one. -/
def instruction? : Fault → Option Nat
  | .unclosedLoop index _ | .unopenedLoop index _ => some index
  | .underflow position | .overflow position _ _ | .io position _ => some position
  | .refused _ | .stepLimit _ | .cancelled => none

def message : Fault → String
  | .unclosedLoop index offset =>
    "Unmatched bracket '[' at instruction " ++ toString index ++
      " (source offset " ++ toString offset ++ ")"
  | .unopenedLoop index offset =>
    "Unmatched bracket ']' at instruction " ++ toString index ++
      " (source offset " ++ toString offset ++ ")"
  | .underflow position =>
    "Tape underflow at instruction " ++ toString position ++ ": pointer moved left of cell 0"
  | .overflow position pointer limit =>
    "Tape overflow at instruction " ++ toString position ++ ": pointer " ++ toString pointer ++
      " is past the last cell (" ++ toString limit ++ " cells)"
  | .refused cells => "Tape allocation failed: cannot hold " ++ toString cells ++ " cells"
  | .io position reason => "I/O error at instruction " ++ toString position ++ ": " ++ reason
  | .stepLimit limit => "Execution aborted: step limit exceeded (" ++ toString limit ++ ")"
  | .cancelled => "Execution aborted: cancelled"

end Fault
end Brainfuck

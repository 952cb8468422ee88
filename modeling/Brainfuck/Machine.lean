import Brainfuck.Console
import Brainfuck.Pairing
import Brainfuck.Tape

/-!
# The machine

A machine is a program whose brackets are paired, together with the size and policy of the
tape it runs on. A run goes from state to state: `step` executes the command at the current
position, `execute` repeats it for as long as there is fuel, and when the commands are at an
end, one way or the other, the output is flushed once more.
-/
namespace Brainfuck

structure Machine where
  program : Program
  pairing : Pairing
  /-- The number of cells at the start. -/
  memory : Nat
  policy : Policy
  /-- The pairing is that of the program. -/
  paired : Pairing.ofProgram program = .ok pairing

/-- The largest number of cells that a machine may start with: 2 to the power 30. -/
def Machine.maxMemory : Nat := 1073741824

/-- Prepare a source text. A tape that is too large is refused before the brackets are looked
at. -/
def Machine.load (source : String) (memory : Nat) (policy : Policy) : Except Fault Machine :=
  if maxMemory < memory then .error (.refused memory)
  else
    match paired : Pairing.ofProgram (Program.parse source) with
    | .ok pairing => .ok ⟨Program.parse source, pairing, memory, policy, paired⟩
    | .error fault => .error fault

/-- Whether a run heeds the stop flag and a limit on the number of commands. -/
inductive Control where
  | free
  | watched (limit : Option Nat)
  deriving DecidableEq

/-- What a run has at hand between two commands. -/
structure State where
  tape : Tape
  position : Nat
  steps : Nat
  console : Console

/-- Why a watched run may not go on. The flag comes before the limit. -/
def Control.objection? : Control → State → Option Fault
  | .free, _ => none
  | .watched limit, s =>
    if s.console.cancelled then some .cancelled
    else
      match limit with
      | some n => if n ≤ s.steps then some (.stepLimit n) else none
      | none => none

/-- What a command other than a jump does to tape and console. -/
inductive Effect where
  | done (tape : Tape) (console : Console)
  | failed (fault : Fault) (tape : Tape) (console : Console)
  | waiting (tape : Tape) (console : Console)

namespace Effect

def ofMove (position : Nat) (console : Console) : Tape × Option Tape.Obstacle → Effect
  | (tape, none) => .done tape console
  | (tape, some obstacle) => .failed (obstacle.fault position) tape console

def ofWrite (position : Nat) (tape : Tape) : Console × Option Failure → Effect
  | (console, none) => .done tape console
  | (console, some failure) => .failed (.io position failure.message) tape console

/-- The effect of a read: the end of the input is stored as zero. -/
def ofRead (position : Nat) (tape : Tape) : Console × Reading → Effect
  | (console, .byte value) => .done (tape.set value) console
  | (console, .nothing) => .done (tape.set 0) console
  | (console, .failed failure) => .failed (.io position failure.message) tape console
  | (console, .waiting) => .waiting tape console

end Effect

/-- Execute a command that is no jump. Output is flushed before a read. A tape that grows is granted
all the cells that its capacity allows for. -/
def Command.act (command : Command) (position : Nat) (tape : Tape) (console : Console) : Effect :=
  match command with
  | .right => .ofMove position console tape.moveRight
  | .left => .ofMove position console tape.moveLeft
  | .increment => .done tape.increment console
  | .decrement => .done tape.decrement console
  | .output => .ofWrite position tape (console.put tape.current)
  | .input =>
    match console.flush with
    | (console, none) => .ofRead position tape console.take
    | (console, some failure) => .failed (.io position failure.message) tape console
  | .loopStart | .loopEnd => .done tape console

inductive Progress where
  | next (s : State)
  /-- There is no further command. -/
  | halted (s : State)
  | failed (fault : Fault) (s : State)
  | waiting (s : State)

namespace Machine

/-- The state after an effect: only a command that is done counts. -/
def afterEffect (position steps : Nat) : Effect → Progress
  | .done tape console => .next ⟨tape, position + 1, steps + 1, console⟩
  | .failed fault tape console => .failed fault ⟨tape, position, steps, console⟩
  | .waiting tape console => .waiting ⟨tape, position, steps, console⟩

/-- Go to the command after the partner of the bracket at the current position. -/
def jump (m : Machine) (unpaired : Pairing.Unpaired) (s : State) : Progress :=
  match m.pairing.partner? s.position with
  | some target => .next ⟨s.tape, target + 1, s.steps + 1, s.console⟩
  | none => .failed (unpaired.fault m.program) s

/-- Execute one command. `[` on a zero cell and `]` on any other jump to their partner. -/
def perform (m : Machine) (command : Command) (s : State) : Progress :=
  match command with
  | .loopStart =>
    if s.tape.current = 0 then m.jump (.opening s.position) s
    else .next ⟨s.tape, s.position + 1, s.steps + 1, s.console⟩
  | .loopEnd =>
    if s.tape.current = 0 then .next ⟨s.tape, s.position + 1, s.steps + 1, s.console⟩
    else m.jump (.closing s.position) s
  | command =>
    match s with
    | ⟨tape, position, steps, console⟩ =>
      afterEffect position steps (command.act position tape console)

def step (m : Machine) (control : Control) (s : State) : Progress :=
  match m.program.command? s.position with
  | none => .halted s
  | some command =>
    match control.objection? s with
    | some fault => .failed fault s
    | none => m.perform command s

/-- The first state, if the cells of the tape are granted. -/
def start (m : Machine) (console : Console) (granted : Bool := true) : Except Fault State :=
  match Tape.blank m.memory m.policy granted with
  | .ok tape => .ok ⟨tape, 0, 0, console⟩
  | .error obstacle => .error (obstacle.fault 0)

inductive Stop where
  /-- The commands are at an end, by themselves or by a fault. -/
  | ended (fault : Option Fault) (s : State)
  | waiting (s : State)
  /-- The fuel is used up. -/
  | running (s : State)

def execute (m : Machine) (control : Control) : Nat → State → Stop
  | 0, s => .running s
  | fuel + 1, s =>
    match m.step control s with
    | .next s => execute m control fuel s
    | .halted s => .ended none s
    | .failed fault s => .ended (some fault) s
    | .waiting s => .waiting s

/-- The last flush. Its failure counts only when nothing else went wrong. -/
def finish (fault : Option Fault) (s : State) : Option Fault × State :=
  match s with
  | ⟨tape, position, steps, console⟩ =>
    match console.flush with
    | (console, failure) =>
      (fault <|> failure.map fun failure => .io position failure.message,
        ⟨tape, position, steps, console⟩)

inductive Outcome where
  /-- There is no tape to run on. -/
  | refused (fault : Fault) (console : Console)
  /-- The run is over, well or with a fault. -/
  | ended (fault : Option Fault) (s : State)
  | waiting (s : State)
  | running (s : State)

def Stop.outcome : Stop → Outcome
  | .ended fault s =>
    match finish fault s with
    | (fault, s) => .ended fault s
  | .waiting s => .waiting s
  | .running s => .running s

def run (m : Machine) (control : Control) (fuel : Nat) (console : Console)
    (granted : Bool := true) : Outcome :=
  match m.start console granted with
  | .error fault => .refused fault console
  | .ok s => (m.execute control fuel s).outcome

end Machine
end Brainfuck

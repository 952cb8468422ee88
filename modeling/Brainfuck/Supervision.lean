import Brainfuck.Diagnostic
import Brainfuck.Machine

/-!
# Supervision of a run

The commands of a job are executed by a worker. A supervisor waits for its result and looks up
from time to time: when Ctrl+C was pressed or the time is over, it asks the worker to stop and
gives up waiting. How the wait ended is a verdict, and the verdict fixes the exit status and
what is said about it.
-/
namespace Brainfuck

/-- A machine with all that a supervisor has to know about its run. -/
structure Job where
  /-- The name of the tool in messages. -/
  tool : String
  source : String
  machine : Machine
  stepLimit : Option Nat
  /-- In milliseconds. -/
  timeout : Option Nat

structure Ending where
  status : Nat
  message : String
  deriving DecidableEq

def Ending.interruptStatus : Nat := 130

/-- How the wait for a worker ended. -/
inductive Verdict where
  | finished (fault : Option Fault)
  | timedOut
  | interrupted
  /-- The worker disappeared without a result. -/
  | lost
  deriving DecidableEq

namespace Job

def timeoutEnding (job : Job) : Ending :=
  ⟨Fault.cancelled.status,
    "Execution aborted: wall-clock timeout exceeded (" ++ toString (job.timeout.getD 0) ++
      " ms)\n"⟩

def interruptEnding : Ending := ⟨Ending.interruptStatus, "Execution aborted: interrupted\n"⟩

/-- The ending of a run with a fault of its own. -/
def faultEnding (job : Job) (fault : Fault) : Ending :=
  ⟨fault.status,
    match fault with
    | .stepLimit _ => fault.message ++ "\n"
    | _ => Diagnostic.render job.tool job.source job.machine.program fault⟩

/-- The ending that belongs to a verdict, when it is known whether Ctrl+C was pressed. -/
def conclude (job : Job) (interrupted : Bool) : Verdict → Ending
  | .finished none => ⟨0, ""⟩
  | .finished (some .cancelled) => if interrupted then interruptEnding else job.timeoutEnding
  | .finished (some fault) => job.faultEnding fault
  | .interrupted => if interrupted then interruptEnding else ⟨Ending.interruptStatus, ""⟩
  | .timedOut => job.timeoutEnding
  | .lost => ⟨1, job.tool ++ ": interpreter thread exited unexpectedly\n"⟩

end Job

namespace Supervision

inductive Worker where
  | executing (s : State)
  /-- The result is there to be received. -/
  | reported (fault : Option Fault)
  | dismissed

inductive Supervisor where
  /-- Waiting for the result until it is time to look up. -/
  | waiting
  /-- About to look whether Ctrl+C was pressed. -/
  | checkingInterrupt
  /-- About to look whether the time is over. -/
  | checkingDeadline
  | decided (verdict : Verdict)
  | exited (ending : Ending)
  deriving DecidableEq

/-- All that worker, supervisor and signal handler share. -/
structure Scene where
  worker : Worker
  supervisor : Supervisor
  /-- Raised by the signal handler. -/
  interrupted : Bool
  /-- Asks the worker to stop. -/
  cancel : Bool
  /-- How many signals the handler has noted without having asked the worker to stop. -/
  handling : Nat
  /-- Whether Ctrl+C was pressed at all. -/
  signalled : Bool
  expired : Bool

inductive Event where
  /-- The worker executes a command, or finds that there is none to execute. -/
  | work
  /-- Ctrl+C is pressed; the handler raises the first of its two flags. -/
  | signal
  /-- The handler raises the second one. -/
  | handle
  | expire
  | supervise
  | receive
  deriving DecidableEq

/-- A worker that takes notice of the stop flag. -/
def Worker.notice (cancel : Bool) (s : State) : State :=
  { s with console := { s.console with cancelled := cancel } }

/-- The worker after one step of its machine; one that waits for input stays as it is. -/
def Worker.advance (job : Job) (cancel : Bool) (s : State) : Option Worker :=
  match job.machine.step (.watched job.stepLimit) (notice cancel s) with
  | .next s => some (.executing s)
  | .halted s => some (.reported (Machine.finish none s).1)
  | .failed fault s => some (.reported (Machine.finish (some fault) s).1)
  | .waiting _ => none

/-- The scene after an event, if the event can happen. -/
def Scene.after (job : Job) (scene : Scene) : Event → Option Scene
  | .work =>
    match scene.worker with
    | .executing s =>
      (Worker.advance job scene.cancel s).map fun worker => { scene with worker }
    | _ => none
  | .signal =>
    some { scene with interrupted := true, signalled := true, handling := scene.handling + 1 }
  | .handle =>
    match scene.handling with
    | 0 => none
    | handling + 1 => some { scene with cancel := true, handling }
  | .expire => if job.timeout.isSome then some { scene with expired := true } else none
  | .receive =>
    match scene.supervisor, scene.worker with
    | .waiting, .reported fault =>
      some { scene with supervisor := .decided (.finished fault), worker := .dismissed }
    | _, _ => none
  | .supervise =>
    match scene.supervisor with
    | .waiting => some { scene with supervisor := .checkingInterrupt }
    | .checkingInterrupt =>
      if scene.interrupted then some { scene with supervisor := .decided .interrupted }
      else some { scene with supervisor := .checkingDeadline }
    | .checkingDeadline =>
      if scene.expired then
        some { scene with supervisor := .decided .timedOut, cancel := true }
      else some { scene with supervisor := .waiting }
    | .decided verdict =>
      some { scene with supervisor := .exited (job.conclude scene.interrupted verdict) }
    | .exited _ => none

def Scene.start (s : State) : Scene :=
  ⟨.executing s, .waiting, false, false, 0, false, false⟩

end Supervision
end Brainfuck

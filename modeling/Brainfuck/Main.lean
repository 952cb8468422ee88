import Brainfuck.Session

/-!
# The command line tool

The outermost layer. It collects the arguments, the environment and the files a session asks
for, and it plays the console of a run: before a command that reads or writes, the call is made
on the real device, and its outcome is what the machine then finds on its console.
-/
namespace Brainfuck.Terminal

/-- The variables that the tool looks at. -/
def consulted : List String :=
  ["BF_CONFIG", "BF_LOG", "BF_MAX_STEPS", "BF_MEMORY", "BF_TAPE", "BF_TIMEOUT_MS", "HOME",
    "XDG_CONFIG_HOME"]

def environment : IO Environment := do
  let found ← consulted.mapM fun name => do
    return (← IO.getEnv name).map fun value => (name, value.toUTF8)
  return found.reduceOption

def readFailure : IO.Error → ReadFailure
  | .noFileOrDirectory .. => .missing
  | .inappropriateType .. => .directory
  | e => .other (toString e)

def readFile (path : String) : IO (Except ReadFailure FileContent) := do
  try
    return .ok (.bytes (← IO.FS.readBinFile path))
  catch e =>
    return .error (readFailure e)

/-- The files that a session may ask for: the source and the settings. -/
def files (arguments : List String) (env : Environment) :
    IO (List (String × Except ReadFailure FileContent)) := do
  let source? :=
    match Arguments.parse arguments with
    | some (.perform _ o) => o.file
    | _ => none
  (source?.toList ++ (Settings.path? env).toList).mapM fun path => do
    return (path, ← readFile path)

/-- Make a call, and tell how it failed. -/
def attempt (call : IO Unit) : IO (Option Failure) := do
  try
    call
    return none
  catch e =>
    return some ⟨false, toString e⟩

def writeEvent : Option Failure → WriteEvent
  | none => .accept
  | some failure => .fail failure

def flushEvent : Option Failure → FlushEvent
  | none => .succeed
  | some failure => .fail failure

/-- The console on which the next calls find what was prepared for them. -/
def prepare (c : Console) (reader : List ReadEvent) (writes : List WriteEvent)
    (flushes : List FlushEvent) : Console :=
  { c with reader, writer := .scripted writes flushes, calls := [] }

/-- How often the time is looked at while a read waits, in milliseconds. -/
def pollInterval : UInt32 := 20

def isOver (deadline : Option Nat) : IO Bool := do
  match deadline with
  | none => return false
  | some time => return time ≤ (← IO.monoMsNow)

/-- Wait for a byte until the time is over. -/
partial def await (deadline : Option Nat) (byte : Task (Except IO.Error ByteArray)) :
    IO (Option ReadEvent) := do
  if ← IO.hasFinished byte then
    match byte.get with
    | .ok bytes => return some (bytes.toList.head?.elim .nothing .byte)
    | .error e => return some (.fail ⟨false, toString e⟩)
  else if ← isOver deadline then return none
  else
    IO.sleep pollInterval
    await deadline byte

/-- Write a byte. A line feed hands over what was written. -/
def putByte (output : IO.FS.Stream) (byte : UInt8) : IO Unit := do
  output.write ⟨#[byte]⟩
  if byte = 10 then output.flush

/-- Make the calls of the next command. There is no result if the time is over. -/
def serve (deadline : Option Nat) (command : Command) (s : State) : IO (Option State) := do
  let output ← IO.getStdout
  match command with
  | .output =>
    let outcome ← attempt (putByte output s.tape.current)
    return some { s with console := prepare s.console [] [writeEvent outcome] [] }
  | .input =>
    let outcome ← attempt output.flush
    if outcome.isSome then
      return some { s with console := prepare s.console [] [] [flushEvent outcome] }
    else
      let input ← IO.getStdin
      let event? ← await deadline (← IO.asTask (input.read 1))
      return event?.map fun event => { s with console := prepare s.console [event] [] [] }
  | _ => return some s

/-- Show notices as far as the threshold admits them. -/
def say (threshold : Notice.Threshold) (notices : List Notice) : IO Unit :=
  (Notice.shown threshold notices).forM IO.eprintln

/-- Make the last flush of a run. -/
def settle (threshold : Notice.Threshold) (job : Job) (fault : Option Fault) (s : State) :
    IO (Option Fault) := do
  let outcome ← attempt (← IO.getStdout).flush
  let console := prepare s.console [] [] [flushEvent outcome]
  let (fault, s) := Machine.finish fault { s with console }
  say threshold (Session.workerNotices job fault s)
  return fault

/-- After how many commands the time is looked at. -/
def checkInterval : Nat := 4096

/-- Execute the commands of a job until they end or the time is over. -/
partial def work (threshold : Notice.Threshold) (job : Job) (deadline : Option Nat) (s : State) :
    IO Verdict := do
  if s.steps % checkInterval = 0 then
    if ← isOver deadline then
      discard (settle threshold job (some .cancelled) s)
      return .timedOut
  let control := Control.watched job.stepLimit
  let served ←
    match job.machine.program.command? s.position, control.objection? s with
    | some command, none => serve deadline command s
    | _, _ => pure (some s)
  match served with
  | none => return .timedOut
  | some s =>
    match job.machine.step control s with
    | .next s => work threshold job deadline s
    | .halted s | .waiting s => return .finished (← settle threshold job none s)
    | .failed fault s => return .finished (← settle threshold job (some fault) s)

/-- Run a job at the terminal. -/
def execute (threshold : Notice.Threshold) (job : Job) : IO Ending := do
  match job.machine.start (.ofInput [] .closed) with
  | .error fault => return job.conclude false (.finished (some fault))
  | .ok s =>
    say threshold [Session.startNotice job]
    let start ← IO.monoMsNow
    return job.conclude false (← work threshold job (job.timeout.map (start + ·)) s)

/-- Say on standard output that all is well. -/
def confirm (line : String) : IO Ending := do
  let outcome ← attempt do
    (← IO.getStdout).putStr line
    (← IO.getStdout).flush
  return (Session.announce line (outcome.map Failure.message)).ending

end Brainfuck.Terminal

open Brainfuck in
def main (arguments : List String) : IO UInt32 := do
  let env ← Terminal.environment
  let files ← Terminal.files arguments env
  let threshold := Session.threshold env
  let invocation : Session.Invocation :=
    { tool := "bf"
      arguments
      environment := env
      readFile := fun path => (files.lookup path).getD (.error .missing) }
  let ending ←
    match Session.task invocation ⟨[], .closed, none, none⟩ with
    | some (.leave ending notices, _) => do
      Terminal.say threshold notices
      pure ending
    | some (.confirm line, _) => Terminal.confirm line
    | some (.execute job notices, _) => do
      Terminal.say threshold notices
      Terminal.execute threshold job
    -- Every file was read to its end before, so this does not happen.
    | none => pure ⟨1, ""⟩
  IO.eprint ending.message
  return ending.status.toUInt32

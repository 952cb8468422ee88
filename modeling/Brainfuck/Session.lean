import Brainfuck.Arguments
import Brainfuck.Devices
import Brainfuck.Settings.Precedence
import Brainfuck.Supervision
import Brainfuck.Usage

/-!
# A session of the tool

From the arguments, the environment and the files it is decided what there is to do: to say
something and leave, to confirm that a program is well formed, or to run it. A run goes on in
front of two devices, standard input and standard output, and ends in a report.
-/
namespace Brainfuck
namespace Session

structure Invocation where
  /-- The name of the tool in messages. -/
  tool : String
  arguments : List String
  environment : Environment
  /-- What a path leads to. -/
  readFile : String → Except ReadFailure FileContent

def decode : Except ReadFailure ByteArray → Except ReadFailure String
  | .error failure => .error failure
  | .ok bytes =>
    match String.fromUTF8? bytes with
    | some text => .ok text
    | none => .error .notText

/-- The text of a file, and the devices after it was read. -/
def readText (i : Invocation) (d : Devices) (path : String) :
    Option (Except ReadFailure String × Devices) :=
  (d.fetch (i.readFile path)).map fun (bytes, d) => (decode bytes, d)

/-- What remains to be done when the arguments are understood. -/
inductive Task where
  | leave (ending : Ending) (notices : List Notice)
  /-- Say on standard output that all is well. -/
  | confirm (line : String)
  | execute (job : Job) (notices : List Notice)

/-- The message in place of the reasons why arguments are wrong. -/
def argumentError : Ending := ⟨2, "<argument error>"⟩

def usage (tool : String) : Subcommand → String
  | .run => Usage.run tool
  | .check => Usage.check tool

/-- The ending of a command whose source cannot be read. -/
def unreadable (tool path : String) (failure : ReadFailure) : Ending :=
  ⟨1, tool ++ ": failed to read code file " ++ path ++ ": " ++ failure.message ++ "\n"⟩

/-- The source that a subcommand works on: a file, or the code on the command line. -/
def loadSource (i : Invocation) (d : Devices) (sub : Subcommand) (o : Arguments.Options) :
    Option (Except Ending String × Devices) :=
  match o.file, o.code with
  | none, [] => some (.error ⟨2, usage i.tool sub⟩, d)
  | some _, _ :: _ =>
    some
      (.error
        ⟨2, i.tool ++ ": cannot use positional code together with --file\n" ++ usage i.tool sub⟩,
        d)
  | some path, [] =>
    (readText i d path).map fun (text, d) => (text.mapError (unreadable i.tool path), d)
  | none, code => some (.ok (String.join code), d)

/-- The settings in a text that was read from a file. -/
def settingsOf (path : String) : Except ReadFailure String → Settings × List Notice
  | .error _ => ({}, [])
  | .ok content =>
    let (settings, notices) := Settings.parse content
    (settings, .settingsLoaded path :: notices)

/-- The settings file, if there is one that can be read. -/
def loadSettings (i : Invocation) (d : Devices) :
    Option ((Settings × List Notice) × Devices) :=
  match Settings.path? i.environment with
  | none => some (({}, []), d)
  | some path => (readText i d path).map fun (text, d) => (settingsOf path text, d)

/-- Leave with the report of a fault that was found before any command was executed. -/
def reject (tool source : String) (fault : Fault) (notices : List Notice) : Task :=
  .leave ⟨fault.status, Diagnostic.render tool source (Program.parse source) fault⟩ notices

/-- Check a source: only its brackets matter. -/
def check (i : Invocation) (source : String) : Task :=
  match Machine.load source Tape.defaultSize .growable with
  | .error fault => reject i.tool source fault []
  | .ok machine =>
    .confirm
      ("ok: " ++ toString machine.program.size ++ " commands, " ++
        toString machine.pairing.count ++ " loops\n")

/-- Prepare a source to be run with the settings of a file. -/
def prepare (i : Invocation) (o : Arguments.Options) (source : String)
    (file : Settings × List Notice) : Task :=
  let (effective, onEnvironment) := Settings.effective o.settings i.environment file.1
  let notices := file.2 ++ onEnvironment
  match Machine.load source effective.memory effective.policy with
  | .error fault => reject i.tool source fault notices
  | .ok machine =>
    .execute ⟨i.tool, source, machine, effective.stepLimit, effective.timeout⟩ notices

/-- Go on with a source that was loaded. The settings file is read only for a run. -/
def proceed (i : Invocation) (d : Devices) (sub : Subcommand) (o : Arguments.Options) :
    Except Ending String → Option (Task × Devices)
  | .error ending => some (.leave ending [], d)
  | .ok source =>
    match sub with
    | .run => (loadSettings i d).map fun (file, d) => (prepare i o source file, d)
    | .check => some (check i source, d)

def perform (i : Invocation) (d : Devices) (sub : Subcommand) (o : Arguments.Options) :
    Option (Task × Devices) :=
  if o.help then some (.leave ⟨0, usage i.tool sub⟩ [], d)
  else (loadSource i d sub o).bind fun (source, d) => proceed i d sub o source

/-- Decide what there is to do, and tell what is left of the devices. There is no decision if a
file never ends. -/
def task (i : Invocation) (d : Devices) : Option (Task × Devices) :=
  match Arguments.parse i.arguments with
  | none => some (.leave argumentError [], d)
  | some (.usage asked) => some (.leave ⟨if asked then 0 else 2, Usage.top i.tool⟩ [], d)
  | some (.perform sub o) => perform i d sub o

/-- What is seen of a session when it is over. -/
structure Report where
  ending : Ending
  /-- The bytes that have arrived at standard output. -/
  output : List UInt8
  notices : List Notice

/-- What standard error holds beside the first lines of the notices. The message comes last, since
a notice that has more than one line is shown before any command is executed. -/
def Report.remarks (r : Report) (threshold : Notice.Threshold) : String :=
  String.join ((Notice.admitted threshold r.notices).map Notice.continuation) ++ r.ending.message

def startNotice (job : Job) : Notice :=
  .runStarting job.machine.program.size (max 1 job.machine.memory) job.machine.policy

/-- The notices of a worker that ended by itself. A fault is noted when it stopped a command,
not when the commands were at an end and only the last flush failed. -/
def workerNotices (job : Job) (fault : Option Fault) (s : State) : List Notice :=
  match fault with
  | none => [.runFinished s.steps, .workerDone s.steps s.tape.pointer]
  | some fault =>
    if s.position < job.machine.program.size then [.runFailed s.steps fault] else []

/-- What the supervisor decides about a worker that would go on for ever: Ctrl+C comes first,
then the time. Without either there is no decision. -/
def impatience (job : Job) (d : Devices) (arrived : Nat) : Option Verdict :=
  if d.interruptAfter.any (· ≤ arrived) then some .interrupted
  else if job.timeout.isSome then some .timedOut
  else none

/-- Ask a worker to stop before its next command, and let it flush its output. -/
def dismiss (job : Job) (s : State) : Option Fault × State :=
  match job.machine.step (.watched job.stepLimit) (Supervision.Worker.notice true s) with
  | .next s | .waiting s => (none, s)
  | .halted s => Machine.finish none s
  | .failed fault s => Machine.finish (some fault) s

/-- The report of a run that is given up when so many bytes have arrived, and whose worker is
left in a state. -/
def giveUp (job : Job) (d : Devices) (notices : List Notice) (arrived : Nat) (s : State) :
    Option Report :=
  (impatience job d arrived).map fun verdict =>
    ⟨job.conclude (verdict == .interrupted) verdict, s.console.delivered, notices⟩

/-- Run a job in front of devices. A worker that is not done after `patience` commands, or that
waits for input, is taken to go on for ever; there is no report if nothing stops it. -/
def attend (job : Job) (notices : List Notice) (d : Devices) (patience : Nat) : Option Report :=
  let starting := notices ++ [startNotice job]
  match job.machine.run (.watched job.stepLimit) patience d.console with
  | .refused fault console =>
    some ⟨job.conclude false (.finished (some fault)), console.delivered, notices⟩
  | .ended fault s =>
    some
      ⟨job.conclude false (.finished fault), s.console.delivered,
        starting ++ workerNotices job fault s⟩
  | .waiting s => giveUp job d starting s.console.arrived s
  | .running s =>
    let (fault, stopped) := dismiss job s
    giveUp job d (starting ++ workerNotices job fault stopped) s.console.arrived stopped

/-- The exit status of a tool that cannot even say that all is well. -/
def brokenOutputStatus : Nat := 101

/-- Nothing but the message is shown when the tool breaks down. -/
def bareBreakdown (message : String) : String := message ++ "\n"

/-- Say that all is well. If that cannot be said, the tool breaks down. What is shown then around
the message, where it happened and on the way of which calls, is up to the platform that the tool
was built for. -/
def announce (line : String) (refusal : Option String)
    (breakdown : String → String := bareBreakdown) : Report :=
  match refusal with
  | none => ⟨⟨0, ""⟩, line.toUTF8.toList, []⟩
  | some reason =>
    ⟨⟨brokenOutputStatus, breakdown ("failed printing to stdout: " ++ reason)⟩, [], []⟩

def Task.report (d : Devices) (patience : Nat) (breakdown : String → String) :
    Task → Option Report
  | .leave ending notices => some ⟨ending, [], notices⟩
  | .confirm line => some (announce line d.refusal breakdown)
  | .execute job notices => attend job notices d patience

def run (i : Invocation) (d : Devices) (patience : Nat)
    (breakdown : String → String := bareBreakdown) : Option Report :=
  (task i d).bind fun (task, d) => task.report d patience breakdown

def threshold (env : Environment) : Notice.Threshold :=
  match env.text? "BF_LOG" with
  | some text => Notice.Threshold.ofText text
  | none => Notice.Threshold.default

end Session
end Brainfuck

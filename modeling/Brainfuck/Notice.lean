import Brainfuck.Fault
import Brainfuck.Policy

/-!
# Notices

Remarks that accompany the work of the tool: warnings about settings that were ignored and
details of a run. Each has a level, and a threshold decides which levels are shown. A notice is
one line, unless a value that it quotes brings lines of its own.
-/
namespace Brainfuck

inductive Notice where
  /-- A setting of the file has a value that it cannot have. -/
  | invalidSetting (key value : String)
  /-- The file sets something that does not exist. -/
  | unknownSetting (key : String)
  /-- An environment variable has a value that cannot be read. -/
  | invalidVariable (name value : String)
  | settingsLoaded (path : String)
  | runStarting (commands cells : Nat) (policy : Policy)
  | runFinished (steps : Nat)
  | runFailed (steps : Nat) (fault : Fault)
  | workerDone (steps pointer : Nat)
  deriving DecidableEq

namespace Notice

inductive Level where
  | error | warn | info | debug | trace
  deriving DecidableEq

namespace Level

/-- How much detail a level adds. -/
def rank : Level → Nat
  | .error => 1
  | .warn => 2
  | .info => 3
  | .debug => 4
  | .trace => 5

def label : Level → String
  | .error => "ERROR"
  | .warn => "WARN"
  | .info => "INFO"
  | .debug => "DEBUG"
  | .trace => "TRACE"

end Level

/-- The most detailed level that is shown; nothing is shown without one. -/
abbrev Threshold := Option Level

namespace Threshold

/-- Warnings are shown when nothing else is asked for. -/
def default : Threshold := some .warn

/-- Read a threshold. The empty text asks for errors only. -/
def ofText (text : String) : Threshold :=
  match text.toLower with
  | "off" => none
  | "error" | "" => some .error
  | "warn" => some .warn
  | "info" => some .info
  | "debug" => some .debug
  | "trace" => some .trace
  | _ => default

def admits (threshold : Threshold) (level : Level) : Bool :=
  threshold.any fun limit => level.rank ≤ limit.rank

end Threshold

def level : Notice → Level
  | .invalidSetting .. | .unknownSetting _ | .invalidVariable .. => .warn
  | .settingsLoaded _ | .runStarting .. | .runFinished _ | .runFailed .. | .workerDone .. => .debug

/-- A notice in words, with its details as `name=value`. -/
def text : Notice → String
  | .invalidSetting key value =>
    "ignoring invalid config value key=\"" ++ key ++ "\" value=" ++ value
  | .unknownSetting key => "ignoring unknown config key key=" ++ key
  | .invalidVariable name value =>
    "ignoring invalid environment value key=\"" ++ name ++ "\" value=" ++ value
  | .settingsLoaded path => "loaded config path=" ++ path
  | .runStarting commands cells policy =>
    "run starting commands=" ++ toString commands ++ " cells=" ++ toString cells ++
      " policy=" ++ policy.label
  | .runFinished steps => "run finished steps=" ++ toString steps
  | .runFailed steps fault => "run failed steps=" ++ toString steps ++ " error=" ++ fault.message
  | .workerDone steps pointer =>
    "worker done steps=" ++ toString steps ++ " pointer=" ++ toString pointer

def entry (n : Notice) : String := n.level.label ++ " " ++ n.text

/-- The first line of a notice. A value in it may hold line feeds, and what comes after the
first of them does not look like a notice any more. -/
def headline (n : Notice) : String := String.ofList (n.entry.toList.takeWhile (· != '\n'))

/-- What a notice shows below its first line: nothing, or text up to the end of a line. -/
def continuation (n : Notice) : String :=
  match n.entry.toList.dropWhile (· != '\n') with
  | [] => ""
  | _ :: rest => String.ofList rest ++ "\n"

def admitted (threshold : Threshold) (notices : List Notice) : List Notice :=
  notices.filter fun n => Threshold.admits threshold n.level

/-- The notices that a threshold admits, as they are shown. -/
def shown (threshold : Threshold) (notices : List Notice) : List String :=
  (admitted threshold notices).map entry

/-- The first lines of the notices that a threshold admits. -/
def headlines (threshold : Threshold) (notices : List Notice) : List String :=
  (admitted threshold notices).map headline

end Notice
end Brainfuck

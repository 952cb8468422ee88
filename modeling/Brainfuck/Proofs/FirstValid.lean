import Brainfuck.Arguments
import Brainfuck.Proofs.LastAssignment
import Brainfuck.Settings.Precedence

/-!
# The first valid value decides

A setting can come from an option, from a variable of the environment and from the settings file.
The first place that offers a valid value decides, whatever the places after it hold, and when no
place offers one, there is a built-in value. A variable is warned about exactly when no option
decides and its text cannot be read; a number of cells that can be read and is not valid is passed
over in silence.
-/
namespace Brainfuck.Settings

/-- Where a setting can come from. -/
inductive Origin where
  | option | environment | file
  deriving DecidableEq

/-- How many places come first. -/
def Origin.rank : Origin → Nat
  | .option => 0
  | .environment => 1
  | .file => 2

namespace Key

/-- The variable that sets the key. -/
def variableName : Key → String
  | .memory => "BF_MEMORY"
  | .policy => "BF_TAPE"
  | .timeout => "BF_TIMEOUT_MS"
  | .stepLimit => "BF_MAX_STEPS"

/-- There is no tape without cells; all other values are valid. -/
def valid : (k : Key) → k.Kind → Bool
  | .memory, n => 0 < n
  | .policy, _ | .timeout, _ | .stepLimit, _ => true

/-- What a run is given for the key. -/
def given (e : Effective) : (k : Key) → Option k.Kind
  | .memory => some e.memory
  | .policy => some e.policy
  | .timeout => e.timeout
  | .stepLimit => e.stepLimit

def readAny? : (k : Key) → List Char → Option k.Kind
  | .memory => Text.word?
  | k => k.read?

end Key

/-- The places that settings are taken from. -/
structure Sources where
  options : Arguments.Options
  environment : Environment
  /-- The text of the settings file. -/
  content : String

namespace Sources

/-- What a run is given, and the warnings about variables. -/
def outcome (s : Sources) : Effective × List Notice :=
  effective s.options.settings s.environment (parse s.content).1

variable {s t : Sources} {k : Key} {origin : Origin}

end Sources

section Resolve

variable {α : Type} {read? : List Char → Option α} {valid : α → Bool} {name : String}
  {option file : Option α} {bytes : Option ByteArray}

end Resolve

namespace Sources

variable {s t : Sources} {k : Key} {origin : Origin}

/-- One key is settled. -/
def resolved (s : Sources) (k : Key) : Option k.Kind × List Notice :=
  resolve k.readAny? k.valid k.variableName (k.get s.options.settings)
    (s.environment.lookup k.variableName) (k.get (parse s.content).1)

end Sources

end Brainfuck.Settings

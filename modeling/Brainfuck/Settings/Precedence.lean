import Brainfuck.Settings
import Brainfuck.Tape

/-!
# Which setting wins

A setting is taken from the first place that gives a valid value: an option of the command
line, an environment variable, the settings file, and last the built-in value. A place whose
value is not valid is passed over. A variable that cannot be read is worth a warning, but it is
only looked at when no option decides.
-/
namespace Brainfuck

/-- The variables of a process. Their values are bytes and need not be text. -/
abbrev Environment := List (String × ByteArray)

/-- The value of a variable that is set to a text. -/
def Environment.text? (env : Environment) (name : String) : Option String :=
  (env.lookup name).bind String.fromUTF8?

namespace Settings

/-- What a variable gives, with a warning if it is set to something unreadable. -/
def fromVariable {α : Type} (read? : List Char → Option α) (name : String)
    (bytes : Option ByteArray) : Option α × List Notice :=
  match bytes.bind String.fromUTF8? with
  | none => (none, [])
  | some text =>
    match read? (Text.trim text.toList) with
    | some value => (some value, [])
    | none => (none, [.invalidVariable name text])

/-- The first valid one of an option, a variable and an entry of the settings file. -/
def resolve {α : Type} (read? : List Char → Option α) (valid : α → Bool) (name : String)
    (option : Option α) (bytes : Option ByteArray) (file : Option α) : Option α × List Notice :=
  match option.filter valid with
  | some value => (some value, [])
  | none =>
    let (value, notices) := fromVariable read? name bytes
    (value.filter valid <|> file.filter valid, notices)

/-- What a run is finally given. -/
structure Effective where
  memory : Nat
  policy : Policy
  timeout : Option Nat
  stepLimit : Option Nat
  deriving DecidableEq

/-- Combine the options, the environment and the settings file. -/
def effective (options : Settings) (env : Environment) (file : Settings) :
    Effective × List Notice :=
  let (memory, onMemory) :=
    resolve Text.word? (0 < ·) "BF_MEMORY" options.memory (env.lookup "BF_MEMORY") file.memory
  let (policy, onPolicy) :=
    resolve Policy.ofText? (fun _ => true) "BF_TAPE" options.policy (env.lookup "BF_TAPE")
      file.policy
  let (timeout, onTimeout) :=
    resolve Text.word? (fun _ => true) "BF_TIMEOUT_MS" options.timeout (env.lookup "BF_TIMEOUT_MS")
      file.timeout
  let (stepLimit, onStepLimit) :=
    resolve Text.word? (fun _ => true) "BF_MAX_STEPS" options.stepLimit (env.lookup "BF_MAX_STEPS")
      file.stepLimit
  ({ memory := memory.getD Tape.defaultSize
     policy := policy.getD .growable
     timeout
     stepLimit },
    onMemory ++ onPolicy ++ onTimeout ++ onStepLimit)

/-- A path with a component added. -/
def joinPath (base component : String) : String :=
  if base.isEmpty || base.endsWith "/" then base ++ component else base ++ "/" ++ component

/-- Where the settings file is looked for. A variable may name it outright; else it lies in the
user's configuration directory, which an empty home directory does not have. -/
def path? (env : Environment) : Option String :=
  match env.lookup "BF_CONFIG" with
  | some _ => env.text? "BF_CONFIG"
  | none =>
    match env.text? "XDG_CONFIG_HOME" with
    | some base => some (joinPath base "bf.toml")
    | none =>
      ((env.text? "HOME").filter (· != "")).map fun home =>
        joinPath (joinPath home ".config") "bf.toml"

end Settings
end Brainfuck

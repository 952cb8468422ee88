import Brainfuck.Notice
import Brainfuck.Text.Decimal
import Brainfuck.Text.Lines

/-!
# The settings file

A settings file has sections with headers in square brackets; only the section `run` counts.
There, each line `key = value` is an assignment. The last assignment to a key decides, even
when its value cannot be used. Lines that start with `#` are comments.
-/
namespace Brainfuck

/-- What can be set for a run. -/
structure Settings where
  memory : Option Nat := none
  policy : Option Policy := none
  /-- In milliseconds. -/
  timeout : Option Nat := none
  stepLimit : Option Nat := none
  deriving DecidableEq

namespace Settings

structure Assignment where
  key : List Char
  value : List Char
  deriving DecidableEq

/-- The name of the section whose header a line is. -/
def header? (line : List Char) : Option (List Char) :=
  match line with
  | '[' :: rest => if rest.getLast? = some ']' then some (Text.trim rest.dropLast) else none
  | _ => none

/-- A value without the double quotes around it, if it has both. -/
def unquote (value : List Char) : List Char :=
  match value with
  | '"' :: rest => if rest.getLast? = some '"' then rest.dropLast else value
  | _ => value

/-- The assignment that a trimmed line makes: it is split at its first `=`. -/
def assignment? (line : List Char) : Option Assignment :=
  match line.dropWhile (· != '=') with
  | _ :: value => some ⟨Text.trim (line.takeWhile (· != '=')), unquote (Text.trim value)⟩
  | [] => none

/-- Whether a trimmed line says nothing. -/
def isIdle : List Char → Bool
  | [] => true
  | c :: _ => c == '#'

def runSection : List Char := ['r', 'u', 'n']

/-- Go through trimmed lines, inside or outside of the section that counts. The assignments
found so far stand last first. -/
def assignmentsFrom (inside : Bool) (found : List Assignment) :
    List (List Char) → List Assignment
  | [] => found
  | line :: rest =>
    if isIdle line then assignmentsFrom inside found rest
    else
      match header? line with
      | some name => assignmentsFrom (name == runSection) found rest
      | none =>
        if inside then assignmentsFrom inside ((assignment? line).toList ++ found) rest
        else assignmentsFrom inside found rest

/-- The assignments of a settings text, the last one first. -/
def assignments (text : List Char) : List Assignment :=
  assignmentsFrom false [] ((Text.lines text).map Text.trim)

def lastValue? (found : List Assignment) (key : List Char) : Option (List Char) :=
  (found.find? (·.key == key)).map Assignment.value

/-- A value that was assigned, if it can be read, and a warning if it cannot. -/
def field {α : Type} (found : List Assignment) (key : String) (read? : List Char → Option α) :
    Option α × List Notice :=
  match lastValue? found key.toList with
  | none => (none, [])
  | some raw =>
    match read? raw with
    | some value => (some value, [])
    | none => (none, [.invalidSetting key (String.ofList raw)])

def positive? (text : List Char) : Option Nat := (Text.word? text).filter (0 < ·)

/-- The keys that have a meaning. -/
def knownKeys : List (List Char) :=
  ["memory".toList, "tape".toList, "timeout_ms".toList, "max_steps".toList]

/-- The other keys that are assigned to, each once. -/
def unknownKeys (found : List Assignment) : List (List Char) :=
  ((found.map Assignment.key).filter fun key => !knownKeys.contains key).eraseDups

/-- Read a settings text, with warnings about what is ignored. -/
def parse (content : String) : Settings × List Notice :=
  let found := assignments content.toList
  let (memory, onMemory) := field found "memory" positive?
  let (policy, onPolicy) := field found "tape" Policy.ofText?
  let (timeout, onTimeout) := field found "timeout_ms" Text.word?
  let (stepLimit, onStepLimit) := field found "max_steps" Text.word?
  ({ memory, policy, timeout, stepLimit },
    onMemory ++ onPolicy ++ onTimeout ++ onStepLimit ++
      (unknownKeys found).map fun key => .unknownSetting (String.ofList key))

end Settings
end Brainfuck

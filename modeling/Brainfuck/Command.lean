/-!
# The eight commands

A program is written with eight characters; every other character is a comment.
-/
namespace Brainfuck

inductive Command where
  | right | left
  | increment | decrement
  | output | input
  | loopStart | loopEnd
  deriving DecidableEq

namespace Command

/-- The command that a character stands for, if it stands for one. -/
def ofChar? : Char → Option Command
  | '>' => some .right
  | '<' => some .left
  | '+' => some .increment
  | '-' => some .decrement
  | '.' => some .output
  | ',' => some .input
  | '[' => some .loopStart
  | ']' => some .loopEnd
  | _ => none

/-- The character that a command is written with. -/
def toChar : Command → Char
  | .right => '>'
  | .left => '<'
  | .increment => '+'
  | .decrement => '-'
  | .output => '.'
  | .input => ','
  | .loopStart => '['
  | .loopEnd => ']'

/-- Whether a command opens or closes a loop. -/
def isBracket : Command → Bool
  | .loopStart | .loopEnd => true
  | _ => false

@[simp] theorem ofChar?_toChar (c : Command) : ofChar? c.toChar = some c := by
  cases c <;> rfl

/-- A character that stands for a command is the one it is written with. -/
theorem toChar_of_ofChar? {a : Char} {c : Command} (h : ofChar? a = some c) : c.toChar = a := by
  unfold ofChar? at h
  split at h <;> simp_all <;> subst h <;> rfl

end Command
end Brainfuck

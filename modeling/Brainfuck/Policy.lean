import Brainfuck.Text.Blank

/-!
# Tape policies

What happens when the pointer moves past the last cell: the tape grows, or the move is a fault.
-/
namespace Brainfuck

inductive Policy where
  | growable | bounded
  deriving DecidableEq

namespace Policy

/-- The spelling under which a policy is looked up: trimmed, ASCII letters in lower case. -/
def normalize (text : List Char) : List Char := (Text.trim text).map Char.toLower

def ofName? (name : String) : Option Policy :=
  if name = "growable" ∨ name = "grow" ∨ name = "unbounded" then some .growable
  else if name = "bounded" ∨ name = "fixed" then some .bounded
  else none

/-- Read a policy, whatever blanks surround it and whatever case its letters have. -/
def ofText? (text : List Char) : Option Policy := ofName? (String.ofList (normalize text))

/-- A name that no policy has. -/
structure Unknown where
  name : String
  deriving DecidableEq

def Unknown.message (u : Unknown) : String := "unknown tape policy '" ++ u.name ++ "'"

/-- Read a policy, or say which name is not one. -/
def parse (text : String) : Except Unknown Policy :=
  match ofText? text.toList with
  | some policy => .ok policy
  | none => .error ⟨String.ofList (normalize text.toList)⟩

/-- The name that a policy has in logs. -/
def label : Policy → String
  | .growable => "Growable"
  | .bounded => "Bounded"

end Policy
end Brainfuck

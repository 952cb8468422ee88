import Brainfuck.Fault
import Brainfuck.Program

/-!
# Pairing of brackets

One scan from left to right pairs every `[` with its `]`. The scan carries the brackets that
are still open, innermost first, and fills in both ends of a pair when the closing one is met.
It fails at the first `]` that finds nothing open, and at the end of the program at the
innermost `[` that is still open.
-/
namespace Brainfuck

/-- The partner of every bracket of a program, by index. -/
structure Pairing where
  partners : Array (Option Nat)
  deriving DecidableEq

namespace Pairing

/-- A bracket that has no partner, by index. -/
inductive Unpaired where
  | opening (index : Nat)
  | closing (index : Nat)
  deriving DecidableEq

def join (partners : Array (Option Nat)) (start stop : Nat) : Array (Option Nat) :=
  (partners.setIfInBounds start (some stop)).setIfInBounds stop (some start)

/-- Scan the commands from index `i` on, with the indices of the open brackets at hand. -/
def scan : List Command → (i : Nat) → (opened : List Nat) → Array (Option Nat) →
    Except Unpaired (Array (Option Nat))
  | [], _, [], partners => .ok partners
  | [], _, start :: _, _ => .error (.opening start)
  | .loopStart :: rest, i, opened, partners => scan rest (i + 1) (i :: opened) partners
  | .loopEnd :: _, i, [], _ => .error (.closing i)
  | .loopEnd :: rest, i, start :: opened, partners =>
    scan rest (i + 1) opened (join partners start i)
  | _ :: rest, i, opened, partners => scan rest (i + 1) opened partners

def ofCommands (commands : List Command) : Except Unpaired Pairing :=
  (scan commands 0 [] (Array.replicate commands.length none)).map Pairing.mk

/-- The fault that a bracket without partner is, with its place in the source. -/
def Unpaired.fault (p : Program) : Unpaired → Fault
  | .opening index => .unclosedLoop index ((p.offset? index).getD index)
  | .closing index => .unopenedLoop index ((p.offset? index).getD index)

def ofProgram (p : Program) : Except Fault Pairing :=
  (ofCommands p.commands).mapError (Unpaired.fault p)

/-- The partner of the bracket at an index; there is none for anything but a bracket. -/
def partner? (t : Pairing) (index : Nat) : Option Nat := t.partners[index]?.join

def count (t : Pairing) : Nat := t.partners.countP Option.isSome / 2

end Pairing
end Brainfuck

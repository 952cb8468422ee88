import Brainfuck.Command

/-!
# Programs

Reading a source text keeps its command characters in order and remembers at which
character each of them stood. Positions count characters, not bytes.
-/
namespace Brainfuck

/-- A command together with its place in the source text. -/
structure Instruction where
  command : Command
  /-- How many characters of the source stand before it. -/
  offset : Nat
  deriving DecidableEq

structure Program where
  instructions : Array Instruction
  deriving DecidableEq

namespace Program

/-- The instruction that a numbered character gives, if it gives one. -/
def instruction? (numbered : Char × Nat) : Option Instruction :=
  (Command.ofChar? numbered.1).map (⟨·, numbered.2⟩)

/-- Reading never fails: a text without commands is the empty program. -/
def parse (source : String) : Program :=
  ⟨(source.toList.zipIdx.filterMap instruction?).toArray⟩

def size (p : Program) : Nat := p.instructions.size

def isEmpty (p : Program) : Bool := p.instructions.isEmpty

def commands (p : Program) : List Command := p.instructions.toList.map Instruction.command

def command? (p : Program) (index : Nat) : Option Command :=
  p.instructions[index]?.map Instruction.command

/-- The place in the source of the command at an index. -/
def offset? (p : Program) (index : Nat) : Option Nat :=
  p.instructions[index]?.map Instruction.offset

/-- The program written without comments. -/
def text (p : Program) : String := String.ofList (p.commands.map Command.toChar)

end Program
end Brainfuck

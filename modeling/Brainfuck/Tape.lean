import Brainfuck.Fault
import Brainfuck.Policy

/-!
# The tape

A row of byte cells with one pointer. All cells are zero at first, so only those up to the
furthest cell that was ever visited are kept; `cell` is the view of the whole row. The number
of cells is a 64-bit word and no tape holds more than `capacity` of them.

Every operation returns a tape. A move that fails returns the tape it was given, together with
the reason.
-/
namespace Brainfuck

structure Tape where
  /-- The cells up to the furthest visited one. Every later cell is zero. -/
  visited : Array UInt8
  /-- The number of cells, those never visited included. -/
  size : Nat
  pointer : Nat
  policy : Policy
  pointer_lt : pointer < visited.size
  visited_le : visited.size ≤ size

namespace Tape

/-- The size of a tape for which no other is asked. -/
def defaultSize : Nat := 30000

/-- The largest number of cells that a tape can have: one less than 2 to the power 63. -/
def capacity : Nat := 9223372036854775807

def maxWord : Nat := 18446744073709551615

/-- Why a tape cannot be made or a move cannot be done. -/
inductive Obstacle where
  | underflow
  | overflow (pointer limit : Nat)
  | refused (cells : Nat)
  deriving DecidableEq

/-- The fault of a command at a position that meets an obstacle. -/
def Obstacle.fault (position : Nat) : Obstacle → Fault
  | .underflow => .underflow position
  | .overflow pointer limit => .overflow position pointer limit
  | .refused cells => .refused cells

/-- A zero tape with the pointer on its first cell. There is always at least one cell. The cells
may be refused even where the capacity allows for them. -/
def blank (size : Nat) (policy : Policy) (granted : Bool := true) : Except Obstacle Tape :=
  if granted ∧ max 1 size ≤ capacity then
    .ok
      { visited := #[0]
        size := max 1 size
        pointer := 0
        policy
        pointer_lt := Nat.one_pos
        visited_le := Nat.le_max_left 1 size }
  else .error (.refused (max 1 size))

/-- The cell at an index of the row. -/
def cell (t : Tape) (index : Nat) : UInt8 := t.visited.getD index 0

def current (t : Tape) : UInt8 :=
  match t with
  | ⟨visited, _, pointer, _, _, _⟩ => visited[pointer]

/-- The non-zero cells with their indices, in order. -/
def support (t : Tape) : List (Nat × UInt8) :=
  (t.visited.toList.zipIdx.filter (·.1 != 0)).map Prod.swap

def set (t : Tape) (value : UInt8) : Tape :=
  match t with
  | ⟨visited, size, pointer, policy, pointer_lt, visited_le⟩ =>
    ⟨visited.set pointer value, size, pointer, policy,
      by rwa [Array.size_set], by rwa [Array.size_set]⟩

/-- Change the cell under the pointer by a function of it. -/
def modify (t : Tape) (f : UInt8 → UInt8) : Tape :=
  match t with
  | ⟨visited, size, pointer, policy, pointer_lt, visited_le⟩ =>
    ⟨visited.modify pointer f, size, pointer, policy,
      by rwa [Array.size_modify], by rwa [Array.size_modify]⟩

/-- Add one to the cell, 255 becomes 0. -/
def increment (t : Tape) : Tape := t.modify (· + 1)

/-- Take one from the cell, 0 becomes 255. -/
def decrement (t : Tape) : Tape := t.modify (· - 1)

/-- The size after growth: twice as many cells, as far as words go, and room for index `next`. -/
def grownSize (size next : Nat) : Nat := max (min (2 * size) maxWord) (next + 1)

/-- One cell to the right on a row that has room for it. -/
def advance (t : Tape) (size : Nat) (fits : t.size ≤ size) (room : t.pointer + 1 < size) : Tape :=
  match t with
  | ⟨visited, _, pointer, policy, pointer_lt, visited_le⟩ =>
    if known : pointer + 1 < visited.size then
      ⟨visited, size, pointer + 1, policy, known, Nat.le_trans visited_le fits⟩
    else
      ⟨visited.push 0, size, pointer + 1, policy,
        by rw [Array.size_push]; omega,
        by rw [Array.size_push]; exact Nat.lt_of_le_of_lt (Nat.le_of_not_lt known) room⟩

/-- Move the pointer to the right. Past the last cell the policy decides, and more cells may be
refused even where the capacity allows for them. -/
def moveRight (t : Tape) (granted : Bool := true) : Tape × Option Obstacle :=
  if room : t.pointer + 1 < t.size then (t.advance t.size (Nat.le_refl _) room, none)
  else
    match t.policy with
    | .bounded => (t, some (.overflow t.pointer t.size))
    | .growable =>
      if granted ∧ grownSize t.size (t.pointer + 1) ≤ capacity then
        (t.advance (grownSize t.size (t.pointer + 1))
          (by have := t.pointer_lt; have := t.visited_le; simp only [grownSize]; omega)
          (by simp only [grownSize]; omega), none)
      else (t, some (.refused (grownSize t.size (t.pointer + 1))))

def moveLeft (t : Tape) : Tape × Option Obstacle :=
  match t with
  | ⟨visited, size, 0, policy, pointer_lt, visited_le⟩ =>
    (⟨visited, size, 0, policy, pointer_lt, visited_le⟩, some .underflow)
  | ⟨visited, size, pointer + 1, policy, pointer_lt, visited_le⟩ =>
    (⟨visited, size, pointer, policy, by omega, visited_le⟩, none)

inductive Operation where
  | right | left | increment | decrement
  | set (value : UInt8)
  deriving DecidableEq

/-- An operation, and whether more cells are granted in case it asks for them. -/
structure Attempt where
  operation : Operation
  granted : Bool

def attempt (t : Tape) (a : Attempt) : Tape × Option Obstacle :=
  match a.operation with
  | .right => t.moveRight a.granted
  | .left => t.moveLeft
  | .increment => (t.increment, none)
  | .decrement => (t.decrement, none)
  | .set value => (t.set value, none)

/-- Try one operation after the other, whatever obstacles they meet. -/
def attempts (t : Tape) (tries : List Attempt) : Tape := tries.foldl (fun t a => (t.attempt a).1) t

/-- An operation that is granted all the cells it asks for. -/
def apply (t : Tape) (op : Operation) : Tape × Option Obstacle := t.attempt ⟨op, true⟩

/-- Repeat an operation at most so often, up to the first obstacle. The number of repetitions
that succeeded is counted from `done` on. -/
def repeatedly (op : Operation) (done : Nat) : Nat → Tape → Nat × Tape × Option Obstacle
  | 0, t => (done, t, none)
  | n + 1, t =>
    match t.apply op with
    | (t, none) => repeatedly op (done + 1) n t
    | (t, some obstacle) => (done, t, some obstacle)

end Tape
end Brainfuck

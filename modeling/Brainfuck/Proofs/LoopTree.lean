import Brainfuck.Proofs.Balance

/-!
# Programs as trees

A balanced word of commands is a row of plain commands and of loops with a body. Reading a word
from its end gives its tree, and the tree is the only one that is written like the word.
-/
namespace Brainfuck

/-- A row of plain commands and loops. -/
inductive Block where
  | empty
  | plain (command : Command) (noBracket : command.isBracket = false) (rest : Block)
  | loop (body rest : Block)

namespace Block
open Brackets

/-- The commands of a block in writing. -/
def commands : Block → List Command
  | .empty => []
  | .plain command _ rest => command :: rest.commands
  | .loop body rest => .loopStart :: (body.commands ++ .loopEnd :: rest.commands)

def size : Block → Nat
  | .empty => 0
  | .plain _ _ rest => rest.size + 1
  | .loop body rest => body.size + rest.size + 2

@[simp] theorem length_commands (b : Block) : b.commands.length = b.size := by
  induction b with
  | empty => rfl
  | plain command _ rest ih => simp [commands, size, ih]
  | loop body rest ihb ihr =>
    simp [commands, size, ihb, ihr]
    omega

def append : Block → Block → Block
  | .empty, after => after
  | .plain command h rest, after => .plain command h (rest.append after)
  | .loop body rest, after => .loop body (rest.append after)

@[simp] theorem append_empty (b : Block) : b.append .empty = b := by
  induction b with
  | empty => rfl
  | plain command h rest ih => simp [append, ih]
  | loop body rest ihb ihr => simp [append, ihr]

/-- Put a command in front of a block that was read, with the blocks behind those `]` at hand
whose loop has not begun. -/
def prepend (command : Command) (block : Block) (pending : List Block) :
    Option (Block × List Block) :=
  if h : command.isBracket = false then some (.plain command h block, pending)
  else
    match command, pending with
    | .loopEnd, pending => some (.empty, block :: pending)
    | .loopStart, after :: pending => some (.loop block after, pending)
    | _, _ => none

/-- Read a word from its end. -/
def read : List Command → Option (Block × List Block)
  | [] => some (.empty, [])
  | command :: rest => (read rest).bind fun (block, pending) => prepend command block pending

def ofCommands? (w : List Command) : Option Block :=
  match read w with
  | some (block, []) => some block
  | _ => none

/-- The blocks behind closing brackets in writing. -/
def closed (pending : List Block) : List Command :=
  pending.flatMap fun b => .loopEnd :: b.commands

theorem prepend_plain {c : Command} (h : c.isBracket = false) (b : Block)
    (pending : List Block) : prepend c b pending = some (.plain c h b, pending) := by
  rw [prepend, dif_pos h]

theorem prepend_eq_some {c : Command} {b b' : Block} {pending pending' : List Block}
    (h : prepend c b pending = some (b', pending')) :
    b'.commands ++ closed pending' = c :: (b.commands ++ closed pending) := by
  unfold prepend at h
  split at h
  · cases h
    rfl
  · split at h
    · cases h
      rfl
    · cases h
      simp [commands, closed]
    · exact nomatch h

theorem read_eq_some {w : List Command} {b : Block} {pending : List Block}
    (h : read w = some (b, pending)) : b.commands ++ closed pending = w := by
  induction w generalizing b pending with
  | nil =>
    cases h
    rfl
  | cons c w ih =>
    obtain ⟨⟨b', pending'⟩, hread, hp⟩ := Option.bind_eq_some_iff.mp h
    rw [prepend_eq_some hp, ih hread]

/-- A block in writing is read back, in front of what was read before. -/
theorem read_append {rest : List Command} {after : Block} {pending : List Block} (b : Block)
    (h : read rest = some (after, pending)) :
    read (b.commands ++ rest) = some (b.append after, pending) := by
  induction b generalizing rest after pending with
  | empty => exact h
  | plain c hc r ih =>
    rw [commands, List.cons_append, read, ih h]
    exact prepend_plain hc _ _
  | loop body r ihb ihr =>
    have hend : read (.loopEnd :: (r.commands ++ rest)) =
        some (.empty, r.append after :: pending) := by
      rw [read, ihr h]
      rfl
    have hbody := ihb hend
    rw [append_empty] at hbody
    rw [commands, List.cons_append, List.append_assoc, List.cons_append, read, hbody]
    rfl

theorem ofCommands?_eq_some_iff {w : List Command} {b : Block} :
    ofCommands? w = some b ↔ b.commands = w := by
  constructor
  · intro h
    unfold ofCommands? at h
    split at h
    · next hr =>
      cases h
      simpa [closed] using read_eq_some hr
    · exact nomatch h
  · rintro rfl
    have h : read (b.commands ++ []) = some (b.append .empty, []) := read_append b rfl
    rw [List.append_nil, append_empty] at h
    rw [ofCommands?, h]

theorem balanced_commands (b : Block) : Balanced b.commands := by
  induction b with
  | empty => exact balanced_nil
  | plain c h rest ih => exact (balanced_singleton h).append ih
  | loop body rest ihb ihr =>
    have h := ihb.wrap.append ihr
    simpa [commands] using h

/-- A word of which no end opens more loops than it closes can be read. -/
theorem exists_read {w : List Command} (h : ∀ n, depth (w.drop n) ≤ 0) :
    ∃ b pending, read w = some (b, pending) ∧ depth w = -(pending.length : Int) := by
  induction w with
  | nil => exact ⟨.empty, [], rfl, rfl⟩
  | cons c w ih =>
    obtain ⟨b, pending, hread, hdepth⟩ := ih (fun n => h (n + 1))
    have h0 := h 0
    rw [List.drop_zero, depth_cons, hdepth] at h0
    have hstep : read (c :: w) = prepend c b pending := by
      rw [read, hread]
      rfl
    rw [hstep, depth_cons, hdepth]
    cases hc : c.isBracket with
    | false =>
      refine ⟨_, _, prepend_plain hc b pending, ?_⟩
      rw [rise_eq_zero hc, Int.zero_add]
    | true =>
      cases c with
      | loopEnd =>
        refine ⟨_, _, rfl, ?_⟩
        simp only [rise, List.length_cons]
        omega
      | loopStart =>
        cases pending with
        | nil => exact absurd h0 (by decide)
        | cons after pending =>
          refine ⟨_, _, rfl, ?_⟩
          simp only [rise, List.length_cons]
          omega
      | _ => cases hc

/-- Exactly the balanced words have a tree. -/
theorem exists_ofCommands?_iff {w : List Command} :
    (∃ b, ofCommands? w = some b) ↔ Balanced w := by
  constructor
  · rintro ⟨b, hb⟩
    rw [← ofCommands?_eq_some_iff.mp hb]
    exact b.balanced_commands
  · intro h
    obtain ⟨hnn, hz⟩ := balanced_iff_height.mp h
    obtain ⟨b, pending, hread, hdepth⟩ := exists_read (w := w) (fun n => by
      have hsplit := depth_append (w.take n) (w.drop n)
      have hn := hnn n
      rw [List.take_append_drop, hz] at hsplit
      rw [height] at hn
      omega)
    have hp : pending = [] := by
      rw [hz] at hdepth
      apply List.eq_nil_of_length_eq_zero
      omega
    subst hp
    exact ⟨b, by rw [ofCommands?, hread]⟩

end Block
end Brainfuck

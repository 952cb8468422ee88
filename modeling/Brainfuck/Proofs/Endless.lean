import Brainfuck.Proofs.Course

/-!
# The tape without end

The same commands, executed on a tape that has a cell for every number, all of them zero at
first. There is nothing to the right of which it ends, so a move to the right is always done. A
machine, whatever the size and policy of its tape, goes step by step as this one does, up to a
move off its last cell for which there is no room.
-/
namespace Brainfuck

/-- A tape with a cell for every number. -/
@[ext] structure Endless where
  cell : Nat → UInt8
  pointer : Nat

namespace Endless

def blank : Endless := ⟨fun _ => 0, 0⟩

def current (t : Endless) : UInt8 := t.cell t.pointer

def set (t : Endless) (value : UInt8) : Endless :=
  { t with cell := fun i => if i = t.pointer then value else t.cell i }

def moveRight (t : Endless) : Endless := { t with pointer := t.pointer + 1 }

/-- There is nothing to the left of cell 0. -/
def moveLeft? : Endless → Option Endless
  | ⟨_, 0⟩ => none
  | ⟨cell, pointer + 1⟩ => some ⟨cell, pointer⟩

structure State where
  tape : Endless
  position : Nat
  steps : Nat
  console : Console

inductive Progress where
  | next (s : State)
  | halted (s : State)
  | failed (fault : Fault) (s : State)
  | waiting (s : State)

/-- The command at the present position is done: go on behind the one at an index. -/
def State.onward (s : State) (tape : Endless) (console : Console) (index : Nat) : State :=
  ⟨tape, index + 1, s.steps + 1, console⟩

def objection? (control : Control) (s : State) : Option Fault :=
  match control with
  | .free => none
  | .watched limit =>
    if s.console.cancelled then some .cancelled
    else limit.bind fun n => if n ≤ s.steps then some (.stepLimit n) else none

def jump (p : Program) (pairing : Pairing) (unpaired : Pairing.Unpaired) (s : State) : Progress :=
  match pairing.partner? s.position with
  | some target => .next (s.onward s.tape s.console target)
  | none => .failed (unpaired.fault p) s

def read (s : State) : Console × Reading → Progress
  | (console, .byte value) => .next (s.onward (s.tape.set value) console s.position)
  | (console, .nothing) => .next (s.onward (s.tape.set 0) console s.position)
  | (console, .failed failure) => .failed (.io s.position failure.message) { s with console }
  | (console, .waiting) => .waiting { s with console }

def perform (p : Program) (pairing : Pairing) (s : State) : Command → Progress
  | .right => .next (s.onward s.tape.moveRight s.console s.position)
  | .left =>
    match s.tape.moveLeft? with
    | some tape => .next (s.onward tape s.console s.position)
    | none => .failed (.underflow s.position) s
  | .increment => .next (s.onward (s.tape.set (s.tape.current + 1)) s.console s.position)
  | .decrement => .next (s.onward (s.tape.set (s.tape.current - 1)) s.console s.position)
  | .output =>
    match s.console.put s.tape.current with
    | (console, none) => .next (s.onward s.tape console s.position)
    | (console, some failure) => .failed (.io s.position failure.message) { s with console }
  | .input =>
    match s.console.flush with
    | (console, none) => read s console.take
    | (console, some failure) => .failed (.io s.position failure.message) { s with console }
  | .loopStart =>
    if s.tape.current = 0 then jump p pairing (.opening s.position) s
    else .next (s.onward s.tape s.console s.position)
  | .loopEnd =>
    if s.tape.current = 0 then .next (s.onward s.tape s.console s.position)
    else jump p pairing (.closing s.position) s

def step (p : Program) (pairing : Pairing) (control : Control) (s : State) : Progress :=
  match p.command? s.position with
  | none => .halted s
  | some command =>
    match objection? control s with
    | some fault => .failed fault s
    | none => perform p pairing s command

inductive Stop where
  | ended (fault : Option Fault) (s : State)
  | waiting (s : State)
  | running (s : State)

def execute (p : Program) (pairing : Pairing) (control : Control) : Nat → State → Stop
  | 0, s => .running s
  | fuel + 1, s =>
    match step p pairing control s with
    | .next s => execute p pairing control fuel s
    | .halted s => .ended none s
    | .failed fault s => .ended (some fault) s
    | .waiting s => .waiting s

/-- The last flush. -/
def finish : Stop → Stop
  | .ended fault s =>
    .ended (fault <|> s.console.flush.2.map fun failure => .io s.position failure.message)
      { s with console := s.console.flush.1 }
  | .waiting s => .waiting s
  | .running s => .running s

def run (p : Program) (pairing : Pairing) (control : Control) (fuel : Nat) (console : Console) :
    Stop :=
  finish (execute p pairing control fuel ⟨blank, 0, 0, console⟩)

end Endless

/-- The cells and the pointer of a tape, without its size. -/
def Tape.endless (t : Tape) : Endless := ⟨t.cell, t.pointer⟩

def State.endless (s : State) : Endless.State := ⟨s.tape.endless, s.position, s.steps, s.console⟩

def Progress.endless : Progress → Endless.Progress
  | .next s => .next s.endless
  | .halted s => .halted s.endless
  | .failed fault s => .failed fault s.endless
  | .waiting s => .waiting s.endless

namespace Machine

def Stop.endless : Stop → Endless.Stop
  | .ended fault s => .ended fault s.endless
  | .waiting s => .waiting s.endless
  | .running s => .running s.endless

/-- There is no counterpart of a run that could not be started. -/
def Outcome.endless? : Outcome → Option Endless.Stop
  | .refused _ _ => none
  | .ended fault s => some (.ended fault s.endless)
  | .waiting s => some (.waiting s.endless)
  | .running s => some (.running s.endless)

end Machine

namespace Tape

variable {t t' : Tape}

@[simp] theorem current_endless (t : Tape) : t.endless.current = t.current :=
  t.current_eq_cell.symm

theorem endless_blank {size : Nat} {policy : Policy} (h : blank size policy = .ok t) :
    t.endless = Endless.blank :=
  Endless.ext (funext (cell_blank h)) (blank_eq_ok h).1

theorem endless_set (t : Tape) (value : UInt8) : (t.set value).endless = t.endless.set value :=
  Endless.ext (funext (cell_set t value)) rfl

theorem endless_modify (t : Tape) (f : UInt8 → UInt8) :
    (t.modify f).endless = t.endless.set (f t.current) := by
  apply Endless.ext
  · funext i
    change (t.modify f).cell i = if i = t.pointer then f t.current else t.cell i
    rw [cell_modify, current_eq_cell]
    split
    · next h => rw [h]
    · rfl
  · rfl

theorem endless_moveRight (h : t.moveRight = (t', none)) : t'.endless = t.endless.moveRight := by
  apply Endless.ext
  · funext i
    change t'.cell i = t.cell i
    rw [← t.cell_moveRight true, h]
  · have hv := t.moveRight_view true
    rw [h] at hv
    cases hv with
    | within _ pointer _ _ => exact pointer
    | grown _ _ _ _ pointer _ _ => exact pointer

theorem endless_moveLeft (h : t.moveLeft = (t', none)) :
    t.endless.moveLeft? = some t'.endless := by
  obtain ⟨visited, size, pointer, policy, pointer_lt, visited_le⟩ := t
  cases pointer with
  | zero => exact nomatch h
  | succ pointer =>
    cases h
    rfl

theorem endless_underflow {obstacle : Obstacle} (h : t.moveLeft = (t', some obstacle)) :
    t.endless.moveLeft? = none ∧ t' = t ∧ obstacle = .underflow := by
  obtain ⟨visited, size, pointer, policy, pointer_lt, visited_le⟩ := t
  cases pointer with
  | zero =>
    cases h
    exact ⟨rfl, rfl, rfl⟩
  | succ pointer => exact nomatch h

end Tape

theorem Endless.objection?_endless (control : Control) (s : Brainfuck.State) :
    objection? control s.endless = control.objection? s := by
  cases control with
  | free => rfl
  | watched limit => cases limit <;> rfl

namespace Machine

variable {m : Machine} {control : Control} {s t : State}

theorem endless_jump (unpaired : Pairing.Unpaired) (s : State) :
    (m.jump unpaired s).endless = Endless.jump m.program m.pairing unpaired s.endless := by
  rw [jump, Endless.jump, show s.endless.position = s.position from rfl]
  cases m.pairing.partner? s.position with
  | none => rfl
  | some target => rfl

/-- A command is executed as on the tape without end, unless it is a move to the right for which
there is no room. -/
theorem endless_perform {c : Command} (h : c = .right → s.tape.moveRight.2 = none) :
    (m.perform c s).endless = Endless.perform m.program m.pairing s.endless c := by
  obtain ⟨tape, position, steps, console⟩ := s
  cases c with
  | right =>
    obtain ⟨tape', hmove⟩ : ∃ tape', tape.moveRight = (tape', none) :=
      ⟨tape.moveRight.1, Prod.ext rfl (h rfl)⟩
    simp only [perform, Command.act, hmove, Effect.ofMove, afterEffect, Progress.endless,
      State.endless, Tape.endless_moveRight hmove]
    rfl
  | left =>
    rcases hmove : tape.moveLeft with ⟨tape', _ | obstacle⟩
    · simp only [perform, Command.act, hmove, Effect.ofMove, afterEffect, Progress.endless,
        State.endless, Endless.perform, Tape.endless_moveLeft hmove]
      rfl
    · obtain ⟨hleft, rfl, rfl⟩ := Tape.endless_underflow hmove
      simp only [perform, Command.act, hmove, Effect.ofMove, afterEffect, Progress.endless,
        State.endless, Endless.perform, hleft]
      rfl
  | increment =>
    simp only [perform, Command.act, afterEffect, Progress.endless, State.endless,
      Tape.increment, Tape.endless_modify, Endless.perform, Tape.current_endless]
    rfl
  | decrement =>
    simp only [perform, Command.act, afterEffect, Progress.endless, State.endless,
      Tape.decrement, Tape.endless_modify, Endless.perform, Tape.current_endless]
    rfl
  | output =>
    simp only [perform, Command.act, State.endless, Endless.perform, Tape.current_endless]
    rcases console.put tape.current with ⟨console', _ | failure⟩ <;> rfl
  | input =>
    simp only [perform, Command.act, State.endless, Endless.perform]
    rcases console.flush with ⟨console', _ | failure⟩
    · simp only
      rcases console'.take with ⟨console'', value | _ | failure | _⟩
      · simp only [Effect.ofRead, afterEffect, Progress.endless, State.endless,
          Tape.endless_set, Endless.read]
        rfl
      · simp only [Effect.ofRead, afterEffect, Progress.endless, State.endless,
          Tape.endless_set, Endless.read]
        rfl
      · rfl
      · rfl
    · rfl
  | loopStart =>
    simp only [perform, Endless.perform, State.endless, Tape.current_endless]
    split
    · exact endless_jump _ _
    · rfl
  | loopEnd =>
    simp only [perform, Endless.perform, State.endless, Tape.current_endless]
    split
    · rfl
    · exact endless_jump _ _

/-- The next command is a move to the right for which there is no room. -/
def AtEdge (m : Machine) (control : Control) (s : State) : Prop :=
  m.Begins control .right s ∧ s.tape.moveRight.2.isSome

theorem endless_step (h : ¬ m.AtEdge control s) :
    (m.step control s).endless = Endless.step m.program m.pairing control s.endless := by
  rw [step, Endless.step, Endless.objection?_endless,
    show s.endless.position = s.position from rfl]
  cases hc : m.program.command? s.position with
  | none => rfl
  | some c =>
    cases ho : control.objection? s with
    | some fault => rfl
    | none =>
      apply endless_perform
      rintro rfl
      by_contra hsome
      exact h ⟨⟨hc, ho⟩, Option.isSome_iff_ne_none.mpr hsome⟩

theorem Begins.step_right (h : m.Begins control .right s) :
    m.step control s =
      afterEffect s.position s.steps (.ofMove s.position s.console s.tape.moveRight) := by
  rw [step_eq_perform h.1 h.2, perform_plain rfl]
  rfl

/-- A step at the edge fails, by the policy of the tape. -/
theorem AtEdge.step_eq (h : m.AtEdge control s) :
    s.tape.pointer + 1 = s.tape.size ∧
      (s.tape.policy = .bounded ∧ m.step control s =
          .failed (.overflow s.position s.tape.pointer s.tape.size) s ∨
        s.tape.policy = .growable ∧ Tape.capacity < Tape.grownSize s.tape.size s.tape.size ∧
          ∃ cells, m.step control s = .failed (.refused cells) s) := by
  obtain ⟨hbegins, hsome⟩ := h
  have hstep := hbegins.step_right
  have hv := s.tape.moveRight_view true
  generalize s.tape.moveRight = move at hv hsome hstep
  cases hv with
  | within _ _ _ _ => exact nomatch hsome
  | grown _ _ _ _ _ _ _ => exact nomatch hsome
  | overflow edge bounded => exact ⟨edge, .inl ⟨bounded, hstep⟩⟩
  | refused edge growable reason =>
    rw [edge] at reason
    exact ⟨edge, .inr ⟨growable, reason.resolve_left nofun, _, hstep⟩⟩

theorem not_atEdge_of_next (h : m.step control s = .next t) : ¬ m.AtEdge control s := by
  intro hedge
  obtain ⟨-, ⟨-, hstep⟩ | ⟨-, -, cells, hstep⟩⟩ := hedge.step_eq
  · exact nomatch h.symm.trans hstep
  · exact nomatch h.symm.trans hstep

/-- A run goes as on the tape without end, unless it comes to the edge of its tape. -/
theorem endless_execute (m : Machine) (control : Control) (fuel : Nat) (s : State) :
    (∃ k < fuel, ∃ t, m.Leads control k s t ∧ m.AtEdge control t) ∨
      (m.execute control fuel s).endless =
        Endless.execute m.program m.pairing control fuel s.endless := by
  induction fuel generalizing s with
  | zero => exact .inr rfl
  | succ fuel ih =>
    by_cases hedge : m.AtEdge control s
    · exact .inl ⟨0, Nat.succ_pos fuel, s, .refl s, hedge⟩
    · have hstep := endless_step hedge
      rw [execute, Endless.execute, ← hstep]
      cases hs : m.step control s with
      | next t =>
        rcases ih t with ⟨k, hk, u, hl, hu⟩ | heq
        · exact .inl ⟨k + 1, Nat.succ_lt_succ hk, u, .cons hs hl, hu⟩
        · exact .inr heq
      | halted t => exact .inr rfl
      | failed fault t => exact .inr rfl
      | waiting t => exact .inr rfl

theorem Stop.endless_outcome (x : Stop) :
    x.outcome.endless? = some (Endless.finish x.endless) := by
  cases x <;> rfl

theorem endless_start {console : Console} (h : m.start console = .ok s) :
    s.endless = ⟨Endless.blank, 0, 0, console⟩ := by
  unfold start at h
  split at h
  · next tape htape =>
    cases h
    rw [State.endless, Tape.endless_blank htape]
  · exact nomatch h

end Machine
end Brainfuck

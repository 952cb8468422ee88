import Brainfuck.Proofs.Calls

/-!
# Runs seen through a map of consoles

A map of consoles may forget something, or put one thing in the place of another. If it makes no
difference whether the map is applied before a call or after it, then it makes none for commands,
for steps and for whole runs, provided that the control of the run asks for nothing that the map
changes. So two consoles that look the same through such a map have runs that look the same.
-/
namespace Brainfuck

theorem Console.Kept.run {P : Console → Prop} {m : Machine} {control : Control}
    {console : Console} (hP : Kept P) (h : P console) (fuel : Nat) :
    P (m.run control fuel console).console := by
  cases hstart : m.start console with
  | error fault =>
    rw [Machine.run, hstart]
    exact h
  | ok s =>
    obtain ⟨-, -, rfl⟩ := Machine.start_eq_ok hstart
    rw [Machine.run_of_start hstart]
    exact hP.outcome (hP.execute h fuel)

/-- A map that can be exchanged with every call, on consoles of a kind that no call leaves. -/
structure Console.Commutes (P : Console → Prop) (f : Console → Console) : Prop where
  kept : Kept P
  put : ∀ c byte, P c → (f c).put byte = (f (c.put byte).1, (c.put byte).2)
  flush : ∀ c, P c → (f c).flush = (f c.flush.1, c.flush.2)
  take : ∀ c, P c → (f c).take = (f c.take.1, c.take.2)

def Effect.mapConsole (f : Console → Console) : Effect → Effect
  | .done tape console => .done tape (f console)
  | .failed fault tape console => .failed fault tape (f console)
  | .waiting tape console => .waiting tape (f console)

def State.mapConsole (f : Console → Console) (s : State) : State :=
  { s with console := f s.console }

def Progress.mapConsole (f : Console → Console) : Progress → Progress
  | .next s => .next (s.mapConsole f)
  | .halted s => .halted (s.mapConsole f)
  | .failed fault s => .failed fault (s.mapConsole f)
  | .waiting s => .waiting (s.mapConsole f)

def Machine.Stop.mapConsole (f : Console → Console) : Stop → Stop
  | .ended fault s => .ended fault (s.mapConsole f)
  | .waiting s => .waiting (s.mapConsole f)
  | .running s => .running (s.mapConsole f)

def Machine.Outcome.mapConsole (f : Console → Console) : Outcome → Outcome
  | .refused fault console => .refused fault (f console)
  | .ended fault s => .ended fault (s.mapConsole f)
  | .waiting s => .waiting (s.mapConsole f)
  | .running s => .running (s.mapConsole f)

/-- The control of a run finds the same objections on both sides of a map. -/
def Control.Ignores (control : Control) (f : Console → Console) : Prop :=
  ∀ s, control.objection? (s.mapConsole f) = control.objection? s

theorem Control.ignores_free (f : Console → Console) : Control.free.Ignores f :=
  fun _ => rfl

/-- An objection is a matter of the flag and of the number of steps. -/
theorem Control.objection?_congr {s t : State} (control : Control)
    (hflag : s.console.cancelled = t.console.cancelled) (hsteps : s.steps = t.steps) :
    control.objection? s = control.objection? t := by
  cases control with
  | free => rfl
  | watched limit =>
    simp only [objection?]
    rw [hflag, hsteps]

theorem Control.ignores_of_cancelled_eq (control : Control) {f : Console → Console}
    (h : ∀ c, (f c).cancelled = c.cancelled) : control.Ignores f :=
  fun s => control.objection?_congr (h s.console) rfl

namespace Effect

variable {position : Nat} {tape : Tape} (f : Console → Console)

theorem mapConsole_ofMove (console : Console) (move : Tape × Option Tape.Obstacle) :
    (ofMove position console move).mapConsole f = ofMove position (f console) move := by
  rcases move with ⟨moved, _ | obstacle⟩ <;> rfl

theorem mapConsole_ofWrite (result : Console × Option Failure) :
    (ofWrite position tape result).mapConsole f =
      ofWrite position tape (f result.1, result.2) := by
  rcases result with ⟨written, _ | failure⟩ <;> rfl

theorem mapConsole_ofRead (result : Console × Reading) :
    (ofRead position tape result).mapConsole f = ofRead position tape (f result.1, result.2) := by
  rcases result with ⟨taken, value | _ | failure | _⟩ <;> rfl

end Effect

@[simp] theorem Machine.Outcome.console_mapConsole (f : Console → Console) (x : Outcome) :
    (x.mapConsole f).console = f x.console := by
  cases x <;> rfl

theorem Machine.jump_mapConsole {m : Machine} {s : State} (f : Console → Console)
    (unpaired : Pairing.Unpaired) :
    m.jump unpaired (s.mapConsole f) = (m.jump unpaired s).mapConsole f := by
  rw [jump, jump, show (s.mapConsole f).position = s.position from rfl]
  cases m.pairing.partner? s.position <;> rfl

namespace Console.Commutes
open Machine

variable {P : Console → Prop} {f : Console → Console} {m : Machine} {control : Control}
  {console : Console} {s : State}

theorem act (hf : Commutes P f) {c : Command} {position : Nat} {tape : Tape} (h : P console) :
    c.act position tape (f console) = (c.act position tape console).mapConsole f := by
  cases c with
  | right => exact (Effect.mapConsole_ofMove f console tape.moveRight).symm
  | left => exact (Effect.mapConsole_ofMove f console tape.moveLeft).symm
  | output => simp only [Command.act, hf.put console tape.current h, Effect.mapConsole_ofWrite]
  | input =>
    have hkept := hf.kept.flush console h
    simp only [Command.act, hf.flush console h]
    rcases hflush : console.flush with ⟨flushed, _ | failure⟩
    · rw [hflush] at hkept
      simp only [hf.take flushed hkept, Effect.mapConsole_ofRead]
    · rfl
  | _ => rfl

theorem perform (hf : Commutes P f) {c : Command} (h : P s.console) :
    m.perform c (s.mapConsole f) = (m.perform c s).mapConsole f := by
  cases hb : c.isBracket with
  | false =>
    rw [perform_plain hb, perform_plain hb]
    simp only [State.mapConsole, hf.act h]
    cases c.act s.position s.tape s.console <;> rfl
  | true =>
    have htape : (s.mapConsole f).tape = s.tape := rfl
    rcases Pairing.isBracket_iff.mp hb with rfl | rfl
    · rw [Machine.perform, Machine.perform, htape]
      split
      · exact Machine.jump_mapConsole f _
      · rfl
    · rw [Machine.perform, Machine.perform, htape]
      split
      · rfl
      · exact Machine.jump_mapConsole f _

theorem step (hf : Commutes P f) (hc : control.Ignores f) (h : P s.console) :
    m.step control (s.mapConsole f) = (m.step control s).mapConsole f := by
  rw [Machine.step, Machine.step, hc s, show (s.mapConsole f).position = s.position from rfl]
  cases m.program.command? s.position with
  | none => rfl
  | some c =>
    cases control.objection? s with
    | some fault => rfl
    | none => exact hf.perform h

theorem execute (hf : Commutes P f) (hc : control.Ignores f) (h : P s.console) (fuel : Nat) :
    m.execute control fuel (s.mapConsole f) = (m.execute control fuel s).mapConsole f := by
  induction fuel generalizing s with
  | zero => rfl
  | succ fuel ih =>
    have hkept : P (m.step control s).state.console := hf.kept.step h
    rw [Machine.execute, Machine.execute, hf.step hc h]
    cases hs : m.step control s with
    | next t =>
      rw [hs] at hkept
      exact ih hkept
    | halted t => rfl
    | failed fault t => rfl
    | waiting t => rfl

/-- The last flush is a call like any other. -/
theorem outcome (hf : Commutes P f) {x : Stop} (h : P x.state.console) :
    (x.mapConsole f).outcome = x.outcome.mapConsole f := by
  cases x with
  | ended fault s =>
    simp only [Stop.mapConsole, Stop.outcome, finish, State.mapConsole, hf.flush s.console h]
    rfl
  | waiting s => rfl
  | running s => rfl

theorem run (hf : Commutes P f) (hc : control.Ignores f) (h : P console) (fuel : Nat) :
    m.run control fuel (f console) = (m.run control fuel console).mapConsole f := by
  unfold Machine.run start
  cases Tape.blank m.memory m.policy with
  | error obstacle => rfl
  | ok tape =>
    have hexec := hf.execute (m := m) (s := ⟨tape, 0, 0, console⟩) hc h fuel
    have hkept : P (m.execute control fuel ⟨tape, 0, 0, console⟩).state.console :=
      hf.kept.execute h fuel
    exact (congrArg Stop.outcome hexec).trans (hf.outcome hkept)

/-- Consoles that look the same have runs that look the same. -/
theorem run_congr (hf : Commutes P f) (hc : control.Ignores f) {console' : Console} (h : P console)
    (h' : P console') (he : f console = f console') (fuel : Nat) :
    (m.run control fuel console).mapConsole f = (m.run control fuel console').mapConsole f := by
  rw [← hf.run hc h, ← hf.run hc h', he]

end Console.Commutes
end Brainfuck

import Brainfuck.Proofs.LoopGuards

/-!
# Jumping onto the partner

A jump leads behind the partner of a bracket. It could as well lead onto the partner, which is then
tested like any other command: the cell has not changed, so that the test of the partner lets the
run pass. The two machines go through the same commands with the same effects, and stop in the same
way if they stop. Only the steps differ, by one for each jump that is taken.
-/
namespace Brainfuck

/-- The same state after more steps. -/
def State.delay (k : Nat) (s : State) : State := { s with steps := s.steps + k }

def Progress.delay (k : Nat) : Progress → Progress
  | .next s => .next (s.delay k)
  | .halted s => .halted (s.delay k)
  | .failed fault s => .failed fault (s.delay k)
  | .waiting s => .waiting (s.delay k)

theorem Progress.delay_next (tape : Tape) (position steps : Nat) (console : Console) (k : Nat) :
    (Progress.next ⟨tape, position, steps + 1, console⟩).delay k =
      .next ⟨tape, position, steps + k + 1, console⟩ := by
  rw [Nat.add_right_comm]
  rfl

namespace Machine

def Stop.delay (k : Nat) : Stop → Stop
  | .ended fault s => .ended fault (s.delay k)
  | .waiting s => .waiting (s.delay k)
  | .running s => .running (s.delay k)

instance (m : Machine) (s : State) : Decidable (m.TakesJump s) :=
  inferInstanceAs (Decidable (_ ∨ _))

/-- Execute one command of a free run. A jump that is taken leads onto the partner, which is the next
command. -/
def stepOnto (m : Machine) (s : State) : Progress :=
  if m.TakesJump s then
    match m.pairing.partner? s.position with
    | some target => .next ⟨s.tape, target, s.steps + 1, s.console⟩
    | none => m.step .free s
  else m.step .free s

def executeOnto (m : Machine) : Nat → State → Stop := repeating m.stepOnto

def runOnto (m : Machine) (fuel : Nat) (console : Console) : Outcome :=
  match m.start console with
  | .error fault => .refused fault console
  | .ok s => (m.executeOnto fuel s).outcome

/-- The number of jumps that a free run takes. -/
def jumpsTaken (m : Machine) : Nat → State → Nat
  | 0, _ => 0
  | fuel + 1, s =>
    match m.step .free s with
    | .next t => (if m.TakesJump s then 1 else 0) + jumpsTaken m fuel t
    | _ => 0

variable {m : Machine} {s t : State} {fuel k : Nat} {x : Stop}

theorem jumpsTaken_succ_of_next (h : m.step .free s = .next t) (fuel : Nat) :
    m.jumpsTaken (fuel + 1) s = (if m.TakesJump s then 1 else 0) + m.jumpsTaken fuel t := by
  rw [jumpsTaken, h]

/-- A free run takes no notice of its steps. -/
theorem step_delay (m : Machine) (k : Nat) (s : State) :
    m.step .free (s.delay k) = (m.step .free s).delay k := by
  cases hc : m.program.command? s.position with
  | none =>
    rw [step_of_end hc, step_of_end (s := s.delay k) hc]
    rfl
  | some c =>
    rw [step_eq_perform hc rfl, step_eq_perform (s := s.delay k) hc rfl]
    cases hb : c.isBracket with
    | false =>
      rw [perform_plain hb, perform_plain hb]
      change afterEffect s.position (s.steps + k) (c.act s.position s.tape s.console) = _
      cases c.act s.position s.tape s.console with
      | done tape console => exact (Progress.delay_next ..).symm
      | failed fault tape console => rfl
      | waiting tape console => rfl
    | true =>
      obtain ⟨target, hp, -⟩ := exists_partner hc hb
      rcases Pairing.isBracket_iff.mp hb with rfl | rfl
      · rw [perform_loopStart hp, perform_loopStart (s := s.delay k) hp]
        exact (Progress.delay_next ..).symm
      · rw [perform_loopEnd hp, perform_loopEnd (s := s.delay k) hp]
        exact (Progress.delay_next ..).symm

theorem stepOnto_of_not_takesJump (h : ¬m.TakesJump s) : m.stepOnto s = m.step .free s :=
  if_neg h

theorem stepOnto_of_takesJump {target : Nat} (h : m.TakesJump s)
    (hp : m.pairing.partner? s.position = some target) :
    m.stepOnto s = .next ⟨s.tape, target, s.steps + 1, s.console⟩ := by
  rw [stepOnto, if_pos h, hp]

/-- The partner of a bracket that jumps lets the run pass: its test finds the same cell. -/
theorem stepOnto_partner {target : Nat} (h : m.TakesJump s)
    (hp : m.pairing.partner? s.position = some target) (steps : Nat) :
    m.stepOnto ⟨s.tape, target, steps, s.console⟩ =
      .next ⟨s.tape, target + 1, steps + 1, s.console⟩ := by
  rcases h with ⟨hc, hzero⟩ | ⟨hc, hnonzero⟩
  · have he := encloses_of_opening hc hp
    have hend := he.command?_closing
    have hpass : ¬m.TakesJump ⟨s.tape, target, steps, s.console⟩ := by
      rintro (⟨hc', -⟩ | ⟨-, hnonzero⟩)
      · cases hend.symm.trans hc'
      · exact hnonzero hzero
    rw [stepOnto_of_not_takesJump hpass, step_eq_perform hend rfl,
      perform_loopEnd (partner?_iff.mpr (.inr he)), if_pos hzero]
  · have he := encloses_of_closing hc hp
    have hstart := he.command?_opening
    have hpass : ¬m.TakesJump ⟨s.tape, target, steps, s.console⟩ := by
      rintro (⟨-, hzero⟩ | ⟨hc', -⟩)
      · exact hnonzero hzero
      · cases hstart.symm.trans hc'
    rw [stepOnto_of_not_takesJump hpass, step_eq_perform hstart rfl,
      perform_loopStart (partner?_iff.mpr (.inl he)), if_neg hnonzero]

/-- Two steps of the one machine are one step of the other, if a jump is taken. -/
theorem executeOnto_of_takesJump (h : m.TakesJump s) (hs : m.step .free s = .next t) (k fuel : Nat) :
    m.executeOnto (fuel + 2) (s.delay k) = m.executeOnto fuel (t.delay (k + 1)) := by
  obtain ⟨target, hp, hjump⟩ := step_of_takesJump h (show Control.free.objection? s = none from rfl)
  cases hs.symm.trans hjump
  have honto := stepOnto_of_takesJump (s := s.delay k) h hp
  have hpass := stepOnto_partner (s := s.delay k) h hp ((s.delay k).steps + 1)
  rw [executeOnto, repeating_succ_of_next honto, repeating_succ_of_next hpass]
  simp only [State.delay]
  congr 2
  omega

/-- One step is one step, if no jump is taken. -/
theorem executeOnto_of_next (h : ¬m.TakesJump s) (hs : m.step .free s = .next t) (k fuel : Nat) :
    m.executeOnto (fuel + 1) (s.delay k) = m.executeOnto fuel (t.delay k) := by
  apply repeating_succ_of_next
  rw [stepOnto_of_not_takesJump (s := s.delay k) h, step_delay, hs]
  rfl

/-- A step that does not lead on takes no jump. -/
theorem not_takesJump_of_stop (hs : ∀ t, m.step .free s ≠ .next t) : ¬m.TakesJump s := by
  intro h
  obtain ⟨target, -, hjump⟩ := step_of_takesJump h (show Control.free.objection? s = none from rfl)
  exact hs _ hjump

/-- The machine that jumps onto partners is behind by one step for each jump, and else abreast. -/
theorem executeOnto_eq (m : Machine) (fuel k : Nat) (s : State) :
    m.executeOnto (fuel + m.jumpsTaken fuel s) (s.delay k) =
      (m.execute .free fuel s).delay (k + m.jumpsTaken fuel s) := by
  induction fuel generalizing s k with
  | zero => rfl
  | succ fuel ih =>
    cases hs : m.step .free s with
    | next t =>
      rw [execute_succ_of_next hs]
      by_cases hj : m.TakesJump s
      · have hcount : m.jumpsTaken (fuel + 1) s = 1 + m.jumpsTaken fuel t := by
          rw [jumpsTaken_succ_of_next hs, if_pos hj]
        have hfuel : fuel + 1 + (1 + m.jumpsTaken fuel t) = fuel + m.jumpsTaken fuel t + 2 := by
          omega
        rw [hcount, hfuel, executeOnto_of_takesJump hj hs, ih, Nat.add_assoc]
      · have hcount : m.jumpsTaken (fuel + 1) s = m.jumpsTaken fuel t := by
          rw [jumpsTaken_succ_of_next hs, if_neg hj, Nat.zero_add]
        rw [hcount, Nat.add_right_comm, executeOnto_of_next hj hs, ih]
    | halted t | failed fault t | waiting t =>
      have hj : ¬m.TakesJump s := not_takesJump_of_stop (by simp [hs])
      have hcount : m.jumpsTaken (fuel + 1) s = 0 := by rw [jumpsTaken, hs]
      rw [hcount, Nat.add_zero, Nat.add_zero, executeOnto, repeating, execute,
        stepOnto_of_not_takesJump (s := s.delay k) hj, step_delay, hs]
      rfl

theorem Stop.isSettled_delay (x : Stop) (k : Nat) : (x.delay k).isSettled = x.isSettled := by
  cases x <;> rfl

/-- Where the machine that jumps onto partners stops, the other one stops too, with fewer steps. -/
theorem execute_of_executeOnto (h : (m.executeOnto fuel s).isSettled = true) :
    (m.execute .free fuel s).isSettled = true ∧
      m.executeOnto fuel s = (m.execute .free fuel s).delay (m.jumpsTaken fuel s) := by
  have hmore : m.executeOnto (fuel + m.jumpsTaken fuel s) s = m.executeOnto fuel s :=
    repeating_add_of_settled h _
  have heq : m.executeOnto fuel s = (m.execute .free fuel s).delay (m.jumpsTaken fuel s) := by
    rw [← hmore]
    simpa [State.delay] using m.executeOnto_eq fuel 0 s
  refine ⟨?_, heq⟩
  rw [heq, Stop.isSettled_delay] at h
  exact h

/-- The last flush takes no notice of steps either. -/
theorem Stop.outcome_delay_eq_ended {result : Option Fault} {final : State} :
    (x.delay k).outcome = .ended result final ↔
      ∃ s, x.outcome = .ended result s ∧ final = s.delay k := by
  cases x with
  | ended fault s =>
    constructor
    · rintro h
      cases h
      exact ⟨_, rfl, rfl⟩
    · rintro ⟨_, h, rfl⟩
      cases h
      rfl
  | waiting s => exact ⟨nofun, nofun⟩
  | running s => exact ⟨nofun, nofun⟩

theorem runOnto_of_start {console : Console} (h : m.start console = .ok s) (fuel : Nat) :
    m.runOnto fuel console = (m.executeOnto fuel s).outcome := by
  rw [runOnto, h]

/-- A machine that jumps onto the partner of a bracket, and tests the partner again, goes where the
machine goes that jumps behind it. After as many more steps as jumps were taken it is in the same
state, it stops exactly if the other machine stops, and its run ends with the same result and in the
same state, apart from the steps. -/
theorem retest_costs_only_steps {source : String} {memory : Nat} {policy : Policy} {m : Machine}
    (hload : load source memory policy = .ok m) (console : Console) :
    ∃ start, m.start console = .ok start ∧
      (∀ fuel, m.executeOnto (fuel + m.jumpsTaken fuel start) start =
        (m.execute .free fuel start).delay (m.jumpsTaken fuel start)) ∧
      (∀ fuel, (m.executeOnto fuel start).isSettled →
        (m.execute .free fuel start).isSettled ∧
          m.executeOnto fuel start =
            (m.execute .free fuel start).delay (m.jumpsTaken fuel start)) ∧
      ∀ result final, (∃ fuel, m.runOnto fuel console = .ended result final) ↔
        ∃ fuel s, m.run .free fuel console = .ended result s ∧
          final = { s with steps := s.steps + m.jumpsTaken fuel start } := by
  obtain ⟨-, rfl, -, hmem⟩ := load_eq_ok hload
  obtain ⟨tape, -, hstart⟩ := exists_start hmem console
  generalize (⟨tape, 0, 0, console⟩ : State) = start at hstart
  have habreast (fuel : Nat) : m.executeOnto (fuel + m.jumpsTaken fuel start) start =
      (m.execute .free fuel start).delay (m.jumpsTaken fuel start) := by
    simpa [State.delay] using m.executeOnto_eq fuel 0 start
  refine ⟨start, hstart, habreast, fun fuel => execute_of_executeOnto, fun result final => ?_⟩
  simp only [runOnto_of_start hstart, run_of_start hstart]
  constructor
  · rintro ⟨fuel, h⟩
    obtain ⟨-, heq⟩ := execute_of_executeOnto (Stop.isSettled_of_outcome h)
    rw [heq] at h
    obtain ⟨s, hs, rfl⟩ := Stop.outcome_delay_eq_ended.mp h
    exact ⟨fuel, s, hs, rfl⟩
  · rintro ⟨fuel, s, hs, rfl⟩
    refine ⟨fuel + m.jumpsTaken fuel start, ?_⟩
    rw [habreast]
    exact Stop.outcome_delay_eq_ended.mpr ⟨s, hs, rfl⟩

/-- A loop that is skipped and a loop that is run twice, and then a move off the tape: the two jumps
cost two more steps. -/
theorem retest_of_skip_and_repeat :
    ∃ m, load "[é],[.,]<" 1 .bounded = .ok m ∧
      ∃ s, m.run .free 10 (.ofInput [.byte 65, .byte 66] .closed) =
          .ended (some (.underflow 7)) s ∧ s.steps = 9 ∧ s.console.output = [65, 66] ∧
        ∃ fuel, m.runOnto fuel (.ofInput [.byte 65, .byte 66] .closed) =
          .ended (some (.underflow 7)) { s with steps := 11 } := by
  let m : Machine :=
    ⟨Program.parse "[é],[.,]<",
      ⟨#[some 1, some 0, none, some 6, none, none, some 3, none]⟩, 1, .bounded, rfl⟩
  have hm : load "[é],[.,]<" 1 .bounded = .ok m := rfl
  obtain ⟨start, hstart, -, -, hruns⟩ :=
    retest_costs_only_steps hm (.ofInput [.byte 65, .byte 66] .closed)
  cases hstart
  obtain ⟨s, hs, hsteps, houtput⟩ :
      ∃ s, m.run .free 10 (.ofInput [.byte 65, .byte 66] .closed) =
        .ended (some (.underflow 7)) s ∧ s.steps = 9 ∧ s.console.output = [65, 66] :=
    ⟨_, rfl, rfl, rfl⟩
  have hjumps : m.jumpsTaken 10 ⟨⟨#[0], 1, 0, .bounded, by decide, by decide⟩, 0, 0,
      .ofInput [.byte 65, .byte 66] .closed⟩ = 2 := by decide
  refine ⟨m, hm, s, hs, hsteps, houtput, (hruns _ _).mpr ⟨10, s, hs, ?_⟩⟩
  rw [hsteps]
  exact congrArg (fun n => { s with steps := 9 + n }) hjumps.symm

end Machine
end Brainfuck

import Brainfuck.Machine.Fuel
import Brainfuck.Proofs.Matching

/-!
# What a step can do

A step finds no command, meets an objection, acts on tape and console, or passes a bracket. The
brackets of a machine are paired, so that a jump always has a target. A row of steps is counted
exactly, and the fuel of a run is used up step by step.
-/
namespace Brainfuck

theorem Program.commands_getElem? (p : Program) (i : Nat) : p.commands[i]? = p.command? i := by
  simp [Program.commands, Program.command?]

@[simp] theorem Program.length_commands (p : Program) : p.commands.length = p.size := by
  simp [Program.commands, Program.size]

theorem Program.command?_eq_none_iff {p : Program} {i : Nat} :
    p.command? i = none ↔ p.size ≤ i := by
  rw [← commands_getElem?, List.getElem?_eq_none_iff, length_commands]

theorem Program.lt_size_of_command? {p : Program} {i : Nat} {c : Command}
    (h : p.command? i = some c) : i < p.size := by
  rw [← commands_getElem?] at h
  simpa using (List.getElem?_eq_some_iff.mp h).1

namespace Machine
open Brackets Pairing

variable {m : Machine} {control : Control} {s : State}

theorem ofCommands_program (m : Machine) : ofCommands m.program.commands = .ok m.pairing :=
  ofProgram_eq_ok_iff.mp m.paired

theorem partner?_iff {i j : Nat} :
    m.pairing.partner? i = some j ↔ Partners m.program.commands i j :=
  partner?_eq_some_iff m.ofCommands_program

/-- Every bracket of a machine has a partner within the program. -/
theorem exists_partner {c : Command} {i : Nat} (h : m.program.command? i = some c)
    (hc : c.isBracket) : ∃ j, m.pairing.partner? i = some j ∧ j < m.program.size := by
  rw [← Program.commands_getElem?] at h
  have hs := (isMatching_partner? m.ofCommands_program).isSome_iff i
  obtain ⟨j, hj⟩ := Option.isSome_iff_exists.mp (hs.mpr ⟨c, h, hc⟩)
  refine ⟨j, hj, ?_⟩
  rw [← Program.length_commands]
  exact (partner?_iff.mp hj).symm.lt_length

/-- A machine that was loaded has the settings that were asked for, and a tape can be had. -/
theorem load_eq_ok {source : String} {memory : Nat} {policy : Policy}
    (h : load source memory policy = .ok m) :
    m.program = Program.parse source ∧ m.memory = memory ∧ m.policy = policy ∧
      memory ≤ maxMemory := by
  unfold load at h
  split at h
  · exact nomatch h
  · next hle =>
    split at h
    · cases h
      exact ⟨rfl, rfl, rfl, Nat.le_of_not_lt hle⟩
    · exact nomatch h

theorem exists_start (h : m.memory ≤ maxMemory) (console : Console) :
    ∃ tape, Tape.blank m.memory m.policy = .ok tape ∧
      m.start console = .ok ⟨tape, 0, 0, console⟩ := by
  have hle : max 1 m.memory ≤ Tape.capacity := by
    simp only [maxMemory, Tape.capacity] at h ⊢
    omega
  simp [start, Tape.blank, hle]

theorem start_eq_ok {console : Console} {granted : Bool} (h : m.start console granted = .ok s) :
    s.position = 0 ∧ s.steps = 0 ∧ s.console = console := by
  unfold start at h
  split at h
  · cases h
    exact ⟨rfl, rfl, rfl⟩
  · exact nomatch h

/-- A run that cannot start has no tape. -/
theorem start_eq_error {console : Console} {granted : Bool} {fault : Fault}
    (h : m.start console granted = .error fault) : fault = .refused (max 1 m.memory) := by
  unfold start at h
  split at h
  · exact nomatch h
  · next obstacle hblank =>
    cases h
    unfold Tape.blank at hblank
    split at hblank
    · exact nomatch hblank
    · cases hblank
      rfl

/-- There is no tape if its cells are not granted, or too many for any tape. -/
theorem exists_start_eq_error_iff {console : Console} {granted : Bool} :
    (∃ fault, m.start console granted = .error fault) ↔
      granted = false ∨ Tape.capacity < max 1 m.memory := by
  unfold start Tape.blank
  by_cases hfits : granted ∧ max 1 m.memory ≤ Tape.capacity
  · rw [if_pos hfits]
    refine ⟨nofun, fun hnot => ?_⟩
    obtain ⟨rfl, hle⟩ := hfits
    exact absurd (hnot.resolve_left nofun) (Nat.not_lt.mpr hle)
  · rw [if_neg hfits]
    refine ⟨fun _ => ?_, fun _ => ⟨_, rfl⟩⟩
    rwa [not_and_or, Bool.not_eq_true, Nat.not_le] at hfits

theorem start_of_granted {console : Console} {granted : Bool} (h : m.start console granted = .ok s) :
    m.start console = .ok s := by
  cases granted with
  | true => exact h
  | false =>
    obtain ⟨fault, hfault⟩ := exists_start_eq_error_iff.mpr (.inl rfl)
    exact nomatch h.symm.trans hfault

theorem perform_plain {c : Command} (h : c.isBracket = false) :
    m.perform c s = afterEffect s.position s.steps (c.act s.position s.tape s.console) := by
  cases c with
  | loopStart => exact nomatch h
  | loopEnd => exact nomatch h
  | _ => rfl

/-- A `[` goes behind its partner or into the loop. -/
theorem perform_loopStart {target : Nat} (h : m.pairing.partner? s.position = some target) :
    m.perform .loopStart s =
      .next ⟨s.tape, (if s.tape.current = 0 then target else s.position) + 1, s.steps + 1,
        s.console⟩ := by
  by_cases hz : s.tape.current = 0 <;> simp [perform, jump, h, hz]

/-- A `]` goes out of the loop or behind its partner. -/
theorem perform_loopEnd {target : Nat} (h : m.pairing.partner? s.position = some target) :
    m.perform .loopEnd s =
      .next ⟨s.tape, (if s.tape.current = 0 then s.position else target) + 1, s.steps + 1,
        s.console⟩ := by
  by_cases hz : s.tape.current = 0 <;> simp [perform, jump, h, hz]

theorem step_eq_perform {c : Command} (hc : m.program.command? s.position = some c)
    (ho : control.objection? s = none) : m.step control s = m.perform c s := by
  simp [step, hc, ho]

theorem step_of_end (h : m.program.command? s.position = none) :
    m.step control s = .halted s := by
  simp [step, h]

/-- The ways in which a step can go. -/
inductive StepView (m : Machine) (control : Control) (s : State) : Progress → Prop where
  | atEnd (none : m.program.command? s.position = none) : StepView m control s (.halted s)
  | objected {command fault} (found : m.program.command? s.position = some command)
      (objection : control.objection? s = some fault) :
      StepView m control s (.failed fault s)
  | done {command tape console} (found : m.program.command? s.position = some command)
      (objection : control.objection? s = none) (plain : command.isBracket = false)
      (act : command.act s.position s.tape s.console = .done tape console) :
      StepView m control s (.next ⟨tape, s.position + 1, s.steps + 1, console⟩)
  | failed {command fault tape console} (found : m.program.command? s.position = some command)
      (objection : control.objection? s = none) (plain : command.isBracket = false)
      (act : command.act s.position s.tape s.console = .failed fault tape console) :
      StepView m control s (.failed fault ⟨tape, s.position, s.steps, console⟩)
  | waiting {command tape console} (found : m.program.command? s.position = some command)
      (objection : control.objection? s = none) (plain : command.isBracket = false)
      (act : command.act s.position s.tape s.console = .waiting tape console) :
      StepView m control s (.waiting ⟨tape, s.position, s.steps, console⟩)
  | opening {target} (found : m.program.command? s.position = some .loopStart)
      (objection : control.objection? s = none)
      (partner : m.pairing.partner? s.position = some target) (within : target < m.program.size) :
      StepView m control s
        (.next ⟨s.tape, (if s.tape.current = 0 then target else s.position) + 1, s.steps + 1,
          s.console⟩)
  | closing {target} (found : m.program.command? s.position = some .loopEnd)
      (objection : control.objection? s = none)
      (partner : m.pairing.partner? s.position = some target) (within : target < m.program.size) :
      StepView m control s
        (.next ⟨s.tape, (if s.tape.current = 0 then s.position else target) + 1, s.steps + 1,
          s.console⟩)

theorem step_view (m : Machine) (control : Control) (s : State) :
    StepView m control s (m.step control s) := by
  cases hc : m.program.command? s.position with
  | none =>
    rw [step_of_end hc]
    exact .atEnd hc
  | some c =>
    cases ho : control.objection? s with
    | some fault =>
      have hs : m.step control s = .failed fault s := by simp [step, hc, ho]
      rw [hs]
      exact .objected hc ho
    | none =>
      rw [step_eq_perform hc ho]
      cases hb : c.isBracket with
      | false =>
        rw [perform_plain hb]
        cases ha : c.act s.position s.tape s.console with
        | done tape console => exact .done hc ho hb ha
        | failed fault tape console => exact .failed hc ho hb ha
        | waiting tape console => exact .waiting hc ho hb ha
      | true =>
        obtain ⟨target, ht, hlt⟩ := exists_partner hc hb
        rcases isBracket_iff.mp hb with rfl | rfl
        · rw [perform_loopStart ht]
          exact .opening hc ho ht hlt
        · rw [perform_loopEnd ht]
          exact .closing hc ho ht hlt

/-- A command is begun: it is next and nothing is objected. -/
def Begins (m : Machine) (control : Control) (c : Command) (s : State) : Prop :=
  m.program.command? s.position = some c ∧ control.objection? s = none

instance (c : Command) (s : State) : Decidable (m.Begins control c s) :=
  inferInstanceAs (Decidable (_ ∧ _))

theorem steps_of_next {t : State} (h : m.step control s = .next t) : t.steps = s.steps + 1 := by
  have hv := m.step_view control s
  rw [h] at hv
  cases hv <;> rfl

/-- Only a step that meets no objection goes on. -/
theorem objection?_of_next {t : State} (h : m.step control s = .next t) :
    control.objection? s = none := by
  have hv := m.step_view control s
  rw [h] at hv
  cases hv with
  | done _ objection _ _ => exact objection
  | opening _ objection _ _ => exact objection
  | closing _ objection _ _ => exact objection

/-- Without an objection a step goes as it does in a free run. -/
theorem step_eq_free (h : control.objection? s = none) : m.step control s = m.step .free s := by
  cases hc : m.program.command? s.position with
  | none => rw [step_of_end hc, step_of_end hc]
  | some command => rw [step_eq_perform hc h, step_eq_perform hc rfl]

theorem run_of_start {console : Console} (h : m.start console = .ok s) (fuel : Nat) :
    m.run control fuel console = (m.execute control fuel s).outcome := by
  rw [run, h]

/-- A run goes from one state to another in exactly so many steps. -/
inductive Leads (m : Machine) (control : Control) : Nat → State → State → Prop where
  | refl (s : State) : Leads m control 0 s s
  | cons {n : Nat} {s t u : State} (step : m.step control s = .next t)
      (tail : Leads m control n t u) : Leads m control (n + 1) s u

namespace Leads

variable {t u : State} {n k : Nat}

theorem trans (h : m.Leads control n s t) (h' : m.Leads control k t u) :
    m.Leads control (n + k) s u := by
  induction h with
  | refl => simpa using h'
  | cons hs _ ih => simpa [Nat.add_right_comm] using cons hs (ih h')

theorem snoc (h : m.Leads control n s t) (hs : m.step control t = .next u) :
    m.Leads control (n + 1) s u :=
  h.trans (.cons hs (.refl u))

theorem steps_eq (h : m.Leads control n s t) : t.steps = s.steps + n := by
  induction h with
  | refl => rfl
  | cons hs _ ih =>
    rw [ih, steps_of_next hs]
    omega

/-- Steps that were made need no more fuel. -/
theorem execute_add (h : m.Leads control n s t) (k : Nat) :
    m.execute control (n + k) s = m.execute control k t := by
  induction h with
  | refl => simp
  | cons hs _ ih => rw [Nat.add_right_comm, execute_succ_of_next hs, ih]

theorem execute_eq (h : m.Leads control n s t) : m.execute control n s = .running t :=
  h.execute_add 0

theorem unique (h : m.Leads control n s t) (h' : m.Leads control n s u) : t = u :=
  Stop.running.inj (h.execute_eq.symm.trans h'.execute_eq)

/-- A row of steps begins with every shorter one. -/
theorem exists_shorter (h : m.Leads control n s t) (hk : k ≤ n) :
    ∃ u, m.Leads control k s u := by
  induction h generalizing k with
  | refl s =>
    cases Nat.le_zero.mp hk
    exact ⟨s, .refl s⟩
  | @cons _ s _ _ hs _ ih =>
    cases k with
    | zero => exact ⟨s, .refl s⟩
    | succ k =>
      obtain ⟨u, hu⟩ := ih (Nat.le_of_succ_le_succ hk)
      exact ⟨u, .cons hs hu⟩

/-- A run that comes to a step that fails ends with its fault. -/
theorem execute_of_failed {fault : Fault} {fuel : Nat} (h : m.Leads control n s t)
    (hs : m.step control t = .failed fault u) (hfuel : n < fuel) :
    m.execute control fuel s = .ended (some fault) u := by
  obtain ⟨d, rfl⟩ := Nat.le.dest hfuel
  rw [Nat.succ_add, ← Nat.add_succ, h.execute_add, execute, hs]

theorem run_of_failed {console : Console} {fault : Fault} {fuel : Nat}
    (hstart : m.start console = .ok s) (h : m.Leads control n s t)
    (hs : m.step control t = .failed fault u) (hfuel : n < fuel) :
    m.run control fuel console = .ended (some fault) { u with console := u.console.flush.1 } := by
  rw [run_of_start hstart, h.execute_of_failed hs hfuel]
  rfl

/-- A run that stops makes all the steps that there are. -/
theorem settled_sub (h : m.Leads control n s t)
    (hk : (m.execute control k s).isSettled = true) :
    n < k ∧ (m.execute control (k - n) t).isSettled = true := by
  induction h generalizing k with
  | refl s =>
    cases k with
    | zero => exact nomatch hk
    | succ k => exact ⟨Nat.succ_pos k, hk⟩
  | @cons n s t u hs _ ih =>
    cases k with
    | zero => exact nomatch hk
    | succ k =>
      rw [execute_succ_of_next hs] at hk
      obtain ⟨hlt, hset⟩ := ih hk
      exact ⟨by omega, by rwa [Nat.add_sub_add_right]⟩

end Leads

theorem leads_of_running {t : State} {n : Nat} (h : m.execute control n s = .running t) :
    m.Leads control n s t := by
  induction n generalizing s with
  | zero =>
    cases h
    exact .refl t
  | succ n ih =>
    rw [execute] at h
    cases hs : m.step control s with
    | next u =>
      rw [hs] at h
      exact .cons hs (ih h)
    | halted u | failed fault u | waiting u =>
      rw [hs] at h
      cases h

end Machine
end Brainfuck

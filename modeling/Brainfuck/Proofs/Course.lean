import Brainfuck.Proofs.Stepping
import Brainfuck.Supervision
import Brainfuck.Tape.View

/-!
# The course of a run

The states that a run goes through, with all that came before. The stop flag may be raised or
taken back by others at any moment between two commands. A run ends behind its last command or
with the fault of a step, and with one more flush; a run with fuel is such a course.
-/
namespace Brainfuck
namespace Command

/-- The faults that a command itself can have on a tape. -/
inductive Fails (c : Command) (position : Nat) (tape : Tape) : Fault → Prop where
  | underflow (command : c = .left) (edge : tape.pointer = 0) :
      Fails c position tape (.underflow position)
  | overflow (command : c = .right) (bounded : tape.policy = .bounded)
      (edge : tape.pointer + 1 = tape.size) :
      Fails c position tape (.overflow position tape.pointer tape.size)
  | refused (command : c = .right) (growable : tape.policy = .growable) (cells : Nat) :
      Fails c position tape (.refused cells)
  | io (command : c = .output ∨ c = .input) (reason : String) :
      Fails c position tape (.io position reason)

/-- The ways in which a command can act on a tape: it leaves the tape alone or does one
operation on it, and a command that fails or waits has done nothing to it. -/
inductive ActView (c : Command) (position : Nat) (tape : Tape) : Effect → Prop where
  | kept (console : Console) : ActView c position tape (.done tape console)
  | changed {op tape'} (operation : tape.apply op = (tape', none)) (console : Console) :
      ActView c position tape (.done tape' console)
  | failed {fault} (fails : c.Fails position tape fault) (console : Console) :
      ActView c position tape (.failed fault tape console)
  | waiting (console : Console) : ActView c position tape (.waiting tape console)

theorem act_view (c : Command) (position : Nat) (tape : Tape) (console : Console) :
    ActView c position tape (c.act position tape console) := by
  cases c with
  | right =>
    have hv := tape.moveRight_view true
    cases hm : tape.moveRight with
    | mk tape' obstacle =>
      rw [hm] at hv
      simp only [act, hm]
      cases hv with
      | within _ _ _ _ => exact .changed (show tape.apply .right = _ from hm) console
      | grown _ _ _ _ _ _ _ => exact .changed (show tape.apply .right = _ from hm) console
      | overflow edge bounded => exact .failed (.overflow rfl bounded edge) console
      | refused _ growable _ => exact .failed (.refused rfl growable _) console
  | left =>
    have hv := tape.moveLeft_view
    cases hm : tape.moveLeft with
    | mk tape' obstacle =>
      rw [hm] at hv
      simp only [act, hm]
      cases hv with
      | within _ _ _ => exact .changed (show tape.apply .left = _ from hm) console
      | underflow edge => exact .failed (.underflow rfl edge) console
  | increment => exact .changed (show tape.apply .increment = _ from rfl) console
  | decrement => exact .changed (show tape.apply .decrement = _ from rfl) console
  | output =>
    simp only [act]
    rcases console.put tape.current with ⟨console', _ | failure⟩
    · exact .kept console'
    · exact .failed (.io (.inl rfl) _) console'
  | input =>
    simp only [act]
    rcases console.flush with ⟨console', _ | failure⟩
    · simp only
      rcases console'.take with ⟨console'', value | _ | failure | _⟩
      · exact .changed (show tape.apply (.set value) = _ from rfl) console''
      · exact .changed (show tape.apply (.set 0) = _ from rfl) console''
      · exact .failed (.io (.inr rfl) _) console''
      · exact .waiting console''
    · exact .failed (.io (.inr rfl) _) console'
  | loopStart => exact .kept console
  | loopEnd => exact .kept console

end Command

namespace Machine
open Supervision

variable {m : Machine} {control : Control} {console : Console}

/-- A step goes to a place within the program or right behind it, with one operation on the tape
at most. -/
theorem step_next {s t : State} (h : m.step control s = .next t) :
    t.position ≤ m.program.size ∧
      (t.tape = s.tape ∨ ∃ op, s.tape.apply op = (t.tape, none)) := by
  have hv := m.step_view control s
  rw [h] at hv
  cases hv with
  | @done c tape console found _ _ act =>
    refine ⟨Program.lt_size_of_command? found, ?_⟩
    have ha := c.act_view s.position s.tape s.console
    rw [act] at ha
    cases ha with
    | kept _ => exact .inl rfl
    | changed operation _ => exact .inr ⟨_, operation⟩
  | @opening target found _ _ within =>
    have hlt := Program.lt_size_of_command? found
    refine ⟨?_, .inl rfl⟩
    simp only
    split <;> omega
  | @closing target found _ _ within =>
    have hlt := Program.lt_size_of_command? found
    refine ⟨?_, .inl rfl⟩
    simp only
    split <;> omega

/-- A step that waits stays where it is and leaves the tape alone. -/
theorem step_waiting {s t : State} (h : m.step control s = .waiting t) :
    t.position = s.position ∧ t.tape = s.tape := by
  have hv := m.step_view control s
  rw [h] at hv
  cases hv with
  | @waiting c tape console _ _ _ act =>
    have ha := c.act_view s.position s.tape s.console
    rw [act] at ha
    cases ha
    exact ⟨rfl, rfl⟩

/-- A step that fails stays where it is and leaves the tape alone. Its fault is an objection or
the fault of the command itself. -/
theorem step_failed {s t : State} {fault : Fault} (h : m.step control s = .failed fault t) :
    t.position = s.position ∧ t.tape = s.tape ∧
      (control.objection? s = some fault ∨
        ∃ c, m.program.command? s.position = some c ∧ c.Fails s.position s.tape fault) := by
  have hv := m.step_view control s
  rw [h] at hv
  cases hv with
  | objected _ objection => exact ⟨rfl, rfl, .inl objection⟩
  | @failed c _ tape console found _ _ act =>
    have ha := c.act_view s.position s.tape s.console
    rw [act] at ha
    cases ha with
    | failed fails _ => exact ⟨rfl, rfl, .inr ⟨c, found, fails⟩⟩

theorem step_halted {s t : State} (h : m.step control s = .halted t) :
    t = s ∧ m.program.size ≤ s.position := by
  have hv := m.step_view control s
  rw [h] at hv
  cases hv with
  | atEnd none => exact ⟨rfl, Program.command?_eq_none_iff.mp none⟩

/-- The states of a run so far: the present one, and those before it, the latest one first.
Between two commands others may raise the stop flag or take it back. -/
inductive Course (m : Machine) (control : Control) (console : Console) :
    List State → State → Prop where
  | start {s : State} (h : m.start console = .ok s) : Course m control console [] s
  | flag {past : List State} {s : State} (raised : Bool)
      (before : Course m control console past s) :
      Course m control console past (Worker.notice raised s)
  | step {past : List State} {s t : State} (before : Course m control console past s)
      (h : m.step control s = .next t) : Course m control console (s :: past) t

/-- The commands of a run stop in a state, by themselves or by a fault. -/
inductive Stops (m : Machine) (control : Control) (s : State) : Option Fault → State → Prop where
  | halted {t : State} (h : m.step control s = .halted t) : Stops m control s none t
  | failed {fault : Fault} {t : State} (h : m.step control s = .failed fault t) :
      Stops m control s (some fault) t

def Ends (m : Machine) (control : Control) (console : Console) (past : List State) (s : State)
    (result : Option Fault) (final : State) : Prop :=
  ∃ fault t, m.Course control console past s ∧ m.Stops control s fault t ∧
    finish fault t = (result, final)

/-- A run that has stopped is where its last command found it. -/
theorem Stops.same_place {s t : State} {fault : Option Fault} (h : m.Stops control s fault t) :
    t.position = s.position ∧ t.tape = s.tape := by
  cases h with
  | halted h =>
    obtain ⟨rfl, -⟩ := step_halted h
    exact ⟨rfl, rfl⟩
  | failed h => exact ⟨(step_failed h).1, (step_failed h).2.1⟩

theorem Ends.course {past : List State} {s final : State} {result : Option Fault}
    (h : m.Ends control console past s result final) : m.Course control console past s := by
  obtain ⟨_, _, hc, -, -⟩ := h
  exact hc

theorem Ends.same_place {past : List State} {s final : State} {result : Option Fault}
    (h : m.Ends control console past s result final) :
    final.position = s.position ∧ final.tape = s.tape := by
  obtain ⟨fault, t, -, hs, hf⟩ := h
  cases hf
  exact hs.same_place

/-- The result of a run: the fault of its last command, or that of the last flush. -/
theorem Ends.result_cases {past : List State} {s final : State} {fault : Fault}
    (h : m.Ends control console past s (some fault) final) :
    (∃ t, m.step control s = .failed fault t) ∨
      m.program.size ≤ s.position ∧ ∃ reason, fault = .io s.position reason := by
  obtain ⟨cause, t, -, hs, hf⟩ := h
  have hr : (finish cause t).1 = some fault := congrArg Prod.fst hf
  cases hs with
  | @halted t hstep =>
    obtain ⟨rfl, hpos⟩ := step_halted hstep
    have hfl : (t.console.flush.2.map fun f => Fault.io t.position f.message) = some fault := hr
    obtain ⟨failure, -, rfl⟩ := Option.map_eq_some_iff.mp hfl
    exact .inr ⟨hpos, failure.message, rfl⟩
  | failed hstep =>
    cases hr
    exact .inl ⟨_, hstep⟩

/-- A row of steps carries a course on. -/
theorem Course.leads {past : List State} {s t : State} {n : Nat}
    (hc : m.Course control console past s) (h : m.Leads control n s t) :
    ∃ past', m.Course control console past' t := by
  induction h generalizing past with
  | refl => exact ⟨past, hc⟩
  | cons hs _ ih => exact ih (.step hc hs)

theorem Course.execute {past : List State} {s t : State} {fault : Option Fault} {fuel : Nat}
    (hc : m.Course control console past s) (h : m.execute control fuel s = .ended fault t) :
    ∃ past' s', m.Course control console past' s' ∧ m.Stops control s' fault t := by
  induction fuel generalizing past s with
  | zero => cases h
  | succ fuel ih =>
    rw [Machine.execute] at h
    cases hs : m.step control s with
    | next s' =>
      rw [hs] at h
      exact ih (.step hc hs) h
    | halted s' =>
      rw [hs] at h
      cases h
      exact ⟨past, s, hc, .halted hs⟩
    | failed fault s' =>
      rw [hs] at h
      cases h
      exact ⟨past, s, hc, .failed hs⟩
    | waiting s' =>
      rw [hs] at h
      cases h

/-- A run that ends with some fuel ends like this. -/
theorem ends_of_run {fuel : Nat} {granted : Bool} {result : Option Fault} {final : State}
    (h : m.run control fuel console granted = .ended result final) :
    ∃ past s, m.Ends control console past s result final := by
  unfold run at h
  split at h
  · exact nomatch h
  · next s hs =>
    cases he : m.execute control fuel s with
    | ended fault t =>
      obtain ⟨past, s', hc, hst⟩ := (Course.start (start_of_granted hs)).execute he
      rw [he, Stop.outcome] at h
      cases h
      exact ⟨past, s', fault, t, hc, hst, rfl⟩
    | waiting t =>
      rw [he] at h
      exact nomatch h
    | running t =>
      rw [he] at h
      exact nomatch h

end Machine
end Brainfuck

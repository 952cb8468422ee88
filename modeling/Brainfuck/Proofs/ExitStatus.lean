import Brainfuck.Proofs.Validity

/-!
# Exit statuses

A session ends with one of eight statuses that are documented, and output that cannot be written is
an I/O failure. The commands of a run stop at once when their output fails, so that a run has
failed output among its calls only if it ends with an I/O failure, or if something else had stopped
it before the last flush. There is one exception, and it breaks both promises: a check that has a
valid source to confirm, in front of a standard output that refuses the confirmation.
-/
namespace Brainfuck

/-- A call that leaves output unwritten. A write that was interrupted is made again. -/
def Call.failsOutput : Call → Bool
  | .wroteNothing | .flushFailed _ => true
  | .writeFailed failure => !failure.interrupted
  | _ => false

theorem Call.failsOutput_of_isRead {call : Call} (h : call.isRead) : call.failsOutput = false := by
  cases call with
  | received _ | receivedNothing | readFailed _ => rfl
  | _ => exact nomatch h

namespace Console

/-- No output has failed so far. -/
def Intact (c : Console) : Prop := ∀ call ∈ c.calls, call.failsOutput = false

variable {c c' : Console}

theorem intact_of_fresh (h : c.calls = []) : c.Intact := by
  rw [Intact, h]
  exact nofun

theorem Intact.cons {call : Call} (h : c.Intact) (hcall : call.failsOutput = false)
    (hcalls : c'.calls = call :: c.calls) : c'.Intact := by
  rw [Intact, hcalls]
  exact List.forall_mem_cons.mpr ⟨hcall, h⟩

theorem Intact.putScripted {byte : UInt8} {flushes : List FlushEvent} {writes : List WriteEvent}
    (h : c.Intact) (hput : putScripted byte flushes writes c = (c', none)) : c'.Intact := by
  induction writes generalizing c with
  | nil =>
    cases hput
    exact h.cons rfl rfl
  | cons event rest ih =>
    cases event with
    | accept | cancel =>
      cases hput
      exact h.cons rfl rfl
    | acceptNothing => cases hput
    | raise =>
      have hraised : Intact { c with cancelled := true } := h
      exact ih hraised hput
    | fail failure =>
      rw [Console.putScripted] at hput
      split at hput
      · next hinterrupted =>
        have hretry : (Call.writeFailed failure).failsOutput = false := by
          rw [Call.failsOutput, hinterrupted]
          rfl
        exact ih (h.cons hretry rfl) hput
      · cases hput

theorem Intact.put {byte : UInt8} (h : c.Intact) (hput : c.put byte = (c', none)) : c'.Intact := by
  unfold Console.put at hput
  split at hput
  · exact h.putScripted hput
  · split at hput
    · cases hput
      exact h.cons rfl rfl
    · cases hput

theorem Intact.flush (h : c.Intact) (hflush : c.flush = (c', none)) : c'.Intact := by
  have hv := c.flush_view
  rw [hflush] at hv
  cases hv with
  | succeeded calls => exact h.cons rfl calls

/-- A read cannot harm the output. -/
theorem Intact.take (h : c.Intact) : c.take.1.Intact := by
  obtain ⟨reads, hreads, hcalls⟩ := c.take_calls
  rw [Intact, hcalls, List.forall_mem_append]
  exact ⟨fun call hcall => Call.failsOutput_of_isRead (hreads call hcall), h⟩

end Console

/-- Output fails at a command only if the command fails with an I/O failure. -/
theorem Command.act_intact {console : Console} (h : console.Intact) (c : Command) (position : Nat)
    (tape : Tape) :
    (c.act position tape console).console.Intact ∨
      ∃ fault tape' console', c.act position tape console = .failed fault tape' console' ∧
        fault.kind = .io := by
  cases c with
  | right => exact .inl ((Effect.console_ofMove position console tape.moveRight).symm ▸ h)
  | left => exact .inl ((Effect.console_ofMove position console tape.moveLeft).symm ▸ h)
  | output =>
    simp only [act]
    rcases hput : console.put tape.current with ⟨console', _ | failure⟩
    · exact .inl (h.put hput)
    · exact .inr ⟨_, _, _, rfl, rfl⟩
  | input =>
    simp only [act]
    rcases hflush : console.flush with ⟨console', _ | failure⟩
    · exact .inl ((Effect.console_ofRead position tape console'.take).symm ▸ (h.flush hflush).take)
    · exact .inr ⟨_, _, _, rfl, rfl⟩
  | _ => exact .inl h

namespace Machine

variable {m : Machine} {control : Control} {s : State}

theorem step_intact (h : s.console.Intact) (m : Machine) (control : Control) :
    (m.step control s).state.console.Intact ∨
      ∃ fault t, m.step control s = .failed fault t ∧ fault.kind = .io := by
  have hv := m.step_view control s
  generalize m.step control s = progress at hv ⊢
  cases hv with
  | @done c _ _ _ _ _ act | @waiting c _ _ _ _ _ act =>
    rcases Command.act_intact h c s.position s.tape with hintact | ⟨_, _, _, hact, -⟩
    · rw [act] at hintact
      exact .inl hintact
    · exact nomatch act.symm.trans hact
  | @failed c _ _ _ _ _ _ act =>
    rcases Command.act_intact h c s.position s.tape with hintact | ⟨_, _, _, hact, hkind⟩
    · rw [act] at hintact
      exact .inl hintact
    · cases act.symm.trans hact
      exact .inr ⟨_, _, rfl, hkind⟩
  | _ => exact .inl h

/-- Output fails in the course of a run only if the run stops with an I/O failure. -/
theorem execute_intact (h : s.console.Intact) (m : Machine) (control : Control) (fuel : Nat) :
    (m.execute control fuel s).state.console.Intact ∨
      ∃ fault t, m.execute control fuel s = .ended (some fault) t ∧ fault.kind = .io := by
  induction fuel generalizing s with
  | zero => exact .inl h
  | succ fuel ih =>
    have hstep := step_intact h m control
    rw [execute]
    cases hs : m.step control s with
    | next t =>
      rw [hs] at hstep
      rcases hstep with hintact | ⟨_, _, hfailed, -⟩
      · exact ih hintact
      · cases hfailed
    | halted t | waiting t =>
      rw [hs] at hstep
      rcases hstep with hintact | ⟨_, _, hfailed, -⟩
      · exact .inl hintact
      · cases hfailed
    | failed fault t =>
      rw [hs] at hstep
      rcases hstep with hintact | ⟨_, _, hfailed, hkind⟩
      · exact .inl hintact
      · cases hfailed
        exact .inr ⟨_, _, rfl, hkind⟩

/-- The output of a run fails while nothing else has stopped the commands: at one of them, or at the
last flush when they have come to their end. -/
def OutputFails (m : Machine) (control : Control) (fuel : Nat) (console : Console) : Prop :=
  ∃ s, m.start console = .ok s ∧
    (¬ (m.execute control fuel s).state.console.Intact ∨
      ∃ t, m.execute control fuel s = .ended none t ∧ t.console.flush.2.isSome)

/-- A run whose output fails ends with an I/O failure. -/
theorem run_of_outputFails {fuel : Nat} {console : Console} (hintact : console.Intact)
    (h : m.OutputFails control fuel console) :
    ∃ fault t, m.run control fuel console = .ended (some fault) t ∧ fault.kind = .io := by
  obtain ⟨s, hstart, hfails⟩ := h
  rw [run_of_start hstart]
  rcases hfails with hfails | ⟨t, hended, hflush⟩
  · have hs : s.console.Intact := (start_eq_ok hstart).2.2.symm ▸ hintact
    rcases execute_intact hs m control fuel with h | ⟨fault, t, hended, hkind⟩
    · exact absurd h hfails
    · rw [hended]
      exact ⟨fault, _, rfl, hkind⟩
  · rw [hended, Stop.outcome, finish]
    rcases hresult : t.console.flush with ⟨console', _ | failure⟩
    · rw [hresult] at hflush
      cases hflush
    · exact ⟨.io t.position failure.message, _, rfl, rfl⟩

end Machine

namespace Session
open Arguments Brackets

/-- The statuses that a session may end with. -/
def documentedStatuses : List Nat := [0, 1, 2, 3, 4, 5, 6, 130]

/-- A command fails to write its output, and nothing else has ended it before. Only a check and a
run write to standard output. -/
def Task.OutputFails (d : Devices) (patience : Nat) : Task → Prop
  | .leave _ _ => False
  | .confirm _ => d.refusal.isSome
  | .execute job _ => job.machine.OutputFails (.watched job.stepLimit) patience d.console

def OutputFails (i : Invocation) (d : Devices) (patience : Nat) : Prop :=
  ∃ todo left, task i d = some (todo, left) ∧ todo.OutputFails left patience

/-- A check has a valid source to confirm, and standard output refuses the confirmation. -/
def Muted (i : Invocation) (d : Devices) : Prop :=
  ∃ o source left, Obtains i d .check o source left ∧ BalancedText source ∧ d.refusal.isSome

variable {i : Invocation} {d left : Devices} {sub : Subcommand} {o : Options} {todo : Task}
  {patience : Nat} {breakdown : String → String} {report : Report}

theorem status_documented (fault : Fault) : fault.status ∈ documentedStatuses := by
  rw [Fault.status]
  generalize fault.kind = kind
  cases kind <;> decide

/-- What a worker comes to has a documented status. -/
theorem conclude_documented (job : Job) (result : Option Fault) :
    (job.conclude false (.finished result)).status ∈ documentedStatuses := by
  cases result with
  | none => exact List.mem_cons_self
  | some fault =>
    have hstatus : (job.conclude false (.finished (some fault))).status = fault.status := by
      cases fault <;> rfl
    rw [hstatus]
    exact status_documented fault

/-- A task that is well decided: what is said before leaving has a documented status, and only a
check of a valid source has something to confirm. -/
def Task.Due (i : Invocation) (d left : Devices) : Task → Prop
  | .leave ending _ => ending.status ∈ documentedStatuses
  | .confirm _ => ∃ o source, Obtains i d .check o source left ∧ BalancedText source
  | .execute _ _ => True

theorem loadSource_documented {ending : Ending}
    (h : loadSource i d sub o = some (.error ending, left)) :
    ending.status ∈ documentedStatuses := by
  have hstatus : ending.status = 1 ∨ ending.status = 2 := by
    unfold loadSource at h
    split at h
    · cases h
      exact .inr rfl
    · cases h
      exact .inr rfl
    · obtain ⟨⟨text, _⟩, -, heq⟩ := Option.map_eq_some_iff.mp h
      cases text with
      | error failure =>
        cases heq
        exact .inl rfl
      | ok text => exact nomatch heq
    · exact nomatch h
  rcases hstatus with h | h <;> rw [h] <;> decide

theorem due_prepare (source : String) (file : Settings × List Notice) :
    (prepare i o source file).Due i d left := by
  obtain ⟨notices, hprepare⟩ := exists_prepare_eq i o source file
  rw [hprepare]
  split
  · exact status_documented _
  · trivial

theorem due_check {source : String} (h : Obtains i d .check o source left) :
    (check i source).Due i d left := by
  unfold check
  split
  · exact status_documented _
  · next m hm =>
    refine ⟨o, source, h, ?_⟩
    by_contra hbalanced
    obtain ⟨fault, -, hload⟩ := Machine.exists_fault_of_not_balancedText hbalanced
    exact nomatch hm.symm.trans (hload _ (by decide) _)

theorem due_task (h : task i d = some (todo, left)) : todo.Due i d left := by
  unfold task at h
  split at h
  · cases h
    exact (by decide : 2 ∈ documentedStatuses)
  · next asked _ =>
    cases h
    exact (by cases asked <;> decide : (if asked then 0 else 2) ∈ documentedStatuses)
  · next sub o hparse =>
    unfold perform at h
    split at h
    · cases h
      exact (by decide : 0 ∈ documentedStatuses)
    · next hhelp =>
      obtain ⟨⟨source, d'⟩, hload, hproceed⟩ := Option.bind_eq_some_iff.mp h
      cases source with
      | error ending =>
        cases hproceed
        exact loadSource_documented hload
      | ok source =>
        cases sub with
        | run =>
          obtain ⟨⟨file, _⟩, -, heq⟩ := Option.map_eq_some_iff.mp hproceed
          cases heq
          exact due_prepare source file
        | check =>
          cases hproceed
          exact due_check ⟨hparse, Bool.not_eq_true _ ▸ hhelp, hload⟩

/-- A job ends with a documented status, and with the status of an I/O failure if its output
fails. -/
theorem attend_keeps {job : Job} {notices : List Notice}
    (h : attend job notices d patience = some report) :
    report.ending.status ∈ documentedStatuses ∧
      (job.machine.OutputFails (.watched job.stepLimit) patience d.console →
        report.ending.status = 5) := by
  constructor
  · rcases attend_cases h with ⟨result, -, hending⟩ | hending | hending
    · rw [hending]
      exact conclude_documented job result
    · rw [hending]
      exact (by decide : 130 ∈ documentedStatuses)
    · rw [hending]
      exact (by decide : 6 ∈ documentedStatuses)
  · intro hfails
    obtain ⟨fault, t, hrun, hkind⟩ :=
      Machine.run_of_outputFails (Console.intact_of_fresh rfl) hfails
    simp only [attend, hrun] at h
    cases h
    cases fault with
    | io position reason => rfl
    | _ => exact nomatch hkind

/-- A session ends with a documented status, and with the status of an I/O failure if its output
fails, exactly if it is not a check whose confirmation is refused. -/
theorem status_promise_kept_iff (h : run i d patience breakdown = some report) :
    (report.ending.status ∈ documentedStatuses ∧
      (OutputFails i d patience → report.ending.status = 5)) ↔ ¬ Muted i d := by
  constructor
  · rintro ⟨hdocumented, -⟩ ⟨o, source, left, hobtains, hbalanced, hrefusal⟩
    rw [hobtains.check_of_balancedText hbalanced] at h
    obtain ⟨reason, hreason⟩ := Option.isSome_iff_exists.mp hrefusal
    rw [hreason] at h
    cases h
    exact (by decide : 101 ∉ documentedStatuses) hdocumented
  · intro hmuted
    obtain ⟨⟨todo, left⟩, htask, hreport⟩ := Option.bind_eq_some_iff.mp h
    have hdue := due_task htask
    have hkeeps : report.ending.status ∈ documentedStatuses ∧
        (todo.OutputFails left patience → report.ending.status = 5) := by
      cases todo with
      | leave ending notices =>
        cases hreport
        exact ⟨hdue, nofun⟩
      | confirm line =>
        obtain ⟨o, source, hobtains, hbalanced⟩ := hdue
        have hrefusal : left.refusal = none := by
          obtain ⟨⟨input, rfl⟩, -⟩ := loadSource_left hobtains.loaded
          rw [← Option.not_isSome_iff_eq_none]
          exact fun hsome => hmuted ⟨o, source, _, hobtains, hbalanced, hsome⟩
        simp only [Task.report, hrefusal] at hreport
        cases hreport
        refine ⟨List.mem_cons_self, fun hfails => ?_⟩
        simp [Task.OutputFails, hrefusal] at hfails
      | execute job notices => exact attend_keeps hreport
    refine ⟨hkeeps.1, ?_⟩
    rintro ⟨todo', left', htask', hfails⟩
    cases htask.symm.trans htask'
    exact hkeeps.2 hfails

/-- Devices of which standard output is full. -/
def fullDevices : Devices := ⟨[], .closed, some "No space left on device (os error 28)", none⟩

/-- A run prints a byte that cannot be written, and says so. -/
theorem unwritten_byte_is_io_failure :
    let i : Invocation := ⟨"bf", ["run", "+."], [], fun _ => .error .missing⟩
    OutputFails i fullDevices 3 ∧ ¬ Muted i fullDevices ∧
      ∃ report, run i fullDevices 3 = some report ∧ report.ending.status = 5 := by
  intro i
  have hrun : ∃ report, run i fullDevices 3 = some report ∧ report.ending.status = 5 :=
    ⟨_, rfl, rfl⟩
  obtain ⟨report, hreport, hstatus⟩ := hrun
  refine ⟨?_, (status_promise_kept_iff hreport).mp ⟨?_, fun _ => hstatus⟩, report, hreport, hstatus⟩
  · exact ⟨_, _, rfl, _, rfl, .inr ⟨_, rfl, rfl⟩⟩
  · rw [hstatus]
    decide

/-- The confirmation of a valid source fails like the byte above, but the tool breaks down. Its
status is neither that of an I/O failure nor documented, whatever is shown around the message. -/
theorem refused_confirmation_is_undocumented :
    let i : Invocation := ⟨"bf", ["check", "+"], [], fun _ => .error .missing⟩
    OutputFails i fullDevices 0 ∧
      ∀ breakdown, ∃ report, run i fullDevices 0 breakdown = some report ∧
        report.ending.message =
          breakdown "failed printing to stdout: No space left on device (os error 28)" ∧
        report.ending.status ≠ 5 ∧ report.ending.status ∉ documentedStatuses :=
  ⟨⟨_, _, rfl, rfl⟩, fun _ => ⟨_, rfl, rfl, (by decide : brokenOutputStatus ≠ 5),
    (by decide : brokenOutputStatus ∉ documentedStatuses)⟩⟩

end Session
end Brainfuck

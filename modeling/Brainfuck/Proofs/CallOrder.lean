import Brainfuck.Proofs.Calls
import Brainfuck.Proofs.Safety

/-!
# The order of calls in a run

What a run puts out are the current cells at its `.` commands, one byte for each that is done.
Whenever it reads, all of that has been flushed. Every `,` that is begun makes one flush, and the
last call of a run is one flush more, which decides the result only if nothing else did.
-/
namespace Brainfuck
namespace Call

/-- All that was put out has been flushed since. The calls stand last first. -/
def Flushed (calls : List Call) : Prop :=
  ∀ later byte earlier, calls = later ++ .wrote byte :: earlier → .flushed ∈ later

/-- At every read all that was put out before it has been flushed. -/
def FlushedAtReads (calls : List Call) : Prop :=
  ∀ later read earlier, calls = later ++ read :: earlier → read.isRead → Flushed earlier

variable {call : Call} {calls made : List Call}

theorem flushed_cons_flushed (calls : List Call) : Flushed (.flushed :: calls) := by
  intro later byte earlier heq
  cases later with
  | nil => cases heq
  | cons first later =>
    cases heq
    exact List.mem_cons_self

theorem Flushed.cons (h : Flushed calls) (hb : call.byte? = none) : Flushed (call :: calls) := by
  intro later byte earlier heq
  cases later with
  | nil =>
    cases heq
    exact nomatch hb
  | cons first later =>
    cases heq
    exact List.mem_cons_of_mem _ (h later byte earlier rfl)

theorem Flushed.append (h : Flushed calls) (hb : ∀ call ∈ made, call.byte? = none) :
    Flushed (made ++ calls) := by
  induction made with
  | nil => exact h
  | cons call made ih =>
    exact (ih fun c hc => hb c (List.mem_cons_of_mem call hc)).cons (hb call List.mem_cons_self)

theorem flushedAtReads_nil : FlushedAtReads [] := by
  intro later read earlier heq
  simp at heq

theorem FlushedAtReads.cons (h : FlushedAtReads calls) (hr : call.isRead → Flushed calls) :
    FlushedAtReads (call :: calls) := by
  intro later read earlier heq hread
  cases later with
  | nil =>
    cases heq
    exact hr hread
  | cons first later =>
    cases heq
    exact h later read earlier rfl hread

/-- Calls that put out nothing are in order if there are no reads among them, or if all has been
flushed before them. -/
theorem FlushedAtReads.append (h : FlushedAtReads calls) (hb : ∀ call ∈ made, call.byte? = none)
    (hr : ∀ call ∈ made, call.isRead → Flushed calls) : FlushedAtReads (made ++ calls) := by
  induction made with
  | nil => exact h
  | cons call made ih =>
    have hb' : ∀ c ∈ made, c.byte? = none := fun c hc => hb c (List.mem_cons_of_mem call hc)
    refine (ih hb' fun c hc => hr c (List.mem_cons_of_mem call hc)).cons fun hread => ?_
    exact (hr call List.mem_cons_self hread).append hb'

theorem FlushedAtReads.append_vain (h : FlushedAtReads calls)
    (vain : ∀ call ∈ made, call.isVainWrite) : FlushedAtReads (made ++ calls) := by
  refine h.append (fun call hmem => (isVainWrite_elim (vain call hmem)).1)
    fun call hmem hread => ?_
  exact absurd hread (by simp [(isVainWrite_elim (vain call hmem)).2.2])

/-- The bytes among calls, first one first. -/
def bytes (calls : List Call) : List UInt8 := (calls.filterMap byte?).reverse

theorem bytes_cons (call : Call) (calls : List Call) :
    bytes (call :: calls) = bytes calls ++ call.byte?.toList := by
  cases h : call.byte? <;> simp [bytes, h]

theorem bytes_append_of_none (hb : ∀ call ∈ made, call.byte? = none) :
    bytes (made ++ calls) = bytes calls := by
  rw [bytes, List.filterMap_append, List.filterMap_eq_nil_iff.mpr hb]
  rfl

def flushes (calls : List Call) : Nat := calls.countP isFlush

theorem flushes_cons (call : Call) (calls : List Call) :
    flushes (call :: calls) = flushes calls + if call.isFlush then 1 else 0 :=
  List.countP_cons

theorem flushes_append_of_none (hf : ∀ call ∈ made, call.isFlush = false) :
    flushes (made ++ calls) = flushes calls := by
  rw [flushes, List.countP_append, List.countP_eq_zero.mpr (by simpa using hf), Nat.zero_add]
  rfl

end Call

namespace Effect

def isDone : Effect → Bool
  | .done _ _ => true
  | _ => false

end Effect

namespace Command
open Call

variable {c : Command} {position : Nat} {tape : Tape} {console : Console} {effect : Effect}

theorem CallsView.flushedAtReads (h : CallsView c position tape console effect)
    (hc : FlushedAtReads console.calls) : FlushedAtReads effect.console.calls := by
  cases h with
  | silent _ _ same => exact same ▸ hc
  | printed _ tries vain calls =>
    rw [Effect.console, calls]
    exact (hc.append_vain vain).cons fun hread => absurd hread Bool.false_ne_true
  | unprinted _ tries vain calls =>
    rw [Effect.console, calls]
    exact hc.append_vain vain
  | unflushed _ _ calls =>
    rw [Effect.console, calls]
    exact hc.cons fun hread => absurd hread Bool.false_ne_true
  | read _ reads onlyReads calls =>
    have hflush : FlushedAtReads (.flushed :: console.calls) :=
      hc.cons fun hread => absurd hread Bool.false_ne_true
    rw [calls]
    exact hflush.append (fun call hmem => (isRead_elim (onlyReads call hmem)).1)
      fun _ _ _ => flushed_cons_flushed console.calls

theorem CallsView.bytes_eq (h : CallsView c position tape console effect) :
    bytes effect.console.calls =
      bytes console.calls ++ if c = .output ∧ effect.isDone then [tape.current] else [] := by
  cases h with
  | silent notOutput _ same => simp [same, notOutput]
  | printed command tries vain calls =>
    rw [Effect.console, calls, bytes_cons,
      bytes_append_of_none fun call hmem => (isVainWrite_elim (vain call hmem)).1]
    simp [command, Effect.isDone, byte?]
  | unprinted _ tries vain calls =>
    rw [Effect.console, calls,
      bytes_append_of_none fun call hmem => (isVainWrite_elim (vain call hmem)).1]
    simp [Effect.isDone]
  | unflushed command _ calls =>
    rw [Effect.console, calls, bytes_cons]
    simp [command, byte?]
  | read command reads onlyReads calls =>
    rw [calls, bytes_append_of_none fun call hmem => (isRead_elim (onlyReads call hmem)).1,
      bytes_cons]
    simp [command, byte?]

theorem CallsView.flushes_eq (h : CallsView c position tape console effect) :
    flushes effect.console.calls = flushes console.calls + if c = .input then 1 else 0 := by
  cases h with
  | silent _ notInput same => simp [same, notInput]
  | printed command tries vain calls =>
    rw [Effect.console, calls, flushes_cons,
      flushes_append_of_none fun call hmem => (isVainWrite_elim (vain call hmem)).2.1]
    simp [command, isFlush]
  | unprinted command tries vain calls =>
    rw [Effect.console, calls,
      flushes_append_of_none fun call hmem => (isVainWrite_elim (vain call hmem)).2.1]
    simp [command]
  | unflushed command _ calls =>
    rw [Effect.console, calls, flushes_cons]
    simp [command, isFlush]
  | read command reads onlyReads calls =>
    rw [calls, flushes_append_of_none fun call hmem => (isRead_elim (onlyReads call hmem)).2,
      flushes_cons]
    simp [command, isFlush]

end Command

namespace Progress

def isNext : Progress → Bool
  | .next _ => true
  | _ => false

end Progress

namespace Machine
open Call Supervision

variable {m : Machine} {control : Control} {console : Console} {past : List State} {s t : State}

/-- The byte that a state puts out if its command is done. -/
def print? (m : Machine) (s : State) : Option UInt8 :=
  if m.program.command? s.position = some .output then some s.tape.current else none

/-- What the commands of past states have put out. The states stand last first. -/
def printed (m : Machine) (past : List State) : List UInt8 := (past.filterMap m.print?).reverse

/-- How many of past states were at a `,`. -/
def readsDone (m : Machine) (past : List State) : Nat :=
  past.countP fun s => m.program.command? s.position = some .input

theorem printed_cons (m : Machine) (s : State) (past : List State) :
    m.printed (s :: past) = m.printed past ++ (m.print? s).toList := by
  cases h : m.print? s <;> simp [printed, h]

/-- The calls of a step are those of the command that it begins, if it begins one. -/
inductive StepCalls (m : Machine) (control : Control) (s : State) : Progress → Prop where
  | idle {progress : Progress} (none : ∀ c, ¬ m.Begins control c s)
      (stays : progress.isNext = false) (same : progress.state.console = s.console) :
      StepCalls m control s progress
  | begun {progress : Progress} {c : Command} {effect : Effect} (begins : m.Begins control c s)
      (done : effect.isDone = progress.isNext)
      (same : effect.console = progress.state.console)
      (calls : c.CallsView s.position s.tape s.console effect) : StepCalls m control s progress

theorem step_calls (m : Machine) (control : Control) (s : State) :
    StepCalls m control s (m.step control s) := by
  have hv := m.step_view control s
  generalize m.step control s = progress at hv
  cases hv with
  | atEnd none => exact .idle (fun c h => nomatch none.symm.trans h.1) rfl rfl
  | objected _ objection => exact .idle (fun c h => nomatch objection.symm.trans h.2) rfl rfl
  | done found objection _ act =>
    exact .begun ⟨found, objection⟩ rfl rfl (act ▸ Command.act_callsView ..)
  | failed found objection _ act =>
    exact .begun ⟨found, objection⟩ rfl rfl (act ▸ Command.act_callsView ..)
  | waiting found objection _ act =>
    exact .begun ⟨found, objection⟩ rfl rfl (act ▸ Command.act_callsView ..)
  | opening found objection _ _ =>
    have hsilent := Command.act_callsView .loopStart s.position s.tape s.console
    exact .begun ⟨found, objection⟩ rfl rfl hsilent
  | closing found objection _ _ =>
    have hsilent := Command.act_callsView .loopEnd s.position s.tape s.console
    exact .begun ⟨found, objection⟩ rfl rfl hsilent

theorem step_flushedAtReads (h : FlushedAtReads s.console.calls) :
    FlushedAtReads (m.step control s).state.console.calls := by
  cases m.step_calls control s with
  | idle _ _ same => rwa [same]
  | begun _ _ same calls => exact same ▸ calls.flushedAtReads h

theorem step_bytes (m : Machine) (control : Control) (s : State) :
    bytes (m.step control s).state.console.calls = bytes s.console.calls ++
      if (m.step control s).isNext then (m.print? s).toList else [] := by
  cases m.step_calls control s with
  | idle _ stays same => simp [stays, same]
  | @begun c effect begins done same calls =>
    rw [← same, ← done, calls.bytes_eq]
    by_cases hc : c = .output <;> simp [hc, print?, begins.1]

theorem step_flushes (m : Machine) (control : Control) (s : State) :
    flushes (m.step control s).state.console.calls =
      flushes s.console.calls + if m.Begins control .input s then 1 else 0 := by
  cases m.step_calls control s with
  | idle none _ same => simp [same, none]
  | @begun c effect begins _ same calls =>
    rw [← same, calls.flushes_eq]
    by_cases hc : c = .input <;> simp [hc, Begins, begins.1, begins.2]

/-- What the calls of a run are worth in one of its states. -/
structure Orderly (m : Machine) (past : List State) (s : State) : Prop where
  output_eq : s.console.output = m.printed past
  flushed_at_reads : FlushedAtReads s.console.calls
  flushes_eq : flushes s.console.calls = m.readsDone past

theorem Orderly.next (h : m.Orderly past s) (hs : m.step control s = .next t) :
    m.Orderly (s :: past) t := by
  have hreads : FlushedAtReads (m.step control s).state.console.calls :=
    step_flushedAtReads h.flushed_at_reads
  have hbytes := m.step_bytes control s
  have hflushes := m.step_flushes control s
  rw [hs] at hreads hbytes hflushes
  refine ⟨?_, hreads, ?_⟩
  · rw [printed_cons, ← h.output_eq]
    exact hbytes
  · rw [readsDone, List.countP_cons, ← readsDone, ← h.flushes_eq]
    simpa [Begins, objection?_of_next hs, Progress.state] using hflushes

theorem Course.orderly (h : m.Course control console past s) (fresh : console.calls = []) :
    m.Orderly past s := by
  induction h with
  | start h =>
    have hcalls : _ = [] := (congrArg Console.calls (start_eq_ok h).2.2).trans fresh
    refine ⟨?_, ?_, ?_⟩
    · rw [Console.output, hcalls]
      rfl
    · rw [hcalls]
      exact flushedAtReads_nil
    · rw [hcalls]
      rfl
  | flag raised _ ih => exact ⟨ih.output_eq, ih.flushed_at_reads, ih.flushes_eq⟩
  | step _ hs ih => exact ih.next hs

/-- A step that goes no further puts nothing out, and its calls stay in order. -/
theorem Orderly.stays (h : m.Orderly past s) (hs : (m.step control s).isNext = false) :
    (m.step control s).state.console.output = m.printed past ∧
      FlushedAtReads (m.step control s).state.console.calls ∧
      flushes (m.step control s).state.console.calls =
        m.readsDone past + if m.Begins control .input s then 1 else 0 := by
  refine ⟨?_, step_flushedAtReads h.flushed_at_reads, ?_⟩
  · have hbytes := m.step_bytes control s
    rw [hs, if_neg Bool.false_ne_true, List.append_nil] at hbytes
    exact hbytes.trans h.output_eq
  · rw [step_flushes, h.flushes_eq]

/-- A read that waits does so behind a flush. -/
theorem flushed_of_waiting (h : m.step control s = .waiting t) : Flushed t.console.calls := by
  have hv := m.step_view control s
  rw [h] at hv
  cases hv with
  | @waiting c tape console _ _ _ act =>
    have hc := Command.act_callsView c s.position s.tape s.console
    rw [act] at hc
    cases hc with
    | silent _ notInput _ => exact absurd (Command.eq_input_of_act_waiting act) notInput
    | read _ reads onlyReads calls =>
      change Flushed (Effect.waiting tape console).console.calls
      rw [calls]
      exact (flushed_cons_flushed _).append
        fun call hmem => (isRead_elim (onlyReads call hmem)).1

/-- A `,` whose flush fails makes no read and leaves the cell alone. -/
theorem step_of_failed_flush {flushed : Console} {failure : Failure}
    (hb : m.Begins control .input s) (hf : s.console.flush = (flushed, some failure)) :
    m.step control s =
        .failed (.io s.position failure.message) { s with console := flushed } ∧
      flushed.calls = .flushFailed failure :: s.console.calls := by
  constructor
  · rw [step_eq_perform hb.1 hb.2, perform_plain rfl]
    simp only [Command.act, hf, afterEffect]
  · have hv := s.console.flush_view
    rw [hf] at hv
    cases hv with
    | failed calls => exact calls

/-- What the calls of a run are worth at its end. The commands have stopped in a state, with a
fault or without, and the last flush has given the result. -/
structure OrderlyEnd (m : Machine) (control : Control) (past : List State) (s : State)
    (fault : Option Fault) (stopped : State) (result : Option Fault) (final : State) : Prop where
  output_eq : final.console.output = m.printed past
  flushed_at_reads : FlushedAtReads final.console.calls
  flushes_eq : flushes final.console.calls =
    m.readsDone past + (if m.Begins control .input s then 1 else 0) + 1
  last_call : ∃ call : Call, call.isFlush ∧ final.console.calls = call :: stopped.console.calls
  tape_eq : final.tape = s.tape
  fault_stands : ∀ f, fault = some f → result = some f
  flush_decides : fault = none → s.position = m.program.size ∧
    result = stopped.console.flush.2.map fun failure => .io m.program.size failure.message

theorem Stops.step_eq {fault : Option Fault} (h : m.Stops control s fault t) :
    (m.step control s).isNext = false ∧ (m.step control s).state = t := by
  cases h with
  | halted h => exact ⟨by rw [h]; rfl, by rw [h]; rfl⟩
  | failed h => exact ⟨by rw [h]; rfl, by rw [h]; rfl⟩

theorem Course.orderlyEnd {fault : Option Fault} (hc : m.Course control console past s)
    (fresh : console.calls = []) (hs : m.Stops control s fault t) :
    m.OrderlyEnd control past s fault t (finish fault t).1 (finish fault t).2 := by
  obtain ⟨hstays, hstate⟩ := hs.step_eq
  obtain ⟨houtput, hreads, hflushes⟩ := (hc.orderly fresh).stays hstays
  rw [hstate] at houtput hreads hflushes
  obtain ⟨call, hflush, hcalls⟩ := t.console.exists_flush_call
  obtain ⟨hbyte, hread⟩ := isFlush_elim hflush
  have hfinal : (finish fault t).2.console.calls = call :: t.console.calls := hcalls
  refine ⟨?_, ?_, ?_, ⟨call, hflush, hfinal⟩, hs.same_place.2, ?_, ?_⟩
  · rw [← houtput]
    change bytes _ = bytes _
    rw [hfinal, bytes_cons, hbyte]
    simp
  · rw [hfinal]
    exact hreads.cons fun h => absurd h (by simp [hread])
  · rw [hfinal, flushes_cons, hflushes, if_pos hflush]
  · rintro f rfl
    rfl
  · rintro rfl
    cases hs with
    | halted hstep =>
      obtain ⟨rfl, hend⟩ := step_halted hstep
      have hpos : t.position = m.program.size := Nat.le_antisymm hc.safe.position_le hend
      refine ⟨hpos, ?_⟩
      rw [← hpos]
      rfl

/-- The calls of a run are in order at every moment and at its end. Without a tape there are none,
and there is none if its cells are not granted. -/
theorem calls_in_order (m : Machine) (control : Control) (console : Console)
    (fresh : console.calls = []) :
    (∀ granted, (∃ fault, m.start console granted = .error fault) ↔
      granted = false ∨ Tape.capacity < max 1 m.memory) ∧
    (∀ granted fault, m.start console granted = .error fault →
      fault = .refused (max 1 m.memory) ∧
        ∀ fuel, m.run control fuel console granted = .refused fault console) ∧
    (∀ past s, m.Course control console past s →
      s.console.output = m.printed past ∧ FlushedAtReads s.console.calls ∧
      (∀ t, m.step control s = .waiting t → t.console.output = m.printed past ∧
        FlushedAtReads t.console.calls ∧ Flushed t.console.calls) ∧
      (∀ flushed failure, m.Begins control .input s →
        s.console.flush = (flushed, some failure) →
        m.step control s =
            .failed (.io s.position failure.message) { s with console := flushed } ∧
          flushed.calls = .flushFailed failure :: s.console.calls) ∧
      ∀ fault t, m.Stops control s fault t →
        m.OrderlyEnd control past s fault t (finish fault t).1 (finish fault t).2) ∧
    ∀ granted fuel result final, m.run control fuel console granted = .ended result final →
      ∃ past s, m.Ends control console past s result final := by
  refine ⟨fun _ => exists_start_eq_error_iff,
    fun granted fault h => ⟨start_eq_error h, fun fuel => ?_⟩, fun past s hc => ?_,
    fun _ _ _ _ => ends_of_run⟩
  · rw [run, h]
  · have horder := hc.orderly fresh
    refine ⟨horder.output_eq, horder.flushed_at_reads, fun t ht => ?_,
      fun _ _ => step_of_failed_flush, fun _ _ => hc.orderlyEnd fresh⟩
    obtain ⟨houtput, hreads, -⟩ := horder.stays (by rw [ht]; rfl)
    rw [ht] at houtput hreads
    exact ⟨houtput, hreads, flushed_of_waiting ht⟩

/-- A byte is read and put out, and then the flush in front of the second read fails. If the one
cell is not granted, nothing is read. -/
theorem order_of_failed_flush :
    ∃ m, ∃ console : Console, load ",.," 1 .bounded = .ok m ∧ console.calls = [] ∧
      m.run .free 4 console false = .refused (.refused 1) console ∧
      ∃ past s fault stopped final,
        m.run .free 4 console = .ended (some (.io 2 "full")) final ∧
          m.OrderlyEnd .free past s fault stopped (some (.io 2 "full")) final ∧
          final.console.output = [65] ∧ flushes final.console.calls = 3 := by
  let m : Machine := ⟨Program.parse ",.,", ⟨#[none, none, none]⟩, 1, .bounded, rfl⟩
  have hm : load ",.," 1 .bounded = .ok m := rfl
  let console : Console :=
    ⟨[.byte 65, .byte 66], .closed, .scripted [] [.succeed, .fail ⟨false, "full"⟩], false, []⟩
  obtain ⟨hrefused, hnothing, hcourse, hrun⟩ := calls_in_order m .free console rfl
  obtain ⟨refusal, hrefusal⟩ := (hrefused false).mpr (.inl rfl)
  obtain ⟨rfl, hnone⟩ := hnothing false refusal hrefusal
  obtain ⟨past, s, fault, stopped, hc, hs, hfinish⟩ := hrun true 4 (some (.io 2 "full")) _ rfl
  obtain ⟨-, -, -, -, hend⟩ := hcourse past s hc
  have horder := hend fault stopped hs
  rw [hfinish] at horder
  exact ⟨m, console, hm, rfl, hnone 4, past, s, fault, stopped, _, rfl, horder, rfl, rfl⟩

end Machine
end Brainfuck

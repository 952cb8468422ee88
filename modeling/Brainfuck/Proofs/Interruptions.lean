import Brainfuck.Proofs.CallOrder
import Brainfuck.Proofs.ConsoleMaps

/-!
# Interruptions

A read or a write that is interrupted is made again, and nothing else comes of it. So a run can be
looked at without its interruptions, those that are still to come and those that have been met,
and two runs whose scripts differ in interruptions only are the same run. Each interruption that
is met costs one more call. A flush is never made again: one that is interrupted has failed.
-/
namespace Brainfuck

def ReadEvent.isInterruption : ReadEvent → Bool
  | .fail failure => failure.interrupted
  | _ => false

def WriteEvent.isInterruption : WriteEvent → Bool
  | .fail failure => failure.interrupted
  | _ => false

/-- A read or a write that was interrupted. A flush that was interrupted is not one of them. -/
def Call.isInterruption : Call → Bool
  | .readFailed failure | .writeFailed failure => failure.interrupted
  | _ => false

theorem Call.isInterruption_elim {call : Call} (h : call.isInterruption) :
    call.byte? = none ∧ call.isFlush = false := by
  cases call with
  | readFailed failure => exact ⟨rfl, rfl⟩
  | writeFailed failure => exact ⟨rfl, rfl⟩
  | _ => exact nomatch h

/-- A device that refuses does not interrupt. -/
theorem LineBuffer.not_interrupted_of_deliver {b b' : LineBuffer} {failure : Failure}
    (h : b.deliver = (b', some failure)) : failure.interrupted = false := by
  unfold deliver at h
  split at h
  · exact nomatch h
  · split at h
    · cases h
      rfl
    · exact nomatch h

theorem LineBuffer.not_interrupted_of_put {b b' : LineBuffer} {byte : UInt8} {failure : Failure}
    (h : b.put byte = (b', some failure)) : failure.interrupted = false := by
  unfold put makeRoom at h
  split at h
  · next hroom =>
    cases h
    split at hroom
    · exact nomatch hroom
    · exact not_interrupted_of_deliver hroom
  · simp only at h
    split at h
    · exact not_interrupted_of_deliver h
    · exact nomatch h

def Writer.steady : Writer → Writer
  | .scripted writes flushes => .scripted (writes.filter (!·.isInterruption)) flushes
  | .buffered buffer => .buffered buffer

/-- The events that writes are still to meet. -/
def Writer.writes : Writer → List WriteEvent
  | .scripted writes _ => writes
  | .buffered _ => []

namespace Console

/-- The console without its interruptions, past and to come. -/
def steady (c : Console) : Console :=
  { c with
    reader := c.reader.filter (!·.isInterruption)
    writer := c.writer.steady
    calls := c.calls.filter (!·.isInterruption) }

theorem putScripted_steady (byte : UInt8) (flushes : List FlushEvent) (writes : List WriteEvent)
    (c : Console) :
    putScripted byte flushes (writes.filter (!·.isInterruption)) c.steady =
      ((putScripted byte flushes writes c).1.steady, (putScripted byte flushes writes c).2) := by
  induction writes generalizing c with
  | nil => rfl
  | cons event rest ih =>
    cases event with
    | fail failure =>
      cases hf : failure.interrupted with
      | true =>
        -- On one side the event is met and the call noted, on the other side neither is there.
        have hskip : { c with calls := .writeFailed failure :: c.calls }.steady = c.steady := by
          simp [steady, Call.isInterruption, hf]
        rw [List.filter_cons_of_neg (by simp [WriteEvent.isInterruption, hf]), putScripted,
          if_pos hf, ← ih, hskip]
      | false =>
        rw [List.filter_cons_of_pos (by simp [WriteEvent.isInterruption, hf]), putScripted,
          putScripted, hf]
        simp [steady, Writer.steady, Call.isInterruption, hf]
    | raise => exact ih { c with cancelled := true }
    | _ => rfl

theorem takeFrom_steady (events : List ReadEvent) (c : Console) :
    takeFrom (events.filter (!·.isInterruption)) c.steady =
      ((takeFrom events c).1.steady, (takeFrom events c).2) := by
  induction events generalizing c with
  | nil =>
    simp only [List.filter_nil, takeFrom, show c.steady.readEnd = c.readEnd from rfl]
    split <;> rfl
  | cons event rest ih =>
    cases event with
    | byte value => rfl
    | nothing => rfl
    | cancel => exact ih { c with cancelled := true }
    | fail failure =>
      cases hf : failure.interrupted with
      | true =>
        have hskip : { c with calls := .readFailed failure :: c.calls }.steady = c.steady := by
          simp [steady, Call.isInterruption, hf]
        rw [List.filter_cons_of_neg (by simp [ReadEvent.isInterruption, hf]), takeFrom,
          if_pos hf, ← ih, hskip]
      | false =>
        rw [List.filter_cons_of_pos (by simp [ReadEvent.isInterruption, hf]), takeFrom, takeFrom,
          hf]
        simp [steady, Call.isInterruption, hf]

theorem commutes_steady : Commutes (fun _ => True) steady where
  kept := ⟨fun _ _ _ => trivial, fun _ _ => trivial, fun _ _ => trivial⟩
  put c byte _ := by
    obtain ⟨reader, readEnd, writer, cancelled, calls⟩ := c
    cases writer with
    | scripted writes flushes => exact putScripted_steady byte flushes writes _
    | buffered buffer =>
      simp only [put, steady, Writer.steady]
      rcases hput : buffer.put byte with ⟨buffer', _ | failure⟩
      · rfl
      · have hf := LineBuffer.not_interrupted_of_put hput
        simp [Call.isInterruption, hf]
  flush c _ := by
    obtain ⟨reader, readEnd, writer, cancelled, calls⟩ := c
    cases writer with
    | scripted writes flushes => rcases flushes with _ | ⟨_ | _ | failure | failure, rest⟩ <;> rfl
    | buffered buffer =>
      simp only [flush, steady, Writer.steady]
      rcases buffer.deliver with ⟨buffer', _ | failure⟩ <;> rfl
  take c _ := takeFrom_steady c.reader c

@[simp] theorem output_steady (c : Console) : c.steady.output = c.output := by
  simp only [output, steady, List.filterMap_filter]
  congr 2
  funext call
  cases h : call.isInterruption with
  | true => simp [Call.isInterruption_elim h]
  | false => rfl

/-- The flushes stay as they are. -/
@[simp] theorem filter_isFlush_steady (c : Console) :
    c.steady.calls.filter Call.isFlush = c.calls.filter Call.isFlush := by
  simp only [steady, List.filter_filter]
  congr 1
  funext call
  cases h : call.isInterruption with
  | true => simp [Call.isInterruption_elim h]
  | false => simp

@[simp] theorem flushMarks_steady (c : Console) : c.steady.flushMarks = c.flushMarks := by
  simp only [flushMarks, steady, List.foldr_filter]
  congr 3
  funext call seen
  cases h : call.isInterruption with
  | true => simp [markFlush, Call.isInterruption_elim h]
  | false => rfl

/-- A flush that fails has been tried once. -/
theorem flush_of_fail {c : Console} {writes : List WriteEvent} {failure : Failure}
    {flushes : List FlushEvent} (h : c.writer = .scripted writes (.fail failure :: flushes)) :
    c.flush = ({ c with
      writer := .scripted writes flushes, calls := .flushFailed failure :: c.calls },
      some failure) := by
  rw [flush, h]

/-- What was used up of the scripts of a console up to a later one, and the calls that were made:
each interruption that was met has been one call. -/
inductive Spent (c c' : Console) : Prop where
  | intro (reads : List ReadEvent) (writes : List WriteEvent) (made : List Call)
      (reader_eq : c.reader = reads ++ c'.reader)
      (writes_eq : c.writer.writes = writes ++ c'.writer.writes)
      (calls_eq : c'.calls = made ++ c.calls)
      (read_count : (made.filter Call.isInterruption).countP Call.isRead =
        reads.countP ReadEvent.isInterruption)
      (write_count : (made.filter Call.isInterruption).countP Call.isWrite =
        writes.countP WriteEvent.isInterruption)

variable {c c' c'' : Console}

theorem Spent.refl (c : Console) : Spent c c := .intro [] [] [] rfl rfl rfl rfl rfl

theorem Spent.trans (h : Spent c c') (h' : Spent c' c'') : Spent c c'' := by
  obtain ⟨reads, writes, made, hreader, hwrites, hcalls, hread, hwrite⟩ := h
  obtain ⟨reads', writes', made', hreader', hwrites', hcalls', hread', hwrite'⟩ := h'
  refine .intro (reads ++ reads') (writes ++ writes') (made' ++ made) ?_ ?_ ?_ ?_ ?_
  · rw [hreader, hreader', List.append_assoc]
  · rw [hwrites, hwrites', List.append_assoc]
  · rw [hcalls', hcalls, List.append_assoc]
  · rw [List.filter_append, List.countP_append, List.countP_append, hread, hread', Nat.add_comm]
  · rw [List.filter_append, List.countP_append, List.countP_append, hwrite, hwrite', Nat.add_comm]

/-- A write that fails is one call, and it uses up one event. -/
theorem spent_of_failed_write (c : Console) (failure : Failure) (rest : List WriteEvent)
    (flushes : List FlushEvent) :
    Spent { c with writer := .scripted (.fail failure :: rest) flushes }
      { c with writer := .scripted rest flushes, calls := .writeFailed failure :: c.calls } := by
  obtain ⟨_ | _, message⟩ := failure
  · exact .intro [] [.fail ⟨false, message⟩] [.writeFailed ⟨false, message⟩] rfl rfl rfl rfl rfl
  · exact .intro [] [.fail ⟨true, message⟩] [.writeFailed ⟨true, message⟩] rfl rfl rfl rfl rfl

theorem spent_of_failed_read (c : Console) (failure : Failure) (rest : List ReadEvent) :
    Spent { c with reader := .fail failure :: rest }
      { c with reader := rest, calls := .readFailed failure :: c.calls } := by
  obtain ⟨_ | _, message⟩ := failure
  · exact .intro [.fail ⟨false, message⟩] [] [.readFailed ⟨false, message⟩] rfl rfl rfl rfl rfl
  · exact .intro [.fail ⟨true, message⟩] [] [.readFailed ⟨true, message⟩] rfl rfl rfl rfl rfl

theorem putScripted_spent (byte : UInt8) (flushes : List FlushEvent) (writes : List WriteEvent)
    (c : Console) :
    Spent { c with writer := .scripted writes flushes } (putScripted byte flushes writes c).1 := by
  induction writes generalizing c with
  | nil => exact .intro [] [] [.wrote byte] rfl rfl rfl rfl rfl
  | cons event rest ih =>
    cases event with
    | accept => exact .intro [] [.accept] [.wrote byte] rfl rfl rfl rfl rfl
    | acceptNothing => exact .intro [] [.acceptNothing] [.wroteNothing] rfl rfl rfl rfl rfl
    | cancel => exact .intro [] [.cancel] [.wrote byte] rfl rfl rfl rfl rfl
    | raise =>
      have hmet : Spent { c with writer := .scripted (.raise :: rest) flushes }
          { c with writer := .scripted rest flushes, cancelled := true } :=
        .intro [] [.raise] [] rfl rfl rfl rfl rfl
      exact hmet.trans (ih { c with cancelled := true })
    | fail failure =>
      have hmet := spent_of_failed_write c failure rest flushes
      rw [putScripted]
      split
      · exact hmet.trans (ih { c with calls := .writeFailed failure :: c.calls })
      · exact hmet

theorem put_spent (c : Console) (byte : UInt8) : Spent c (c.put byte).1 := by
  obtain ⟨reader, readEnd, writer, cancelled, calls⟩ := c
  cases writer with
  | scripted writes flushes =>
    exact putScripted_spent byte flushes writes
      ⟨reader, readEnd, .scripted writes flushes, cancelled, calls⟩
  | buffered buffer =>
    simp only [put]
    rcases hput : buffer.put byte with ⟨buffer', _ | failure⟩
    · exact .intro [] [] [.wrote byte] rfl rfl rfl rfl rfl
    · have hf := LineBuffer.not_interrupted_of_put hput
      refine .intro [] [] [.writeFailed failure] rfl rfl rfl ?_ ?_ <;>
        simp [Call.isInterruption, hf]

theorem flush_spent (c : Console) : Spent c c.flush.1 := by
  obtain ⟨reader, readEnd, writer, cancelled, calls⟩ := c
  cases writer with
  | scripted writes flushes =>
    rcases flushes with _ | ⟨_ | _ | failure | failure, rest⟩
    · exact .intro [] [] [.flushed] rfl rfl rfl rfl rfl
    · exact .intro [] [] [.flushed] rfl rfl rfl rfl rfl
    · exact .intro [] [] [.flushed] rfl rfl rfl rfl rfl
    · exact .intro [] [] [.flushFailed failure] rfl rfl rfl rfl rfl
    · exact .intro [] [] [.flushFailed failure] rfl rfl rfl rfl rfl
  | buffered buffer =>
    simp only [flush]
    rcases buffer.deliver with ⟨buffer', _ | failure⟩
    · exact .intro [] [] [.flushed] rfl rfl rfl rfl rfl
    · exact .intro [] [] [.flushFailed failure] rfl rfl rfl rfl rfl

theorem takeFrom_spent (events : List ReadEvent) (c : Console) :
    Spent { c with reader := events } (takeFrom events c).1 := by
  induction events generalizing c with
  | nil =>
    unfold takeFrom
    split
    · exact .intro [] [] [.receivedNothing] rfl rfl rfl rfl rfl
    · exact .intro [] [] [.readFailed _] rfl rfl rfl rfl rfl
    · exact .intro [] [] [] rfl rfl rfl rfl rfl
  | cons event rest ih =>
    cases event with
    | byte value => exact .intro [.byte value] [] [.received value] rfl rfl rfl rfl rfl
    | nothing => exact .intro [.nothing] [] [.receivedNothing] rfl rfl rfl rfl rfl
    | cancel =>
      have hmet : Spent { c with reader := .cancel :: rest }
          { c with reader := rest, cancelled := true } :=
        .intro [.cancel] [] [] rfl rfl rfl rfl rfl
      exact hmet.trans (ih { c with cancelled := true })
    | fail failure =>
      have hmet := spent_of_failed_read c failure rest
      rw [takeFrom]
      split
      · exact hmet.trans (ih { c with calls := .readFailed failure :: c.calls })
      · exact hmet

theorem kept_spent (c : Console) : Kept (Spent c) where
  put c' byte h := h.trans (c'.put_spent byte)
  flush c' h := h.trans c'.flush_spent
  take c' h := h.trans (takeFrom_spent c'.reader c')

/-- The reads of a console are those without interruptions and one for each interruption. -/
theorem Spent.readCount_eq (h : Spent c c') (fresh : c.calls = []) :
    ∃ used, c.reader = used ++ c'.reader ∧
      c'.readCount = c'.steady.readCount + used.countP ReadEvent.isInterruption := by
  obtain ⟨reads, writes, made, hreader, -, hcalls, hread, -⟩ := h
  rw [fresh, List.append_nil] at hcalls
  refine ⟨reads, hreader, ?_⟩
  rw [readCount, List.countP_eq_countP_filter_add _ _ Call.isInterruption, Nat.add_comm, ← hread,
    hcalls, readCount, steady, hcalls]

theorem Spent.writeCount_eq (h : Spent c c') (fresh : c.calls = []) :
    ∃ used, c.writer.writes = used ++ c'.writer.writes ∧
      c'.writeCount = c'.steady.writeCount + used.countP WriteEvent.isInterruption := by
  obtain ⟨reads, writes, made, -, hwrites, hcalls, -, hwrite⟩ := h
  rw [fresh, List.append_nil] at hcalls
  refine ⟨writes, hwrites, ?_⟩
  rw [writeCount, List.countP_eq_countP_filter_add _ _ Call.isInterruption, Nat.add_comm, ← hwrite,
    hcalls, writeCount, steady, hcalls]

end Console

namespace Machine

variable {m : Machine} {control : Control} {c₁ c₂ console : Console}

/-- A run that comes to the end of the program ends as its last flush does. -/
theorem Leads.run_of_halted {start s : State} {n fuel : Nat} (hstart : m.start console = .ok start)
    (h : m.Leads control n start s) (hs : m.step control s = .halted s) (hfuel : n < fuel) :
    m.run control fuel console =
      .ended (s.console.flush.2.map fun failure => .io s.position failure.message)
        { s with console := s.console.flush.1 } := by
  obtain ⟨d, rfl⟩ := Nat.le.dest hfuel
  rw [run_of_start hstart, Nat.succ_add, ← Nat.add_succ, h.execute_add, execute, hs]
  rfl

/-- Two runs, on consoles of their own, that differ in nothing but interruptions: they end alike
in the same place of the same tape, and the numbers of their calls differ by the interruptions
that each of them has used up. -/
structure SameButInterruptions (c₁ c₂ : Console) (x₁ x₂ : Outcome) : Prop where
  steady_eq : x₁.mapConsole Console.steady = x₂.mapConsole Console.steady
  output_eq : x₁.console.output = x₂.console.output
  flushes_eq : x₁.console.calls.filter Call.isFlush = x₂.console.calls.filter Call.isFlush
  flushMarks_eq : x₁.console.flushMarks = x₂.console.flushMarks
  reads : ∃ n used₁ used₂, c₁.reader = used₁ ++ x₁.console.reader ∧
    c₂.reader = used₂ ++ x₂.console.reader ∧
    x₁.console.readCount = n + used₁.countP ReadEvent.isInterruption ∧
    x₂.console.readCount = n + used₂.countP ReadEvent.isInterruption
  writes : ∃ n used₁ used₂, c₁.writer.writes = used₁ ++ x₁.console.writer.writes ∧
    c₂.writer.writes = used₂ ++ x₂.console.writer.writes ∧
    x₁.console.writeCount = n + used₁.countP WriteEvent.isInterruption ∧
    x₂.console.writeCount = n + used₂.countP WriteEvent.isInterruption

theorem sameButInterruptions_run (h : c₁.steady = c₂.steady) (h₁ : c₁.calls = [])
    (h₂ : c₂.calls = []) (fuel : Nat) :
    SameButInterruptions c₁ c₂ (m.run control fuel c₁) (m.run control fuel c₂) := by
  have hrun : (m.run control fuel c₁).mapConsole Console.steady =
      (m.run control fuel c₂).mapConsole Console.steady :=
    Console.commutes_steady.run_congr (control.ignores_of_cancelled_eq fun _ => rfl) trivial
      trivial h fuel
  have hsteady : (m.run control fuel c₁).console.steady =
      (m.run control fuel c₂).console.steady := by
    simpa using congrArg Outcome.console hrun
  have hs₁ : c₁.Spent (m.run control fuel c₁).console :=
    (Console.kept_spent c₁).run (.refl c₁) fuel
  have hs₂ : c₂.Spent (m.run control fuel c₂).console :=
    (Console.kept_spent c₂).run (.refl c₂) fuel
  refine ⟨hrun, ?_, ?_, ?_, ?_, ?_⟩
  · rw [← Console.output_steady, hsteady, Console.output_steady]
  · rw [← Console.filter_isFlush_steady, hsteady, Console.filter_isFlush_steady]
  · rw [← Console.flushMarks_steady, hsteady, Console.flushMarks_steady]
  · obtain ⟨used₁, hused₁, hcount₁⟩ := hs₁.readCount_eq h₁
    obtain ⟨used₂, hused₂, hcount₂⟩ := hs₂.readCount_eq h₂
    rw [← hsteady] at hcount₂
    exact ⟨_, used₁, used₂, hused₁, hused₂, hcount₁, hcount₂⟩
  · obtain ⟨used₁, hused₁, hcount₁⟩ := hs₁.writeCount_eq h₁
    obtain ⟨used₂, hused₂, hcount₂⟩ := hs₂.writeCount_eq h₂
    rw [← hsteady] at hcount₂
    exact ⟨_, used₁, used₂, hused₁, hused₂, hcount₁, hcount₂⟩

/-- Interrupted reads and writes leave no trace but the calls that they cost, wherever they stand in
the scripts. A flush that is interrupted is not made again. In front of a read it ends the run at
that command and nothing is read, and at the end of the program it is the result of the run. -/
theorem interruptions_are_transparent (m : Machine) (control : Control) :
    (∀ reads₁ reads₂ writes₁ writes₂ flushes readEnd cancelled,
      reads₁.filter (!·.isInterruption) = reads₂.filter (!·.isInterruption) →
      writes₁.filter (!·.isInterruption) = writes₂.filter (!·.isInterruption) →
      ∀ fuel,
        let c₁ : Console := ⟨reads₁, readEnd, .scripted writes₁ flushes, cancelled, []⟩
        let c₂ : Console := ⟨reads₂, readEnd, .scripted writes₂ flushes, cancelled, []⟩
        SameButInterruptions c₁ c₂ (m.run control fuel c₁) (m.run control fuel c₂)) ∧
    ∀ console start, m.start console = .ok start → ∀ n s, m.Leads control n start s →
      ∀ writes failure flushes, s.console.writer = .scripted writes (.fail failure :: flushes) →
      ∀ fuel > n,
        (m.Begins control .input s → ∃ final call,
          m.run control fuel console = .ended (some (.io s.position failure.message)) final ∧
            call.isFlush ∧ final.console.calls = call :: .flushFailed failure :: s.console.calls ∧
            final.tape = s.tape ∧ final.steps = s.steps) ∧
        (s.position = m.program.size → ∃ final,
          m.run control fuel console = .ended (some (.io s.position failure.message)) final ∧
            final.console.calls = .flushFailed failure :: s.console.calls ∧
            final.tape = s.tape ∧ final.steps = s.steps) := by
  constructor
  · intro reads₁ reads₂ writes₁ writes₂ flushes readEnd cancelled hreads hwrites fuel
    apply sameButInterruptions_run _ rfl rfl
    simp only [Console.steady, Writer.steady, hreads, hwrites]
  · intro console start hstart n s hl writes failure flushes hwriter fuel hfuel
    have hflush := Console.flush_of_fail hwriter
    constructor
    · intro hb
      obtain ⟨hstep, -⟩ := step_of_failed_flush hb hflush
      obtain ⟨call, hcall, hcalls⟩ := Console.exists_flush_call
        { s.console with
          writer := .scripted writes flushes, calls := .flushFailed failure :: s.console.calls }
      exact ⟨_, call, hl.run_of_failed hstart hstep hfuel, hcall, hcalls, rfl, rfl⟩
    · intro hend
      have hstep : m.step control s = .halted s :=
        step_of_end (Program.command?_eq_none_iff.mpr (Nat.le_of_eq hend.symm))
      have hrun := hl.run_of_halted hstart hstep hfuel
      rw [hflush] at hrun
      exact ⟨_, hrun, rfl, rfl, rfl⟩

/-- A read and a write are interrupted, and in the second run nothing is. The flush in front of the
second read is interrupted in both, and nothing is read after it. -/
theorem interrupted_echo :
    ∃ m, load ",.," 1 .bounded = .ok m ∧ ∃ c₁ c₂ : Console, c₁ ≠ c₂ ∧
      SameButInterruptions c₁ c₂ (m.run .free 4 c₁) (m.run .free 4 c₂) ∧
      ∃ final call, m.run .free 4 c₁ = .ended (some (.io 2 "again")) final ∧ call.isFlush ∧
        final.console.calls = call :: .flushFailed ⟨true, "again"⟩ ::
          [.wrote 65, .writeFailed ⟨true, "again"⟩, .received 65, .readFailed ⟨true, "again"⟩,
            .readFailed ⟨true, "again"⟩, .flushed] := by
  let m : Machine := ⟨Program.parse ",.,", ⟨#[none, none, none]⟩, 1, .bounded, rfl⟩
  have hm : load ",.," 1 .bounded = .ok m := rfl
  let again : Failure := ⟨true, "again"⟩
  obtain ⟨hsame, hflush⟩ := interruptions_are_transparent m .free
  have hruns := hsame [.fail again, .fail again, .byte 65] [.byte 65] [.fail again] []
    [.succeed, .fail again] .closed false rfl rfl 4
  let c₁ : Console :=
    ⟨[.fail again, .fail again, .byte 65], .closed,
      .scripted [.fail again] [.succeed, .fail again], false, []⟩
  have hfailed := hflush c₁ _ rfl 2 _ (.cons rfl (.cons rfl (.refl _))) [] again []
  obtain ⟨final, call, hrun, hcall, hcalls, -⟩ := (hfailed rfl 4 (by decide)).1 ⟨rfl, rfl⟩
  exact ⟨m, hm, c₁, _, by decide, hruns, final, call, hrun, hcall, hcalls⟩

end Machine
end Brainfuck

import Brainfuck.Devices
import Brainfuck.Proofs.Calm
import Brainfuck.Proofs.ConsoleMaps

/-!
# Devices that work

Standard output stands behind a buffer. As long as its device takes everything, no call can tell the
buffer from a console that accepts each byte at once, so a run in front of working devices is the
run on such a console. What was put out is in the buffer or has arrived, and at the last flush of a
run all of it arrives. What has ended once is the same with any more fuel.
-/
namespace Brainfuck
namespace LineBuffer

variable {b : LineBuffer}

theorem deliver_of_working (h : b.refusal = none) :
    b.deliver = (⟨0, b.arrived + b.pending, none⟩, none) := by
  obtain ⟨pending, arrived, refusal⟩ := b
  cases h
  unfold deliver
  split
  · next hnone =>
    cases hnone
    rfl
  · rfl

/-- A byte that was put has arrived or is pending, and what was pending may have arrived. -/
theorem put_of_working (h : b.refusal = none) (byte : UInt8) :
    ∃ b' : LineBuffer, b.put byte = (b', none) ∧ b'.refusal = none ∧
      b'.arrived + b'.pending = b.arrived + b.pending + 1 := by
  obtain ⟨room, hroom, hworking, hcount⟩ :
      ∃ b' : LineBuffer, b.makeRoom = (b', none) ∧ b'.refusal = none ∧
        b'.arrived + b'.pending = b.arrived + b.pending := by
    unfold makeRoom
    split
    · exact ⟨b, rfl, h, rfl⟩
    · exact ⟨_, deliver_of_working h, rfl, rfl⟩
  rw [put, hroom, ← hcount]
  dsimp only
  split
  · exact ⟨_, deliver_of_working hworking, rfl, rfl⟩
  · exact ⟨_, rfl, hworking, rfl⟩

end LineBuffer

namespace Console

/-- The same console with a writer that accepts everything at once. -/
def unbuffered (c : Console) : Console := { c with writer := .scripted [] [] }

/-- A read has nothing to do with the writer. -/
theorem takeFrom_with_writer (writer : Writer) (events : List ReadEvent) (c : Console) :
    takeFrom events { c with writer } =
      ({ (takeFrom events c).1 with writer }, (takeFrom events c).2) := by
  induction events generalizing c with
  | nil =>
    simp only [takeFrom]
    split <;> rfl
  | cons event rest ih =>
    cases event with
    | byte value => rfl
    | nothing => rfl
    | cancel => exact ih { c with cancelled := true }
    | fail failure =>
      rw [takeFrom, takeFrom]
      split
      · exact ih { c with calls := .readFailed failure :: c.calls }
      · rfl

theorem take_writer (c : Console) : c.take.1.writer = c.writer :=
  congrArg (·.1.writer) (takeFrom_with_writer c.writer c.reader c)

/-- The writer is a buffer in front of a device that works, and what was put out has arrived there
or is pending. -/
def Conserved (c : Console) : Prop :=
  match c.writer with
  | .scripted _ _ => False
  | .buffered b => b.refusal = none ∧ b.arrived + b.pending = c.output.length

theorem kept_conserved : Kept Conserved where
  put := by
    rintro ⟨reader, readEnd, _ | buffer, cancelled, calls⟩ byte h
    · exact h.elim
    · obtain ⟨hworking, hcount⟩ := h
      obtain ⟨buffer', hput, hworking', hmore⟩ := LineBuffer.put_of_working hworking byte
      simp only [put, hput]
      refine ⟨hworking', ?_⟩
      rw [hmore, hcount]
      simp [output, Call.byte?]
  flush := by
    rintro ⟨reader, readEnd, _ | buffer, cancelled, calls⟩ h
    · exact h.elim
    · obtain ⟨hworking, hcount⟩ := h
      simp only [flush, LineBuffer.deliver_of_working hworking]
      exact ⟨rfl, hcount⟩
  take c h := by
    rw [Conserved, c.take_writer, c.output_take]
    exact h

/-- In front of a device that works the buffer cannot be noticed. -/
theorem commutes_unbuffered : Commutes Conserved unbuffered where
  kept := kept_conserved
  put := by
    rintro ⟨reader, readEnd, _ | buffer, cancelled, calls⟩ byte h
    · exact h.elim
    · obtain ⟨buffer', hput, -⟩ := LineBuffer.put_of_working h.1 byte
      simp only [put, hput, unbuffered, putScripted]
  flush := by
    rintro ⟨reader, readEnd, _ | buffer, cancelled, calls⟩ h
    · exact h.elim
    · simp only [flush, LineBuffer.deliver_of_working h.1, unbuffered]
  take c _ := takeFrom_with_writer (.scripted [] []) c.reader c

/-- After a flush nothing is pending. -/
theorem Conserved.delivered_flush {c : Console} (h : c.Conserved) :
    c.flush.1.delivered = c.flush.1.output := by
  obtain ⟨reader, readEnd, _ | buffer, cancelled, calls⟩ := c
  · exact h.elim
  · obtain ⟨hworking, hcount⟩ := h
    simp only [flush, LineBuffer.deliver_of_working hworking, delivered, arrived]
    rw [hcount]
    exact List.take_length

theorem calm_ofInput (input : List UInt8) : (ofInput (input.map .byte) .closed).Calm :=
  ⟨rfl, by simp [ofInput], by simp [ofInput, Writer.Calm]⟩

end Console

/-- Devices that work: standard input has some bytes and an end, standard output takes everything,
and nobody presses Ctrl+C. -/
def Devices.working (input : List UInt8) : Devices := ⟨input.map .byte, .closed, none, none⟩

theorem Devices.drainFrom_bytes (bytes : ByteArray) (input : List UInt8) :
    drainFrom .closed bytes (input.map .byte) = some (.ok (bytes ++ input.toByteArray), []) := by
  induction input generalizing bytes with
  | nil => simp [drainFrom]
  | cons value rest ih =>
    have hpush : bytes.push value ++ rest.toByteArray = bytes ++ (value :: rest).toByteArray := by
      apply ByteArray.ext
      simp
    rw [List.map_cons, drainFrom, ih, hpush]

theorem Devices.drain_working (input : List UInt8) :
    (working input).drain = some (.ok input.toByteArray, working []) := by
  rw [drain, working, drainFrom_bytes, ByteArray.empty_append]
  rfl

namespace Machine

variable {m : Machine} {control : Control} {console : Console} {n k : Nat} {s t : State}
  {result result' : Option Fault}

theorem start_of_ended (h : m.run control n console = .ended result s) :
    ∃ start, m.start console = .ok start ∧ (m.execute control n start).isSettled = true := by
  cases hstart : m.start console with
  | error fault =>
    rw [run, hstart] at h
    cases h
  | ok start =>
    rw [run_of_start hstart] at h
    exact ⟨start, rfl, Stop.isSettled_of_outcome h⟩

/-- A run that has ended does not change with more fuel. -/
theorem run_of_ended (h : m.run control n console = .ended result s) (hle : n ≤ k) :
    m.run control k console = .ended result s := by
  obtain ⟨start, hstart, hsettled⟩ := start_of_ended h
  obtain ⟨d, rfl⟩ := Nat.le.dest hle
  rw [run_of_start hstart] at h ⊢
  rw [execute_add_of_settled hsettled, h]

theorem ended_unique (h : m.run control n console = .ended result s)
    (h' : m.run control k console = .ended result' t) : result' = result ∧ t = s := by
  have hmore := run_of_ended h (Nat.le_max_left n k)
  rw [run_of_ended h' (Nat.le_max_right n k)] at hmore
  exact Outcome.ended.inj hmore

/-- When a run in front of devices that work is over, all its output has arrived. -/
theorem delivered_of_ended {input : List UInt8}
    (h : m.run control n (Devices.working input).console = .ended result s) :
    s.console.delivered = s.console.output := by
  obtain ⟨start, hstart, -⟩ := start_of_ended h
  have hconserved : start.console.Conserved := by
    rw [(start_eq_ok hstart).2.2]
    exact ⟨rfl, rfl⟩
  have hleft : (m.execute control n start).state.console.Conserved :=
    Console.kept_conserved.execute hconserved n
  rw [run_of_start hstart] at h
  generalize m.execute control n start = x at h hleft
  cases x with
  | ended fault t =>
    cases h
    exact hleft.delivered_flush
  | waiting t => exact nomatch h
  | running t => exact nomatch h

/-- The same run with a buffer and a device that works in front of its output, where all of it
arrives. -/
theorem run_on_working {input : List UInt8}
    (h : m.run control n (.ofInput (input.map .byte) .closed) = .ended result s) :
    ∃ t, m.run control n (Devices.working input).console = .ended result t ∧
      t.console.delivered = s.console.output := by
  have hrun : m.run control n (.ofInput (input.map .byte) .closed) =
      (m.run control n (Devices.working input).console).mapConsole Console.unbuffered :=
    Console.commutes_unbuffered.run (control.ignores_of_cancelled_eq fun _ => rfl)
      (show (Devices.working input).console.Conserved from ⟨rfl, rfl⟩) n
  rw [h] at hrun
  cases hx : m.run control n (Devices.working input).console with
  | ended fault t =>
    rw [hx] at hrun
    cases hrun
    exact ⟨t, rfl, delivered_of_ended hx⟩
  | refused _ _ | waiting _ | running _ =>
    rw [hx] at hrun
    exact nomatch hrun

end Machine
end Brainfuck

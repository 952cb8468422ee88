import Brainfuck.Proofs.Calls
import Brainfuck.Proofs.Stepping

/-!
# Calm consoles

A console is calm when the stop flag is down and no event raises it. No call makes a calm console
anything else, so a run that begins on one is never asked to stop. In the same way no call changes
what reads meet at the end of the input, and a run waits only if this is a wait.
-/
namespace Brainfuck

/-- Whether the event raises the stop flag, however the call ends. -/
def WriteEvent.raises : WriteEvent → Bool
  | .cancel | .raise => true
  | _ => false

def FlushEvent.raises : FlushEvent → Bool
  | .cancel | .cancelFail _ => true
  | _ => false

/-- No event of the writer raises the stop flag. -/
def Writer.Calm : Writer → Prop
  | .scripted writes flushes =>
    (∀ event ∈ writes, event.raises = false) ∧ ∀ event ∈ flushes, event.raises = false
  | .buffered _ => True

namespace Console

variable {c : Console}

/-- The stop flag is down, and no event raises it. -/
structure Calm (c : Console) : Prop where
  lowered : c.cancelled = false
  reader : .cancel ∉ c.reader
  writer : c.writer.Calm

theorem calm_putScripted {byte : UInt8} {flushes : List FlushEvent} {writes : List WriteEvent}
    (lowered : c.cancelled = false) (reader : .cancel ∉ c.reader)
    (hw : ∀ event ∈ writes, event.raises = false) (hf : ∀ event ∈ flushes, event.raises = false) :
    (putScripted byte flushes writes c).1.Calm := by
  induction writes generalizing c with
  | nil => exact ⟨lowered, reader, hw, hf⟩
  | cons event rest ih =>
    obtain ⟨hevent, hrest⟩ := List.forall_mem_cons.mp hw
    cases event with
    | accept => exact ⟨lowered, reader, hrest, hf⟩
    | acceptNothing => exact ⟨lowered, reader, hrest, hf⟩
    | cancel => cases hevent
    | raise => cases hevent
    | fail failure =>
      rw [putScripted]
      split
      · exact ih lowered reader hrest
      · exact ⟨lowered, reader, hrest, hf⟩

theorem Calm.put (h : c.Calm) (byte : UInt8) : (c.put byte).1.Calm := by
  have hw := h.writer
  unfold Console.put
  split
  · next heq =>
    rw [heq] at hw
    exact calm_putScripted h.lowered h.reader hw.1 hw.2
  · split <;> exact ⟨h.lowered, h.reader, trivial⟩

theorem Calm.flush (h : c.Calm) : c.flush.1.Calm := by
  have hw := h.writer
  unfold Console.flush
  split
  · next heq =>
    rw [heq] at hw
    exact ⟨h.lowered, h.reader, hw⟩
  · next heq =>
    rw [heq] at hw
    exact ⟨h.lowered, h.reader, hw.1, (List.forall_mem_cons.mp hw.2).2⟩
  · next heq =>
    rw [heq] at hw
    cases (List.forall_mem_cons.mp hw.2).1
  · next heq =>
    rw [heq] at hw
    exact ⟨h.lowered, h.reader, hw.1, (List.forall_mem_cons.mp hw.2).2⟩
  · next heq =>
    rw [heq] at hw
    cases (List.forall_mem_cons.mp hw.2).1
  · split <;> exact ⟨h.lowered, h.reader, trivial⟩

theorem calm_takeFrom {events : List ReadEvent} (lowered : c.cancelled = false)
    (writer : c.writer.Calm) (hr : .cancel ∉ events) : (takeFrom events c).1.Calm := by
  induction events generalizing c with
  | nil =>
    unfold takeFrom
    split <;> exact ⟨lowered, hr, writer⟩
  | cons event rest ih =>
    have hrest : .cancel ∉ rest := fun hmem => hr (List.mem_cons_of_mem event hmem)
    cases event with
    | byte value => exact ⟨lowered, hrest, writer⟩
    | nothing => exact ⟨lowered, hrest, writer⟩
    | cancel => exact absurd List.mem_cons_self hr
    | fail failure =>
      rw [takeFrom]
      split
      · exact ih lowered writer hrest
      · exact ⟨lowered, hrest, writer⟩

theorem Calm.take (h : c.Calm) : c.take.1.Calm :=
  calm_takeFrom h.lowered h.writer h.reader

theorem kept_calm : Kept Calm where
  put _ byte h := h.put byte
  flush _ h := h.flush
  take _ h := h.take

theorem readEnd_putScripted (byte : UInt8) (flushes : List FlushEvent)
    (writes : List WriteEvent) (c : Console) :
    (putScripted byte flushes writes c).1.readEnd = c.readEnd := by
  induction writes generalizing c with
  | nil => rfl
  | cons event rest ih =>
    cases event with
    | raise => exact ih _
    | fail failure =>
      rw [putScripted]
      split
      · exact ih _
      · rfl
    | _ => rfl

@[simp] theorem readEnd_put (c : Console) (byte : UInt8) :
    (c.put byte).1.readEnd = c.readEnd := by
  unfold put
  split
  · exact readEnd_putScripted ..
  · split <;> rfl

@[simp] theorem readEnd_flush (c : Console) : c.flush.1.readEnd = c.readEnd := by
  unfold flush
  split
  · rfl
  · rfl
  · rfl
  · rfl
  · rfl
  · split <;> rfl

theorem takeFrom_readEnd (events : List ReadEvent) (c : Console) :
    (takeFrom events c).1.readEnd = c.readEnd ∧
      ((takeFrom events c).2 = .waiting → c.readEnd = .waiting) := by
  induction events generalizing c with
  | nil =>
    unfold takeFrom
    split
    · exact ⟨rfl, nofun⟩
    · exact ⟨rfl, nofun⟩
    · next h => exact ⟨rfl, fun _ => h⟩
  | cons event rest ih =>
    cases event with
    | byte value => exact ⟨rfl, nofun⟩
    | nothing => exact ⟨rfl, nofun⟩
    | cancel => exact ih _
    | fail failure =>
      rw [takeFrom]
      split
      · exact ih _
      · exact ⟨rfl, fun hwaiting => by cases hwaiting⟩

@[simp] theorem readEnd_take (c : Console) : c.take.1.readEnd = c.readEnd :=
  (takeFrom_readEnd c.reader c).1

theorem kept_readEnd (readEnd : ReadEnd) : Kept (·.readEnd = readEnd) where
  put c byte h := (c.readEnd_put byte).trans h
  flush c h := c.readEnd_flush.trans h
  take c h := c.readEnd_take.trans h

end Console

/-- A command waits only on a console whose input ends in a wait. -/
theorem Command.readEnd_of_act_waiting {c : Command} {position : Nat} {tape tape' : Tape}
    {console console' : Console} (h : c.act position tape console = .waiting tape' console') :
    console.readEnd = .waiting := by
  cases eq_input_of_act_waiting h
  simp only [act] at h
  rcases hf : console.flush with ⟨flushed, _ | failure⟩
  · rw [hf] at h
    have hread := Effect.reading_of_ofRead_waiting h
    rw [← console.readEnd_flush, hf]
    exact (Console.takeFrom_readEnd flushed.reader flushed).2 hread
  · rw [hf] at h
    cases h

end Brainfuck

import Brainfuck.Proofs.Calls
import Brainfuck.Proofs.Calm

/-!
# What is drawn from the input

A read uses up the events of its input one after the other, up to the one that answers it, and
nothing else on a console touches the input. What was drawn is a list of events, with the values
that they bring and the calls that they end. On any other input that has these events to offer the
same call ends in the same way, and the rest of that input is left.
-/
namespace Brainfuck

namespace ReadEvent

/-- The byte that an event brings. Where there is nothing to read, this is zero. -/
def value? : ReadEvent → Option UInt8
  | .byte value => some value
  | .nothing => some 0
  | .cancel | .fail _ => none

/-- The call that an event ends. While the stop flag is raised, the call goes on. -/
def call? : ReadEvent → Option Call
  | .byte value => some (.received value)
  | .nothing => some .receivedNothing
  | .fail failure => some (.readFailed failure)
  | .cancel => none

end ReadEvent

/-- What each read meets at the end of the input. One that waits there meets nothing. -/
def ReadEnd.event? : ReadEnd → Option ReadEvent
  | .closed => some .nothing
  | .failing message => some (.fail ⟨false, message⟩)
  | .waiting => none

/-- An input has some events to offer, and then there is a rest. -/
inductive Supplies (readEnd : ReadEnd) :
    (reader events rest : List ReadEvent) → Prop where
  | none (reader : List ReadEvent) : Supplies readEnd reader [] reader
  | event {event : ReadEvent} {reader events rest : List ReadEvent}
      (tail : Supplies readEnd reader events rest) :
      Supplies readEnd (event :: reader) (event :: events) rest
  | atEnd {event : ReadEvent} {events rest : List ReadEvent}
      (ending : readEnd.event? = some event) (tail : Supplies readEnd [] events rest) :
      Supplies readEnd [] (event :: events) rest

namespace Supplies

variable {readEnd : ReadEnd} {reader events events' rest rest' : List ReadEvent}

theorem nil_iff : Supplies readEnd reader [] rest ↔ rest = reader := by
  constructor
  · intro h
    cases h
    rfl
  · rintro rfl
    exact .none rest

theorem append (h : Supplies readEnd reader events rest)
    (h' : Supplies readEnd rest events' rest') :
    Supplies readEnd reader (events ++ events') rest' := by
  induction h with
  | none reader => exact h'
  | event _ ih => exact .event (ih h')
  | atEnd ending _ ih => exact .atEnd ending (ih h')

theorem exists_of_append (h : Supplies readEnd reader (events ++ events') rest) :
    ∃ mid, Supplies readEnd reader events mid ∧ Supplies readEnd mid events' rest := by
  induction events generalizing reader with
  | nil => exact ⟨reader, .none reader, h⟩
  | cons event events ih =>
    cases h with
    | event tail =>
      obtain ⟨mid, hfirst, hlast⟩ := ih tail
      exact ⟨mid, .event hfirst, hlast⟩
    | atEnd ending tail =>
      obtain ⟨mid, hfirst, hlast⟩ := ih tail
      exact ⟨mid, .atEnd ending hfirst, hlast⟩

/-- The events of a list in front of a rest. -/
theorem of_append (readEnd : ReadEnd) (events rest : List ReadEvent) :
    Supplies readEnd (events ++ rest) events rest := by
  induction events with
  | nil => exact .none rest
  | cons event events ih => exact .event ih

/-- As long as something is left, the end of the input has not been met. -/
theorem eq_append (h : Supplies readEnd reader events rest) (hrest : rest ≠ []) :
    reader = events ++ rest := by
  induction h with
  | none reader => rfl
  | event _ ih => rw [ih hrest, List.cons_append]
  | atEnd _ _ ih => exact absurd (List.append_eq_nil_iff.mp (ih hrest).symm).2 hrest

end Supplies

namespace Console

/-- The console with another input. -/
def resupply (reader : List ReadEvent) (readEnd : ReadEnd) (c : Console) : Console :=
  { c with reader, readEnd }

/-- The reads that were made, in order. -/
def reads (c : Console) : List Call := (c.calls.filter Call.isRead).reverse

/-- The values that were drawn from the input, going from one console to another. Whatever was done
there is done `alike` on any input that has the same events to offer. If it ended in a wait, then
that input has to end in a wait as well. -/
inductive Draws (c c' : Console) (values : List UInt8) (waits : Bool)
    (alike : (reader : List ReadEvent) → ReadEnd → (rest : List ReadEvent) → Prop) : Prop where
  | intro (events : List ReadEvent)
      (supplied : Supplies c.readEnd c.reader events c'.reader)
      (readEnd_eq : c'.readEnd = c.readEnd)
      (values_eq : values = events.filterMap ReadEvent.value?)
      (reads_eq : c'.reads = c.reads ++ events.filterMap ReadEvent.call?)
      (elsewhere : ∀ reader readEnd rest, Supplies readEnd reader events rest →
        (waits → rest = [] ∧ readEnd = .waiting) → alike reader readEnd rest)

namespace Draws

variable {c c' c'' : Console} {values values' : List UInt8} {waits : Bool}
  {alike alike' alike'' : List ReadEvent → ReadEnd → List ReadEvent → Prop}

/-- Nothing was drawn. -/
theorem nothing (hreader : c'.reader = c.reader) (hend : c'.readEnd = c.readEnd)
    (hreads : c'.reads = c.reads) (h : ∀ reader readEnd, alike reader readEnd reader) :
    Draws c c' [] waits alike := by
  refine .intro [] (hreader ▸ .none _) hend rfl (by simp [hreads])
    fun reader readEnd rest hs _ => ?_
  rw [Supplies.nil_iff.mp hs]
  exact h reader readEnd

theorem trans (h : Draws c c' values false alike) (h' : Draws c' c'' values' waits alike')
    (hboth : ∀ reader readEnd mid rest, alike reader readEnd mid → alike' mid readEnd rest →
      alike'' reader readEnd rest) : Draws c c'' (values ++ values') waits alike'' := by
  obtain ⟨events, hs, hend, rfl, hreads, helse⟩ := h
  obtain ⟨events', hs', hend', rfl, hreads', helse'⟩ := h'
  refine .intro (events ++ events') (hs.append (hend ▸ hs')) (hend'.trans hend) (by simp)
    (by simp [hreads', hreads]) fun reader readEnd rest hmore hwaits => ?_
  obtain ⟨mid, hfirst, hlast⟩ := hmore.exists_of_append
  exact hboth _ _ _ _ (helse _ _ _ hfirst nofun) (helse' _ _ _ hlast hwaits)

theorem mono (h : Draws c c' values waits alike)
    (hmono : ∀ reader readEnd rest, alike reader readEnd rest → alike' reader readEnd rest) :
    Draws c c' values waits alike' := by
  obtain ⟨events, hs, hend, hvalues, hreads, helse⟩ := h
  exact .intro events hs hend hvalues hreads fun _ _ _ hmore hwaits =>
    hmono _ _ _ (helse _ _ _ hmore hwaits)

end Draws

variable (reader : List ReadEvent) (readEnd : ReadEnd)

theorem putScripted_resupply (byte : UInt8) (flushes : List FlushEvent) (writes : List WriteEvent)
    (c : Console) :
    putScripted byte flushes writes (c.resupply reader readEnd) =
      ((putScripted byte flushes writes c).1.resupply reader readEnd,
        (putScripted byte flushes writes c).2) := by
  induction writes generalizing c with
  | nil => rfl
  | cons event rest ih =>
    cases event with
    | raise => exact ih { c with cancelled := true }
    | fail failure =>
      rw [putScripted, putScripted]
      split
      · exact ih { c with calls := .writeFailed failure :: c.calls }
      · rfl
    | _ => rfl

/-- A write has nothing to do with the input. -/
theorem put_resupply (c : Console) (byte : UInt8) :
    (c.resupply reader readEnd).put byte =
      ((c.put byte).1.resupply reader readEnd, (c.put byte).2) := by
  obtain ⟨events, last, writer, cancelled, calls⟩ := c
  cases writer with
  | scripted writes flushes => exact putScripted_resupply reader readEnd byte flushes writes _
  | buffered buffer =>
    simp only [put, resupply]
    rcases buffer.put byte with ⟨buffer', _ | failure⟩ <;> rfl

/-- Nor has a flush. -/
theorem flush_resupply (c : Console) :
    (c.resupply reader readEnd).flush = (c.flush.1.resupply reader readEnd, c.flush.2) := by
  obtain ⟨events, last, writer, cancelled, calls⟩ := c
  cases writer with
  | scripted writes flushes => rcases flushes with _ | ⟨_ | _ | failure | failure, rest⟩ <;> rfl
  | buffered buffer =>
    simp only [flush, resupply]
    rcases buffer.deliver with ⟨buffer', _ | failure⟩ <;> rfl

theorem reader_put (c : Console) (byte : UInt8) : (c.put byte).1.reader = c.reader :=
  congrArg (·.1.reader) (c.put_resupply c.reader c.readEnd byte)

theorem reader_flush (c : Console) : c.flush.1.reader = c.reader :=
  congrArg (·.1.reader) (c.flush_resupply c.reader c.readEnd)

theorem reads_put (c : Console) (byte : UInt8) : (c.put byte).1.reads = c.reads := by
  have hvain {tries : List Call} (vain : ∀ call ∈ tries, call.isVainWrite) :
      tries.filter Call.isRead = [] := by
    refine List.filter_eq_nil_iff.mpr fun call hmem => ?_
    simp [(Call.isVainWrite_elim (vain call hmem)).2.2]
  have hv := c.put_view byte
  generalize c.put byte = result at hv
  cases hv with
  | accepted tries vain calls =>
    rw [reads, calls, List.filter_cons_of_neg Bool.false_ne_true, List.filter_append, hvain vain]
    rfl
  | failed tries vain calls =>
    rw [reads, calls, List.filter_append, hvain vain]
    rfl

theorem reads_flush (c : Console) : c.flush.1.reads = c.reads := by
  obtain ⟨call, hcall, hcalls⟩ := c.exists_flush_call
  simp [reads, hcalls, (Call.isFlush_elim hcall).2]

end Console

namespace Reading

/-- What a `,` stores after a read, if it stores anything. -/
def value? : Reading → Option UInt8
  | .byte value => some value
  | .nothing => some 0
  | .failed _ | .waiting => none

def waits : Reading → Bool
  | .waiting => true
  | _ => false

end Reading

namespace Console

/-- A read that meets the events of a list draws the value that it brings. -/
def ReadDraws (c : Console) (events : List ReadEvent) : Prop :=
  Draws (c.resupply events c.readEnd) (takeFrom events c).1 (takeFrom events c).2.value?.toList
    (takeFrom events c).2.waits fun reader readEnd rest => ∀ unread,
      takeFrom reader (c.resupply unread readEnd) =
        ((takeFrom events c).1.resupply rest readEnd, (takeFrom events c).2)

/-- At its end an input is like one that has one more event to offer. -/
theorem exists_takeFrom_eq {readEnd : ReadEnd} {reader events rest : List ReadEvent}
    {event : ReadEvent} (h : Supplies readEnd reader (event :: events) rest) :
    ∃ mid, Supplies readEnd mid events rest ∧ ∀ c : Console, c.readEnd = readEnd →
      takeFrom reader c = takeFrom (event :: mid) c := by
  cases h with
  | event tail => exact ⟨_, tail, fun _ _ => rfl⟩
  | atEnd ending tail =>
    refine ⟨[], tail, fun c hend => ?_⟩
    subst hend
    obtain ⟨reader, readEnd, writer, cancelled, calls⟩ := c
    cases readEnd with
    | closed =>
      cases ending
      rfl
    | failing message =>
      cases ending
      rfl
    | waiting => exact nomatch ending

/-- An event ends the read. -/
theorem readDraws_of_answer {c : Console} {reader rest : List ReadEvent} (event : ReadEvent)
    (call : Call) (reading : Reading) (hread : call.isRead) (hcall : event.call? = some call)
    (hvalue : event.value? = reading.value?) (hs : Supplies c.readEnd reader [event] rest)
    (htake : ∀ (c : Console) rest, takeFrom (event :: rest) c =
      ({ c with reader := rest, calls := call :: c.calls }, reading)) : c.ReadDraws reader := by
  have hsame {reader rest : List ReadEvent} {c : Console}
      (hs : Supplies c.readEnd reader [event] rest) :
      takeFrom reader c = ({ c with reader := rest, calls := call :: c.calls }, reading) := by
    obtain ⟨mid, hmid, heq⟩ := exists_takeFrom_eq hs
    rw [heq c rfl, htake, Supplies.nil_iff.mp hmid]
  rw [ReadDraws, hsame hs]
  refine .intro [event] hs rfl ?_ ?_ fun reader readEnd rest hmore _ unread => ?_
  · rw [← hvalue]
    cases hv : event.value? <;> simp [hv]
  · simp [reads, hcall, hread, resupply]
  · exact hsame (c := c.resupply unread readEnd) hmore

/-- The read goes on behind an event, once this has been noted on the console. -/
theorem readDraws_of_skipped {c : Console} {event : ReadEvent} {events : List ReadEvent}
    (note : Console → Console)
    (hnote : ∀ (c : Console) reader readEnd,
      note (c.resupply reader readEnd) = (note c).resupply reader readEnd)
    (hreads : (note c).reads = c.reads ++ event.call?.toList) (hvalue : event.value? = none)
    (htake : ∀ (c : Console) rest, takeFrom (event :: rest) c = takeFrom rest (note c))
    (h : (note c).ReadDraws events) : c.ReadDraws (event :: events) := by
  have hend : (note c).readEnd = c.readEnd := by
    simpa [resupply] using congrArg readEnd (hnote c c.reader c.readEnd)
  obtain ⟨used, hs, hlast, hvalues, hcalls, helse⟩ := h
  rw [ReadDraws, htake]
  refine .intro (event :: used) (.event (hend ▸ hs)) (hlast.trans hend) ?_ ?_
    fun reader readEnd rest hmore hwaits unread => ?_
  · rw [hvalues, List.filterMap_cons_none hvalue]
  · have hnoted : ((note c).resupply events (note c).readEnd).reads =
        (c.resupply (event :: events) c.readEnd).reads ++ event.call?.toList := hreads
    rw [hcalls, hnoted, List.append_assoc]
    cases hcall : event.call? <;> simp [hcall]
  · obtain ⟨mid, hmid, heq⟩ := exists_takeFrom_eq hmore
    rw [heq _ rfl, htake, hnote]
    exact helse mid readEnd rest hmid hwaits unread

theorem readDraws (events : List ReadEvent) (c : Console) : c.ReadDraws events := by
  induction events generalizing c with
  | nil =>
    cases hend : c.readEnd with
    | closed =>
      exact readDraws_of_answer .nothing .receivedNothing .nothing rfl rfl rfl
        (.atEnd (by rw [hend]; rfl) (.none [])) fun _ _ => rfl
    | failing message =>
      exact readDraws_of_answer (.fail ⟨false, message⟩) (.readFailed ⟨false, message⟩)
        (.failed ⟨false, message⟩) rfl rfl rfl (.atEnd (by rw [hend]; rfl) (.none []))
        fun _ _ => rfl
    | waiting =>
      obtain ⟨reader, readEnd, writer, cancelled, calls⟩ := c
      cases hend
      refine .intro [] (.none []) rfl rfl (by simp [takeFrom, reads, resupply])
        fun reader readEnd rest hmore hwaits unread => ?_
      obtain ⟨rfl, rfl⟩ := hwaits rfl
      rw [← Supplies.nil_iff.mp hmore]
      rfl
  | cons event rest ih =>
    have hone : Supplies c.readEnd (event :: rest) [event] rest := .event (.none rest)
    cases event with
    | byte value =>
      exact readDraws_of_answer _ (.received value) (.byte value) rfl rfl rfl hone fun _ _ => rfl
    | nothing =>
      exact readDraws_of_answer _ .receivedNothing .nothing rfl rfl rfl hone fun _ _ => rfl
    | cancel =>
      exact readDraws_of_skipped (fun c => { c with cancelled := true }) (fun _ _ _ => rfl)
        (List.append_nil _).symm rfl (fun _ _ => rfl) (ih _)
    | fail failure =>
      cases hf : failure.interrupted with
      | true =>
        refine readDraws_of_skipped (fun c => { c with calls := .readFailed failure :: c.calls })
          (fun _ _ _ => rfl) List.reverse_cons rfl (fun c rest => ?_) (ih _)
        rw [takeFrom, if_pos hf]
      | false =>
        refine readDraws_of_answer _ (.readFailed failure) (.failed failure) rfl rfl rfl hone
          fun c rest => ?_
        rw [takeFrom, if_neg (by simp [hf])]

theorem take_draws (c : Console) :
    Draws c c.take.1 c.take.2.value?.toList c.take.2.waits fun reader readEnd rest =>
      (c.resupply reader readEnd).take = (c.take.1.resupply rest readEnd, c.take.2) :=
  (readDraws c.reader c).mono fun reader _ _ h => h reader

theorem put_draws (c : Console) (byte : UInt8) (waits : Bool) :
    Draws c (c.put byte).1 [] waits fun reader readEnd rest =>
      (c.resupply reader readEnd).put byte =
        ((c.put byte).1.resupply rest readEnd, (c.put byte).2) :=
  .nothing (c.reader_put byte) (c.readEnd_put byte) (c.reads_put byte) fun reader readEnd =>
    c.put_resupply reader readEnd byte

theorem flush_draws (c : Console) (waits : Bool) :
    Draws c c.flush.1 [] waits fun reader readEnd rest =>
      (c.resupply reader readEnd).flush = (c.flush.1.resupply rest readEnd, c.flush.2) :=
  .nothing c.reader_flush c.readEnd_flush c.reads_flush fun reader readEnd =>
    c.flush_resupply reader readEnd

end Console

end Brainfuck

import Brainfuck.Proofs.Calm
import Brainfuck.Proofs.ConsoleMaps
import Brainfuck.Proofs.Safety

/-!
# Cancellation

A call raises the stop flag exactly when it meets an event that does so, whether the call fails or
not, and no call takes it back. A watched run begins no command while the flag is up: the command in
which it goes up is carried through, and what comes after it is the last flush. The run is then
cancelled, unless that command failed or there is nothing left to do. A free run goes the same way
whatever becomes of the flag: the events that raise it can be left out.
-/
namespace Brainfuck

/-- The event without the raised flag, if it answers the write. -/
def WriteEvent.quiet? : WriteEvent → Option WriteEvent
  | .cancel => some .accept
  | .raise => none
  | event => some event

def FlushEvent.quiet : FlushEvent → FlushEvent
  | .cancel => .succeed
  | .cancelFail failure => .fail failure
  | event => event

def Writer.quiet : Writer → Writer
  | .scripted writes flushes => .scripted (writes.filterMap WriteEvent.quiet?) (flushes.map .quiet)
  | .buffered buffer => .buffered buffer

def Writer.alarms : Writer → Nat
  | .scripted writes flushes => writes.countP (·.raises) + flushes.countP (·.raises)
  | .buffered _ => 0

namespace Console

/-- The same console with the flag down and nothing that raises it. -/
def quiet (c : Console) : Console :=
  { c with reader := c.reader.filter (· ≠ .cancel), writer := c.writer.quiet, cancelled := false }

@[simp] theorem calls_quiet (c : Console) : c.quiet.calls = c.calls := rfl

/-- How many events are left that raise the flag. -/
def alarms (c : Console) : Nat := c.reader.count .cancel + c.writer.alarms

/-- From one console to a later one the flag goes up exactly if an event that raises it was
met. -/
structure Heard (c c' : Console) : Prop where
  alarms_le : c'.alarms ≤ c.alarms
  cancelled_iff : c'.cancelled = true ↔ c.cancelled = true ∨ c'.alarms < c.alarms

variable {c c' c'' : Console}

theorem Heard.trans (h : Heard c c') (h' : Heard c' c'') : Heard c c'' := by
  refine ⟨Nat.le_trans h'.alarms_le h.alarms_le, ?_⟩
  have hle := h.alarms_le
  have hle' := h'.alarms_le
  rw [h'.cancelled_iff, h.cancelled_iff, or_assoc]
  refine or_congr_right ⟨fun hlt => ?_, fun hlt => ?_⟩ <;> omega

/-- Nothing of the kind was met. -/
theorem Heard.of_eq (halarms : c'.alarms = c.alarms) (hflag : c'.cancelled = c.cancelled) :
    Heard c c' := by
  refine ⟨Nat.le_of_eq halarms, ?_⟩
  rw [hflag, halarms]
  simp

theorem Heard.of_lt (halarms : c'.alarms < c.alarms) (hflag : c'.cancelled = true) :
    Heard c c' :=
  ⟨Nat.le_of_lt halarms, iff_of_true hflag (.inr halarms)⟩

theorem putScripted_heard (byte : UInt8) (flushes : List FlushEvent) (writes : List WriteEvent)
    (c : Console) :
    Heard { c with writer := .scripted writes flushes } (putScripted byte flushes writes c).1 := by
  induction writes generalizing c with
  | nil => exact .of_eq rfl rfl
  | cons event rest ih =>
    cases event with
    | accept | acceptNothing =>
      exact .of_eq (by simp [putScripted, alarms, Writer.alarms, WriteEvent.raises]) rfl
    | cancel => exact .of_lt (by simp [putScripted, alarms, Writer.alarms, WriteEvent.raises]) rfl
    | raise =>
      refine Heard.trans ?_ (ih { c with cancelled := true })
      exact .of_lt (by simp [alarms, Writer.alarms, WriteEvent.raises]) rfl
    | fail failure =>
      rw [putScripted]
      split
      · refine Heard.trans ?_ (ih { c with calls := .writeFailed failure :: c.calls })
        exact .of_eq (by simp [alarms, Writer.alarms, WriteEvent.raises]) rfl
      · exact .of_eq (by simp [alarms, Writer.alarms, WriteEvent.raises]) rfl

theorem put_heard (c : Console) (byte : UInt8) : Heard c (c.put byte).1 := by
  obtain ⟨reader, readEnd, writer, cancelled, calls⟩ := c
  cases writer with
  | scripted writes flushes =>
    exact putScripted_heard byte flushes writes
      ⟨reader, readEnd, .scripted writes flushes, cancelled, calls⟩
  | buffered buffer =>
    simp only [put]
    rcases buffer.put byte with ⟨buffer', _ | failure⟩ <;> exact .of_eq rfl rfl

theorem flush_heard (c : Console) : Heard c c.flush.1 := by
  obtain ⟨reader, readEnd, writer, cancelled, calls⟩ := c
  cases writer with
  | scripted writes flushes =>
    rcases flushes with _ | ⟨_ | _ | failure | failure, rest⟩
    · exact .of_eq rfl rfl
    · exact .of_eq (by simp [flush, alarms, Writer.alarms, FlushEvent.raises]) rfl
    · exact .of_lt (by simp [flush, alarms, Writer.alarms, FlushEvent.raises]) rfl
    · exact .of_eq (by simp [flush, alarms, Writer.alarms, FlushEvent.raises]) rfl
    · exact .of_lt (by simp [flush, alarms, Writer.alarms, FlushEvent.raises]) rfl
  | buffered buffer =>
    simp only [flush]
    rcases buffer.deliver with ⟨buffer', _ | failure⟩ <;> exact .of_eq rfl rfl

/-- A write waits while the flag goes up and fails then, and the flush behind it raises the flag and
fails as well. -/
example :
    let full : Failure := ⟨false, "full"⟩
    let c : Console := ⟨[], .closed, .scripted [.raise, .fail full] [.cancelFail full], false, []⟩
    c.put 65 = (⟨[], .closed, .scripted [] [.cancelFail full], true, [.writeFailed full]⟩,
        some full) ∧
      c.flush = (⟨[], .closed, .scripted [.raise, .fail full] [], true, [.flushFailed full]⟩,
        some full) := by
  decide

theorem takeFrom_heard (events : List ReadEvent) (c : Console) :
    Heard { c with reader := events } (takeFrom events c).1 := by
  induction events generalizing c with
  | nil =>
    unfold takeFrom
    split <;> exact .of_eq rfl rfl
  | cons event rest ih =>
    cases event with
    | byte value => exact .of_eq (by simp [takeFrom, alarms]) rfl
    | nothing => exact .of_eq (by simp [takeFrom, alarms]) rfl
    | cancel =>
      refine Heard.trans ?_ (ih { c with cancelled := true })
      exact .of_lt (by simp [alarms]) rfl
    | fail failure =>
      rw [takeFrom]
      split
      · refine Heard.trans ?_ (ih { c with calls := .readFailed failure :: c.calls })
        exact .of_eq (by simp [alarms]) rfl
      · exact .of_eq (by simp [alarms]) rfl

theorem kept_heard (c : Console) : Kept (Heard c) where
  put c' byte h := h.trans (c'.put_heard byte)
  flush c' h := h.trans c'.flush_heard
  take c' h := h.trans (takeFrom_heard c'.reader c')

theorem putScripted_quiet (byte : UInt8) (flushes : List FlushEvent) (writes : List WriteEvent)
    (c : Console) :
    putScripted byte (flushes.map .quiet) (writes.filterMap WriteEvent.quiet?) c.quiet =
      ((putScripted byte flushes writes c).1.quiet, (putScripted byte flushes writes c).2) := by
  induction writes generalizing c with
  | nil => rfl
  | cons event rest ih =>
    cases event with
    | raise => exact ih { c with cancelled := true }
    | fail failure =>
      simp only [List.filterMap_cons, WriteEvent.quiet?, putScripted]
      split
      · exact ih { c with calls := .writeFailed failure :: c.calls }
      · rfl
    | _ => rfl

theorem takeFrom_quiet (events : List ReadEvent) (c : Console) :
    takeFrom (events.filter (· ≠ .cancel)) c.quiet =
      ((takeFrom events c).1.quiet, (takeFrom events c).2) := by
  induction events generalizing c with
  | nil =>
    simp only [List.filter_nil, takeFrom, show c.quiet.readEnd = c.readEnd from rfl]
    split <;> rfl
  | cons event rest ih =>
    cases event with
    | byte value => rfl
    | nothing => rfl
    | cancel => exact ih { c with cancelled := true }
    | fail failure =>
      rw [List.filter_cons_of_pos (by simp), takeFrom, takeFrom]
      split
      · exact ih { c with calls := .readFailed failure :: c.calls }
      · rfl

theorem commutes_quiet : Commutes (fun _ => True) quiet where
  kept := ⟨fun _ _ _ => trivial, fun _ _ => trivial, fun _ _ => trivial⟩
  put c byte _ := by
    obtain ⟨reader, readEnd, writer, cancelled, calls⟩ := c
    cases writer with
    | scripted writes flushes => exact putScripted_quiet byte flushes writes _
    | buffered buffer =>
      simp only [put, quiet, Writer.quiet]
      rcases buffer.put byte with ⟨buffer', _ | failure⟩ <;> rfl
  flush c _ := by
    obtain ⟨reader, readEnd, writer, cancelled, calls⟩ := c
    cases writer with
    | scripted writes flushes => rcases flushes with _ | ⟨_ | _ | failure | failure, rest⟩ <;> rfl
    | buffered buffer =>
      simp only [flush, quiet, Writer.quiet]
      rcases buffer.deliver with ⟨buffer', _ | failure⟩ <;> rfl
  take c _ := takeFrom_quiet c.reader c

end Console

/-- The state after a flush. -/
def State.flushed (s : State) : State := { s with console := s.console.flush.1 }

namespace Machine

variable {m : Machine} {control : Control} {limit : Option Nat} {console : Console}
  {past : List State} {s t start : State} {n fuel : Nat}

/-- The result of a run that finds the flag up in a state: it is cancelled, or it is at its end
and only the last flush can fail. -/
def cancelledResult (m : Machine) (s : State) : Option Fault :=
  if s.position < m.program.size then some .cancelled
  else s.console.flush.2.map fun failure => .io m.program.size failure.message

/-- A run is over with a state: one flush is all that follows. -/
structure Dismissed (m : Machine) (s : State) (x : Outcome) : Prop where
  outcome_eq : x = .ended (m.cancelledResult s) s.flushed
  last_call : ∃ call : Call, call.isFlush ∧ x.console.calls = call :: s.console.calls

/-- How a run ends when the flag goes up during the command of a state. -/
inductive RaisedDuring (m : Machine) (s : State) : Progress → Outcome → Prop where
  | failed {c : Command} {fault : Fault} {t : State}
      (found : m.program.command? s.position = some c) (fails : c.Fails s.position s.tape fault)
      (last_call : ∃ call : Call, call.isFlush ∧
        t.flushed.console.calls = call :: t.console.calls) :
      RaisedDuring m s (.failed fault t) (.ended (some fault) t.flushed)
  | done {t : State} {x : Outcome} (dismissed : m.Dismissed t x) : RaisedDuring m s (.next t) x
  | waiting {t : State} : RaisedDuring m s (.waiting t) (.waiting t)

theorem objection?_of_cancelled (h : s.console.cancelled = true) :
    (Control.watched limit).objection? s = some .cancelled := by
  simp [Control.objection?, h]

/-- While the flag is up no command is begun. -/
theorem not_begins_of_cancelled (h : s.console.cancelled = true) (c : Command) :
    ¬ m.Begins (.watched limit) c s :=
  fun hb => nomatch (objection?_of_cancelled h).symm.trans hb.2

theorem cancelled_of_objection (h : control.objection? s = some .cancelled) :
    s.console.cancelled = true := by
  cases control with
  | free => cases h
  | watched limit =>
    by_contra hflag
    simp only [Control.objection?, hflag] at h
    cases limit with
    | none => cases h
    | some n =>
      by_cases hn : n ≤ s.steps <;> simp [hn] at h

/-- A command is never cancelled by itself: the flag was up before it. -/
theorem flag_of_step_cancelled (h : m.step control s = .failed .cancelled t) :
    s.console.cancelled = true := by
  rcases (step_failed h).2.2 with hobjection | ⟨c, -, hfails⟩
  · exact cancelled_of_objection hobjection
  · exact nomatch hfails

theorem Ends.flag_of_cancelled {final : State}
    (h : m.Ends control console past s (some .cancelled) final) : s.console.cancelled = true := by
  rcases h.result_cases with ⟨t, hstep⟩ | ⟨-, reason, hio⟩
  · exact flag_of_step_cancelled hstep
  · exact nomatch hio

theorem step_of_cancelled (h : s.console.cancelled = true) (hlt : s.position < m.program.size) :
    m.step (.watched limit) s = .failed .cancelled s := by
  obtain ⟨c, hc⟩ : ∃ c, m.program.command? s.position = some c := by
    rw [← Option.ne_none_iff_exists']
    exact fun hnone => Nat.not_le_of_lt hlt (Program.command?_eq_none_iff.mp hnone)
  simp only [step, hc, objection?_of_cancelled h]

theorem dismissed_execute (h : s.console.cancelled = true) (hle : s.position ≤ m.program.size)
    (hfuel : 0 < fuel) : m.Dismissed s (m.execute (.watched limit) fuel s).outcome := by
  obtain ⟨fuel, rfl⟩ := Nat.exists_eq_succ_of_ne_zero (Nat.ne_of_gt hfuel)
  have houtcome : (m.execute (.watched limit) (fuel + 1) s).outcome =
      .ended (m.cancelledResult s) s.flushed := by
    rw [execute, cancelledResult]
    by_cases hlt : s.position < m.program.size
    · rw [step_of_cancelled h hlt, if_pos hlt]
      rfl
    · have hend : s.position = m.program.size := Nat.le_antisymm hle (Nat.le_of_not_lt hlt)
      have hnone := Program.command?_eq_none_iff.mpr (Nat.le_of_eq hend.symm)
      rw [step_of_end hnone, if_neg hlt, ← hend]
      rfl
  refine ⟨houtcome, ?_⟩
  rw [houtcome]
  exact s.console.exists_flush_call

/-- A command during which the flag goes up is followed by nothing but the last flush. -/
theorem raisedDuring_execute (hc : m.Course (.watched limit) console past s)
    (hdown : s.console.cancelled = false)
    (hup : (m.step (.watched limit) s).state.console.cancelled = true) (hfuel : 1 < fuel) :
    m.RaisedDuring s (m.step (.watched limit) s) (m.execute (.watched limit) fuel s).outcome := by
  obtain ⟨fuel, rfl⟩ := Nat.exists_eq_succ_of_ne_zero (Nat.ne_of_gt (Nat.zero_lt_of_lt hfuel))
  rw [execute]
  cases hs : m.step (.watched limit) s with
  | next t =>
    rw [hs] at hup
    exact .done (dismissed_execute hup (step_next hs).1 (Nat.lt_of_succ_lt_succ hfuel))
  | halted t =>
    rw [hs] at hup
    obtain ⟨rfl, -⟩ := step_halted hs
    exact absurd (hdown.symm.trans hup) Bool.false_ne_true
  | failed fault t =>
    -- An objection is made in the state itself, where the flag is down.
    have hv := m.step_view (.watched limit) s
    rw [hs] at hv hup
    cases hv with
    | objected _ _ => exact absurd (hdown.symm.trans hup) Bool.false_ne_true
    | @failed c _ tape console' found _ _ act =>
      have ha := c.act_view s.position s.tape s.console
      rw [act] at ha
      cases ha with
      | failed fails _ => exact .failed found fails (Console.exists_flush_call _)
  | waiting t => exact .waiting

/-- A run that is cancelled has come to a state in which the flag is up. -/
theorem leads_of_cancelled (h : m.execute control fuel s = .ended (some .cancelled) t) :
    ∃ n, m.Leads control n s t ∧ t.console.cancelled = true ∧ t.position < m.program.size := by
  induction fuel generalizing s with
  | zero => cases h
  | succ fuel ih =>
    rw [execute] at h
    have hv := m.step_view control s
    cases hs : m.step control s with
    | next u =>
      rw [hs] at h
      obtain ⟨n, hl, hrest⟩ := ih h
      exact ⟨n + 1, .cons hs hl, hrest⟩
    | halted u =>
      rw [hs] at h
      cases h
    | failed fault u =>
      rw [hs] at h hv
      cases h
      cases hv with
      | objected found objection =>
        exact ⟨0, .refl _, cancelled_of_objection objection, Program.lt_size_of_command? found⟩
      | @failed c _ tape console' _ _ _ act =>
        have ha := c.act_view s.position s.tape s.console
        rw [act] at ha
        cases ha with
        | failed fails _ => cases fails
    | waiting u =>
      rw [hs] at h
      cases h

theorem leads_of_run_cancelled (hstart : m.start console = .ok start)
    (h : m.run control fuel console = .ended (some .cancelled) t) :
    ∃ n s, m.Leads control n start s ∧ s.console.cancelled = true ∧
      s.position < m.program.size ∧ t = s.flushed := by
  rw [run_of_start hstart] at h
  cases he : m.execute control fuel start with
  | ended fault s =>
    rw [he] at h
    cases fault with
    | some fault =>
      cases h
      obtain ⟨n, hl, hflag, hlt⟩ := leads_of_cancelled he
      exact ⟨n, s, hl, hflag, hlt, rfl⟩
    | none =>
      -- The last flush fails as a call does.
      have hresult : s.console.flush.2.map (fun f => Fault.io s.position f.message) =
          some .cancelled := (Outcome.ended.inj h).1
      obtain ⟨failure, -, hio⟩ := Option.map_eq_some_iff.mp hresult
      exact nomatch hio
  | waiting s =>
    rw [he] at h
    exact nomatch h
  | running s =>
    rw [he] at h
    exact nomatch h

/-- Cancellation stops a watched run before its next command, at whatever point the flag goes up,
and a free run takes no notice of it. -/
theorem cancellation_stops_before_next_command {source : String} {memory : Nat} {policy : Policy}
    {m : Machine} (hload : load source memory policy = .ok m) (limit : Option Nat)
    (console : Console) :
    ∃ start, m.start console = .ok start ∧
      (∀ control (s : State), s.console.Heard (m.step control s).state.console) ∧
      (∀ past s, m.Course (.watched limit) console past s → s.console.cancelled = true →
        (∀ c, ¬ m.Begins (.watched limit) c s) ∧
          ∀ fuel > 0, m.Dismissed s (m.execute (.watched limit) fuel s).outcome) ∧
      (∀ n s, m.Leads (.watched limit) n start s → s.console.cancelled = false →
        (m.step (.watched limit) s).state.console.cancelled = true → ∀ fuel > n + 1,
          m.RaisedDuring s (m.step (.watched limit) s) (m.run (.watched limit) fuel console)) ∧
      (console.cancelled = true → ∀ fuel > 0, ∃ final,
        m.run (.watched limit) fuel console =
            .ended (if 0 < m.program.size then some .cancelled
              else console.flush.2.map fun failure => .io 0 failure.message) final ∧
          final.steps = 0 ∧
          ∃ call : Call, call.isFlush ∧ final.console.calls = call :: console.calls) ∧
      (∀ fuel final, m.run (.watched limit) fuel console = .ended (some .cancelled) final →
        ∃ n s, m.Leads (.watched limit) n start s ∧ s.console.cancelled = true ∧
          s.position < m.program.size ∧ final = s.flushed) ∧
      ∀ console', console'.quiet = console.quiet → ∀ fuel,
        (m.run .free fuel console').mapConsole Console.quiet =
            (m.run .free fuel console).mapConsole Console.quiet ∧
          (m.run .free fuel console').console.calls = (m.run .free fuel console).console.calls := by
  obtain ⟨-, rfl, -, hmem⟩ := load_eq_ok hload
  obtain ⟨tape, -, hstart⟩ := exists_start hmem console
  refine ⟨_, hstart, fun control s => ?_, fun past s hc hflag => ?_,
    fun n s hl hdown hup fuel hfuel => ?_, fun hflag fuel hfuel => ?_,
    fun fuel final => leads_of_run_cancelled hstart, fun console' hsame fuel => ?_⟩
  · exact (Console.kept_heard s.console).step (.of_eq rfl rfl)
  · exact ⟨not_begins_of_cancelled hflag, fun _ => dismissed_execute hflag hc.safe.position_le⟩
  · obtain ⟨past, hc⟩ := (Course.start hstart).leads hl
    obtain ⟨rest, rfl⟩ : ∃ rest, fuel = n + rest := ⟨fuel - n, by omega⟩
    rw [run_of_start hstart, hl.execute_add]
    exact raisedDuring_execute hc hdown hup (by omega)
  · let first : State := ⟨tape, 0, 0, console⟩
    have hdismissed : m.Dismissed first (m.execute (.watched limit) fuel first).outcome :=
      dismissed_execute hflag (Nat.zero_le _) hfuel
    refine ⟨first.flushed, ?_, rfl, console.exists_flush_call⟩
    rw [run_of_start hstart, hdismissed.outcome_eq, cancelledResult]
    split
    · rfl
    · next hempty => rw [Nat.eq_zero_of_not_pos hempty]
  · have hrun : (m.run .free fuel console').mapConsole Console.quiet = _ :=
      Console.commutes_quiet.run_congr (Control.ignores_free _) trivial trivial hsame fuel
    refine ⟨hrun, ?_⟩
    simpa using congrArg (·.console.calls) hrun

/-- The flag goes up in a read that is made again after an interruption. The byte is still stored,
the command behind it is not begun, and it does not matter that the limit is reached as well. -/
theorem cancelled_while_reading :
    ∃ m, load ",." 1 .bounded = .ok m ∧ ∃ console : Console, console.cancelled = false ∧
      ∃ start, m.start console = .ok start ∧
        m.RaisedDuring start (m.step (.watched (some 1)) start)
          (m.run (.watched (some 1)) 3 console) ∧
        ∃ final, m.run (.watched (some 1)) 3 console = .ended (some .cancelled) final ∧
          final.tape.current = 65 ∧
          final.console.calls =
            [.flushed, .received 65, .readFailed ⟨true, "again"⟩, .flushed] := by
  let m : Machine := ⟨Program.parse ",.", ⟨#[none, none]⟩, 1, .bounded, rfl⟩
  have hm : load ",." 1 .bounded = .ok m := rfl
  let console : Console :=
    ⟨[.fail ⟨true, "again"⟩, .cancel, .byte 65], .closed, .scripted [] [], false, []⟩
  obtain ⟨start, hstart, -, -, hraised, -⟩ :=
    cancellation_stops_before_next_command hm (some 1) console
  refine ⟨m, hm, console, rfl, start, hstart, ?_, _, rfl, rfl, rfl⟩
  cases hstart
  exact hraised 0 _ (.refl _) rfl rfl 3 (by decide)

end Machine
end Brainfuck

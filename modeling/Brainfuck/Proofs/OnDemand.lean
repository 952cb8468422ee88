import Brainfuck.Proofs.ConsoleMaps
import Brainfuck.Proofs.Course
import Brainfuck.Proofs.Supply

/-!
# Input on demand

The values that the `,` commands of a run store are the bytes that it was given, in order, with a
zero for each time there was nothing to read. The run depends on the events that it has used up and
on no other: on any input that has them to offer it goes the same way, and leaves the rest of that
input alone. A command draws from the input what its calls draw, a step what its command draws, and
a run what its steps draw, one after the other.
-/
namespace Brainfuck
open Console

theorem Tape.current_set (t : Tape) (v : UInt8) : (t.set v).current = v := by
  rw [current_eq_cell, cell_set, pointer_set, if_pos rfl]

def Effect.waits : Effect → Bool
  | .waiting _ _ => true
  | _ => false

def Progress.waits : Progress → Bool
  | .waiting _ => true
  | _ => false

/-- The value that a command stores from the input, if it does. -/
def Command.stored (c : Command) : Effect → List UInt8
  | .done tape _ => if c = .input then [tape.current] else []
  | _ => []

theorem Command.stored_of_ne {c : Command} (h : c ≠ .input) (effect : Effect) :
    c.stored effect = [] := by
  cases effect with
  | done tape console => exact if_neg h
  | _ => rfl

/-- A read is stored as what it brought. -/
theorem Command.stored_ofRead (position : Nat) (tape : Tape) (result : Console × Reading) :
    Command.input.stored (.ofRead position tape result) = result.2.value?.toList ∧
      (Effect.ofRead position tape result).waits = result.2.waits := by
  rcases result with ⟨console, value | _ | failure | _⟩
  · exact ⟨congrArg (fun v => [v]) (tape.current_set value), rfl⟩
  · exact ⟨congrArg (fun v => [v]) (tape.current_set 0), rfl⟩
  · exact ⟨rfl, rfl⟩
  · exact ⟨rfl, rfl⟩

theorem Command.act_draws (c : Command) (position : Nat) (tape : Tape) (console : Console) :
    Draws console (c.act position tape console).console (c.stored (c.act position tape console))
      (c.act position tape console).waits fun reader readEnd rest =>
        c.act position tape (console.resupply reader readEnd) =
          (c.act position tape console).mapConsole (resupply rest readEnd) := by
  by_cases hin : c = .input
  · subst hin
    have hflush := console.flush_draws false
    simp only [act]
    rcases hf : console.flush with ⟨flushed, _ | failure⟩
    · rw [hf] at hflush
      obtain ⟨hstored, hwaits⟩ := stored_ofRead position tape flushed.take
      simp only [hstored, hwaits, Effect.console_ofRead, Effect.mapConsole_ofRead]
      refine hflush.trans flushed.take_draws fun reader readEnd mid rest hfirst hlast => ?_
      rw [hfirst]
      simp only [hlast]
    · rw [hf] at hflush
      refine hflush.mono fun reader readEnd rest hfirst => ?_
      rw [hfirst]
      rfl
  · rw [stored_of_ne hin]
    cases c with
    | input => exact absurd rfl hin
    | output =>
      have hput := console.put_draws tape.current false
      simp only [act]
      rcases hp : console.put tape.current with ⟨console', _ | failure⟩
      · rw [hp] at hput
        refine hput.mono fun reader readEnd rest hfirst => ?_
        rw [hfirst]
        rfl
      · rw [hp] at hput
        refine hput.mono fun reader readEnd rest hfirst => ?_
        rw [hfirst]
        rfl
    | right =>
      simp only [act, Effect.console_ofMove, Effect.mapConsole_ofMove]
      exact .nothing rfl rfl rfl fun _ _ => rfl
    | left =>
      simp only [act, Effect.console_ofMove, Effect.mapConsole_ofMove]
      exact .nothing rfl rfl rfl fun _ _ => rfl
    | _ => exact .nothing rfl rfl rfl fun _ _ => rfl

namespace Machine
open Supervision

variable {m : Machine} {control : Control} {console : Console} {past : List State} {s t : State}

/-- The value that is stored from the input on the way from a state to the next one. -/
def entry (m : Machine) (s t : State) : List UInt8 :=
  if m.program.command? s.position = some .input then [t.tape.current] else []

/-- The values that a run has stored from its input up to the present state. -/
def stored (m : Machine) : (past : List State) → State → List UInt8
  | [], _ => []
  | s :: past, t => m.stored past s ++ m.entry s t

/-- The values that a run stores from its input for as long as there is fuel. -/
def storedDuring (m : Machine) (control : Control) : Nat → State → List UInt8
  | 0, _ => []
  | fuel + 1, s =>
    match m.step control s with
    | .next t => m.entry s t ++ storedDuring m control fuel t
    | _ => []

/-- The value that a step stores from the input, if it does. -/
def entered (m : Machine) (s : State) : Progress → List UInt8
  | .next t => m.entry s t
  | _ => []

theorem entered_afterEffect {c : Command} (found : m.program.command? s.position = some c)
    (effect : Effect) :
    m.entered s (afterEffect s.position s.steps effect) = c.stored effect := by
  cases effect with
  | done tape console => simp [afterEffect, entered, entry, Command.stored, found]
  | _ => rfl

theorem console_afterEffect (position steps : Nat) (effect : Effect) :
    (afterEffect position steps effect).state.console = effect.console := by
  cases effect <;> rfl

theorem waits_afterEffect (position steps : Nat) (effect : Effect) :
    (afterEffect position steps effect).waits = effect.waits := by
  cases effect <;> rfl

theorem mapConsole_afterEffect (f : Console → Console) (position steps : Nat) (effect : Effect) :
    (afterEffect position steps effect).mapConsole f =
      afterEffect position steps (effect.mapConsole f) := by
  cases effect <;> rfl

theorem entry_eq_nil {c : Command} (found : m.program.command? s.position = some c)
    (h : c ≠ .input) : m.entry s t = [] :=
  if_neg fun hin => h (Option.some.inj (found.symm.trans hin))

theorem step_of_objection {c : Command} {fault : Fault}
    (hc : m.program.command? s.position = some c) (ho : control.objection? s = some fault) :
    m.step control s = .failed fault s := by
  simp [step, hc, ho]

/-- A step draws from the input what its command draws there. -/
theorem step_draws (m : Machine) (control : Control) (s : State) :
    Draws s.console (m.step control s).state.console (m.entered s (m.step control s))
      (m.step control s).waits fun reader readEnd rest =>
        m.step control (s.mapConsole (resupply reader readEnd)) =
          (m.step control s).mapConsole (resupply rest readEnd) := by
  have hflag (reader : List ReadEvent) (readEnd : ReadEnd) :
      control.objection? (s.mapConsole (resupply reader readEnd)) = control.objection? s :=
    control.ignores_of_cancelled_eq (f := resupply reader readEnd) (fun _ => rfl) s
  cases hc : m.program.command? s.position with
  | none =>
    rw [step_of_end hc]
    exact .nothing rfl rfl rfl fun _ _ => step_of_end hc
  | some c =>
    cases ho : control.objection? s with
    | some fault =>
      rw [step_of_objection hc ho]
      exact .nothing rfl rfl rfl fun _ _ => step_of_objection hc ((hflag _ _).trans ho)
    | none =>
      cases hb : c.isBracket with
      | false =>
        rw [step_eq_perform hc ho, perform_plain hb, entered_afterEffect hc, console_afterEffect,
          waits_afterEffect]
        refine (c.act_draws s.position s.tape s.console).mono fun reader readEnd rest hact => ?_
        rw [step_eq_perform (s := s.mapConsole _) hc ((hflag _ _).trans ho), perform_plain hb,
          mapConsole_afterEffect, ← hact]
        rfl
      | true =>
        obtain ⟨target, ht, -⟩ := exists_partner hc hb
        rcases Pairing.isBracket_iff.mp hb with rfl | rfl
        · rw [step_eq_perform hc ho, perform_loopStart ht, entered, entry_eq_nil hc nofun]
          refine .nothing rfl rfl rfl fun reader readEnd => ?_
          rw [step_eq_perform (s := s.mapConsole _) hc ((hflag _ _).trans ho),
            perform_loopStart (s := s.mapConsole _) ht]
          rfl
        · rw [step_eq_perform hc ho, perform_loopEnd ht, entered, entry_eq_nil hc nofun]
          refine .nothing rfl rfl rfl fun reader readEnd => ?_
          rw [step_eq_perform (s := s.mapConsole _) hc ((hflag _ _).trans ho),
            perform_loopEnd (s := s.mapConsole _) ht]
          rfl

section Runs

def Stop.waits : Stop → Bool
  | .waiting _ => true
  | _ => false

def Outcome.waits : Outcome → Bool
  | .waiting _ => true
  | _ => false

theorem execute_draws (m : Machine) (control : Control) (fuel : Nat) (s : State) :
    Draws s.console (m.execute control fuel s).state.console (m.storedDuring control fuel s)
      (m.execute control fuel s).waits fun reader readEnd rest =>
        m.execute control fuel (s.mapConsole (resupply reader readEnd)) =
          (m.execute control fuel s).mapConsole (resupply rest readEnd) := by
  induction fuel generalizing s with
  | zero => exact .nothing rfl rfl rfl fun _ _ => rfl
  | succ fuel ih =>
    have hstep := m.step_draws control s
    rw [execute, storedDuring]
    cases hs : m.step control s with
    | next t =>
      rw [hs] at hstep
      refine hstep.trans (ih t) fun reader readEnd mid rest hfirst hlast => ?_
      rw [execute, hfirst]
      exact hlast
    | halted t | failed fault t | waiting t =>
      rw [hs] at hstep
      refine hstep.mono fun reader readEnd rest hfirst => ?_
      rw [execute, hfirst]
      rfl

/-- The last flush draws nothing. -/
theorem finish_draws (fault : Option Fault) (t : State) :
    Draws t.console (finish fault t).2.console [] false fun reader readEnd rest =>
      finish fault (t.mapConsole (resupply reader readEnd)) =
        ((finish fault t).1, (finish fault t).2.mapConsole (resupply rest readEnd)) := by
  refine (t.console.flush_draws false).mono fun reader readEnd rest hflush => ?_
  simp only [finish, State.mapConsole, hflush]

theorem start_resupply (m : Machine) (console : Console) (reader : List ReadEvent)
    (readEnd : ReadEnd) (h : m.start console = .ok s) :
    m.start (console.resupply reader readEnd) = .ok (s.mapConsole (resupply reader readEnd)) := by
  unfold start at h ⊢
  cases hblank : Tape.blank m.memory m.policy with
  | error obstacle =>
    rw [hblank] at h
    exact nomatch h
  | ok tape =>
    rw [hblank] at h
    cases h
    rfl

theorem run_draws (m : Machine) (control : Control) (fuel : Nat) (h : m.start console = .ok s) :
    Draws console (m.run control fuel console).console (m.storedDuring control fuel s)
      (m.run control fuel console).waits fun reader readEnd rest =>
        m.run control fuel (console.resupply reader readEnd) =
          (m.run control fuel console).mapConsole (resupply rest readEnd) := by
  have hexec := m.execute_draws control fuel s
  rw [(start_eq_ok h).2.2] at hexec
  rw [run_of_start h]
  cases hx : m.execute control fuel s with
  | ended fault t =>
    rw [hx] at hexec
    rw [← List.append_nil (m.storedDuring control fuel s)]
    refine hexec.trans (finish_draws fault t) fun reader readEnd mid rest hfirst hlast => ?_
    rw [run_of_start (m.start_resupply console reader readEnd h), hfirst]
    simp only [Stop.mapConsole, Stop.outcome, hlast]
    rfl
  | waiting t | running t =>
    rw [hx] at hexec
    refine hexec.mono fun reader readEnd rest hfirst => ?_
    rw [run_of_start (m.start_resupply console reader readEnd h), hfirst]
    rfl

end Runs

section Courses

/-- A state without the input that is still to come. -/
def inputless (s : State) : State := s.mapConsole (resupply [] .closed)

theorem stored_notice (m : Machine) (past : List State) (raised : Bool) (s : State) :
    m.stored past (Worker.notice raised s) = m.stored past s := by
  cases past <;> rfl

theorem Course.draws (h : m.Course control console past s) :
    Draws console s.console (m.stored past s) false fun reader readEnd rest =>
      ∃ past', m.Course control (console.resupply reader readEnd) past'
          (s.mapConsole (resupply rest readEnd)) ∧
        past'.map inputless = past.map inputless := by
  induction h with
  | @start s h =>
    obtain ⟨-, -, rfl⟩ := start_eq_ok h
    exact .nothing rfl rfl rfl fun reader readEnd =>
      ⟨[], .start (m.start_resupply _ reader readEnd h), rfl⟩
  | @flag past s raised _ ih =>
    obtain ⟨events, hs, hend, hvalues, hreads, helse⟩ := ih
    refine .intro events hs hend ((stored_notice ..).trans hvalues) hreads
      fun reader readEnd rest hmore hwaits => ?_
    obtain ⟨past', hc, hpast⟩ := helse reader readEnd rest hmore hwaits
    exact ⟨past', .flag raised hc, hpast⟩
  | @step past s t _ hs ih =>
    have hstep := m.step_draws control s
    rw [hs] at hstep
    refine ih.trans hstep fun reader readEnd mid rest ⟨past', hc, hpast⟩ hlast => ?_
    refine ⟨_ :: past', .step hc hlast, ?_⟩
    rw [List.map_cons, List.map_cons, hpast]
    rfl

theorem Stops.draws {fault : Option Fault} (h : m.Stops control s fault t) :
    Draws s.console t.console [] false fun reader readEnd rest =>
      m.Stops control (s.mapConsole (resupply reader readEnd)) fault
        (t.mapConsole (resupply rest readEnd)) := by
  have hstep := m.step_draws control s
  cases h with
  | halted h =>
    rw [h] at hstep
    exact hstep.mono fun _ _ _ hsame => .halted hsame
  | failed h =>
    rw [h] at hstep
    exact hstep.mono fun _ _ _ hsame => .failed hsame

theorem Ends.draws {result : Option Fault} {final : State}
    (h : m.Ends control console past s result final) :
    Draws console final.console (m.stored past s) false fun reader readEnd rest =>
      ∃ past' s', m.Ends control (console.resupply reader readEnd) past' s' result
          (final.mapConsole (resupply rest readEnd)) ∧
        past'.map inputless = past.map inputless ∧ inputless s' = inputless s := by
  obtain ⟨fault, t, hc, hs, hf⟩ := h
  have hlast : Draws s.console final.console [] false fun reader readEnd rest =>
      ∃ t', m.Stops control (s.mapConsole (resupply reader readEnd)) fault t' ∧
        finish fault t' = (result, final.mapConsole (resupply rest readEnd)) := by
    have hfinish := finish_draws fault t
    rw [hf] at hfinish
    exact hs.draws.trans hfinish fun _ _ _ _ hstops hflush => ⟨_, hstops, hflush⟩
  rw [← List.append_nil (m.stored past s)]
  refine hc.draws.trans hlast ?_
  rintro reader readEnd mid rest ⟨past', hc', hpast⟩ ⟨t', hs', hf'⟩
  exact ⟨past', _, ⟨fault, t', hc', hs', hf'⟩, hpast, rfl⟩

end Courses

/-- Input is used on demand. The values that the `,` commands of a run store are the bytes that the
events of its input bring, in order and one for each command, and every read that is made is
answered by the next event. On any input that has these events to offer the run is the same, with
the same calls, and the rest of that input is left. This holds for every amount of fuel, and at
every moment and at the end of a run in which others raise the stop flag. -/
theorem input_on_demand {source : String} {memory : Nat} {policy : Policy} {m : Machine}
    (hload : load source memory policy = .ok m) (control : Control) (console : Console) :
    ∃ start, m.start console = .ok start ∧
      (∀ fuel, Draws console (m.run control fuel console).console
        (m.storedDuring control fuel start) (m.run control fuel console).waits
        fun reader readEnd rest =>
          m.run control fuel (console.resupply reader readEnd) =
            (m.run control fuel console).mapConsole (resupply rest readEnd)) ∧
      (∀ past s, m.Course control console past s →
        Draws console s.console (m.stored past s) false fun reader readEnd rest =>
          ∃ past', m.Course control (console.resupply reader readEnd) past'
              (s.mapConsole (resupply rest readEnd)) ∧
            past'.map inputless = past.map inputless) ∧
      ∀ past s result final, m.Ends control console past s result final →
        Draws console final.console (m.stored past s) false fun reader readEnd rest =>
          ∃ past' s', m.Ends control (console.resupply reader readEnd) past' s' result
              (final.mapConsole (resupply rest readEnd)) ∧
            past'.map inputless = past.map inputless ∧ inputless s' = inputless s := by
  obtain ⟨-, rfl, -, hmem⟩ := load_eq_ok hload
  obtain ⟨tape, -, hstart⟩ := exists_start hmem console
  exact ⟨_, hstart, fun fuel => m.run_draws control fuel hstart, fun _ _ hc => hc.draws,
    fun _ _ _ _ he => he.draws⟩

/-- Three reads, with nothing to read for the second one. What is left in the end can be exchanged
for anything else. -/
theorem echo_leaves_unread_input :
    ∃ m start final, load ",.,.,." 1 .bounded = .ok m ∧
      m.start (.ofInput [.byte 65, .nothing, .byte 66, .byte 67] .closed) = .ok start ∧
      m.storedDuring .free 7 start = [65, 0, 66] ∧
      m.run .free 7 (.ofInput [.byte 65, .nothing, .byte 66, .byte 67] .closed) =
        .ended none final ∧
      final.console.reader = [.byte 67] ∧
      m.run .free 7 (.ofInput [.byte 65, .nothing, .byte 66, .cancel, .nothing] .waiting) =
        .ended none (final.mapConsole (resupply [.cancel, .nothing] .waiting)) := by
  let m : Machine :=
    ⟨Program.parse ",.,.,.", ⟨#[none, none, none, none, none, none]⟩, 1, .bounded, rfl⟩
  have hm : load ",.,.,." 1 .bounded = .ok m := rfl
  obtain ⟨start, hstart, hrun, -, -⟩ := input_on_demand hm .free
    (.ofInput [.byte 65, .nothing, .byte 66, .byte 67] .closed)
  obtain ⟨events, hs, -, -, -, helse⟩ := hrun 7
  have hfront : [.byte 65, .nothing, .byte 66] ++ [.byte 67] = events ++ [.byte 67] :=
    hs.eq_append (List.cons_ne_nil _ _)
  obtain rfl := List.append_cancel_right hfront
  cases hstart
  refine ⟨m, _, _, hm, rfl, rfl, rfl, rfl, ?_⟩
  exact helse _ .waiting _
    (.of_append .waiting [.byte 65, .nothing, .byte 66] [.cancel, .nothing]) nofun

end Machine
end Brainfuck

import Brainfuck.Proofs.Stepping

/-!
# What a command calls

The console remembers its calls, and nothing is ever taken back from this record. A write is
tried until it is no longer interrupted and puts out its byte at most once, a flush is one call,
and a read adds reads only. So the calls of a command are told by its character: `.` writes, `,`
flushes and then reads, and the others make no call.
-/
namespace Brainfuck
namespace Call

/-- A write that puts out nothing. -/
def isVainWrite : Call → Bool
  | .wroteNothing | .writeFailed _ => true
  | _ => false

theorem isVainWrite_elim {call : Call} (h : call.isVainWrite) :
    call.byte? = none ∧ call.isFlush = false ∧ call.isRead = false := by
  cases call with
  | wroteNothing => exact ⟨rfl, rfl, rfl⟩
  | writeFailed failure => exact ⟨rfl, rfl, rfl⟩
  | _ => exact nomatch h

theorem isRead_elim {call : Call} (h : call.isRead) :
    call.byte? = none ∧ call.isFlush = false := by
  cases call with
  | received value => exact ⟨rfl, rfl⟩
  | receivedNothing => exact ⟨rfl, rfl⟩
  | readFailed failure => exact ⟨rfl, rfl⟩
  | _ => exact nomatch h

theorem isFlush_elim {call : Call} (h : call.isFlush) :
    call.byte? = none ∧ call.isRead = false := by
  cases call with
  | flushed => exact ⟨rfl, rfl⟩
  | flushFailed failure => exact ⟨rfl, rfl⟩
  | _ => exact nomatch h

end Call

namespace Console

/-- The ways in which a write can go, with the tries that put out nothing. -/
inductive PutView (c : Console) (byte : UInt8) : Console × Option Failure → Prop where
  | accepted {c' : Console} (tries : List Call) (vain : ∀ call ∈ tries, call.isVainWrite)
      (calls : c'.calls = .wrote byte :: (tries ++ c.calls)) : PutView c byte (c', none)
  | failed {c' : Console} {failure : Failure} (tries : List Call)
      (vain : ∀ call ∈ tries, call.isVainWrite) (calls : c'.calls = tries ++ c.calls) :
      PutView c byte (c', some failure)

/-- A write that was interrupted and then made again. -/
theorem PutView.of_retry {c : Console} {byte : UInt8} {failure : Failure}
    {result : Console × Option Failure}
    (h : PutView { c with calls := .writeFailed failure :: c.calls } byte result) :
    PutView c byte result := by
  have more {tries : List Call} (vain : ∀ call ∈ tries, call.isVainWrite) :
      ∀ call ∈ tries ++ [.writeFailed failure], call.isVainWrite := by
    intro call hmem
    rcases List.mem_append.mp hmem with hmem | hmem
    · exact vain call hmem
    · rw [List.mem_singleton.mp hmem]
      rfl
  cases h with
  | accepted tries vain calls => exact .accepted _ (more vain) (by simp [calls])
  | failed tries vain calls => exact .failed _ (more vain) (by simp [calls])

/-- Of the console before a write only the calls are told. -/
theorem PutView.of_calls_eq {c c' : Console} {byte : UInt8} {result : Console × Option Failure}
    (h : PutView c' byte result) (hcalls : c'.calls = c.calls) : PutView c byte result := by
  cases h with
  | accepted tries vain calls => exact .accepted tries vain (hcalls ▸ calls)
  | failed tries vain calls => exact .failed tries vain (hcalls ▸ calls)

theorem putScripted_view (byte : UInt8) (flushes : List FlushEvent) (writes : List WriteEvent)
    (c : Console) : PutView c byte (putScripted byte flushes writes c) := by
  induction writes generalizing c with
  | nil => exact .accepted [] nofun rfl
  | cons event rest ih =>
    cases event with
    | accept => exact .accepted [] nofun rfl
    | acceptNothing => exact .failed [.wroteNothing] (List.forall_mem_singleton.mpr rfl) rfl
    | cancel => exact .accepted [] nofun rfl
    | raise => exact (ih _).of_calls_eq rfl
    | fail failure =>
      rw [putScripted]
      split
      · exact (ih _).of_retry
      · exact .failed [.writeFailed failure] (List.forall_mem_singleton.mpr rfl) rfl

theorem put_view (c : Console) (byte : UInt8) : PutView c byte (c.put byte) := by
  unfold put
  split
  · exact putScripted_view byte _ _ c
  · split
    · exact .accepted [] nofun rfl
    · exact .failed [.writeFailed _] (List.forall_mem_singleton.mpr rfl) rfl

/-- The ways in which a flush can go. -/
inductive FlushView (c : Console) : Console × Option Failure → Prop where
  | succeeded {c' : Console} (calls : c'.calls = .flushed :: c.calls) : FlushView c (c', none)
  | failed {c' : Console} {failure : Failure}
      (calls : c'.calls = .flushFailed failure :: c.calls) : FlushView c (c', some failure)

theorem flush_view (c : Console) : FlushView c c.flush := by
  unfold flush
  split
  · exact .succeeded rfl
  · exact .succeeded rfl
  · exact .succeeded rfl
  · exact .failed rfl
  · exact .failed rfl
  · split
    · exact .succeeded rfl
    · exact .failed rfl

/-- A flush is one call, whether it succeeds or not. -/
theorem exists_flush_call (c : Console) :
    ∃ call : Call, call.isFlush ∧ c.flush.1.calls = call :: c.calls := by
  have hv := c.flush_view
  cases hf : c.flush with
  | mk c' failure =>
    rw [hf] at hv
    cases hv with
    | succeeded calls => exact ⟨_, rfl, calls⟩
    | failed calls => exact ⟨_, rfl, calls⟩

/-- A flush puts out no byte of its own. -/
theorem output_flush (c : Console) : c.flush.1.output = c.output := by
  obtain ⟨call, hcall, hcalls⟩ := c.exists_flush_call
  rw [output, hcalls, List.filterMap_cons_none (Call.isFlush_elim hcall).1]
  rfl

theorem takeFrom_calls (events : List ReadEvent) (c : Console) :
    ∃ reads : List Call, (∀ call ∈ reads, call.isRead) ∧
      (takeFrom events c).1.calls = reads ++ c.calls := by
  induction events generalizing c with
  | nil =>
    unfold takeFrom
    split
    · exact ⟨[.receivedNothing], List.forall_mem_singleton.mpr rfl, rfl⟩
    · exact ⟨[.readFailed _], List.forall_mem_singleton.mpr rfl, rfl⟩
    · exact ⟨[], nofun, rfl⟩
  | cons event rest ih =>
    cases event with
    | byte value => exact ⟨[.received value], List.forall_mem_singleton.mpr rfl, rfl⟩
    | nothing => exact ⟨[.receivedNothing], List.forall_mem_singleton.mpr rfl, rfl⟩
    | cancel => exact ih _
    | fail failure =>
      rw [takeFrom]
      split
      · obtain ⟨reads, hreads, hcalls⟩ := ih { c with calls := .readFailed failure :: c.calls }
        refine ⟨reads ++ [.readFailed failure], ?_, by simp [hcalls]⟩
        intro call hmem
        rcases List.mem_append.mp hmem with hmem | hmem
        · exact hreads call hmem
        · rw [List.mem_singleton.mp hmem]
          rfl
      · exact ⟨[.readFailed failure], List.forall_mem_singleton.mpr rfl, rfl⟩

/-- A read adds reads only. -/
theorem take_calls (c : Console) :
    ∃ reads : List Call, (∀ call ∈ reads, call.isRead) ∧ c.take.1.calls = reads ++ c.calls :=
  takeFrom_calls c.reader c

/-- Nor does a read put out a byte. -/
theorem output_take (c : Console) : c.take.1.output = c.output := by
  obtain ⟨reads, hreads, hcalls⟩ := c.take_calls
  have hnone : reads.filterMap Call.byte? = [] :=
    List.filterMap_eq_nil_iff.mpr fun call hmem => (Call.isRead_elim (hreads call hmem)).1
  rw [output, hcalls, List.filterMap_append, hnone]
  rfl

end Console

namespace Effect

def console : Effect → Console
  | .done _ console | .failed _ _ console | .waiting _ console => console

theorem console_ofMove (position : Nat) (console : Console) (move : Tape × Option Tape.Obstacle) :
    (ofMove position console move).console = console := by
  rcases move with ⟨tape, _ | obstacle⟩ <;> rfl

theorem console_ofRead (position : Nat) (tape : Tape) (result : Console × Reading) :
    (ofRead position tape result).console = result.1 := by
  rcases result with ⟨console, value | _ | failure | _⟩ <;> rfl

variable {position : Nat} {tape tape' : Tape} {console console' : Console}

theorem ofMove_ne_waiting (move : Tape × Option Tape.Obstacle) :
    ofMove position console move ≠ .waiting tape' console' := by
  rcases move with ⟨moved, _ | obstacle⟩ <;> exact nofun

theorem ofWrite_ne_waiting (result : Console × Option Failure) :
    ofWrite position tape result ≠ .waiting tape' console' := by
  rcases result with ⟨written, _ | failure⟩ <;> exact nofun

theorem reading_of_ofRead_waiting {result : Console × Reading}
    (h : ofRead position tape result = .waiting tape' console') : result.2 = .waiting := by
  rcases result with ⟨taken, value | _ | failure | _⟩
  · exact nomatch h
  · exact nomatch h
  · exact nomatch h
  · rfl

end Effect

namespace Command

/-- Only a read waits. -/
theorem eq_input_of_act_waiting {c : Command} {position : Nat} {tape tape' : Tape}
    {console console' : Console} (h : c.act position tape console = .waiting tape' console') :
    c = .input := by
  cases c with
  | right => exact absurd h (Effect.ofMove_ne_waiting _)
  | left => exact absurd h (Effect.ofMove_ne_waiting _)
  | output => exact absurd h (Effect.ofWrite_ne_waiting _)
  | input => rfl
  | _ => exact nomatch h

/-- The calls that a command makes, told by its character. -/
inductive CallsView (c : Command) (position : Nat) (tape : Tape) (console : Console) :
    Effect → Prop where
  | silent {effect : Effect} (notOutput : c ≠ .output) (notInput : c ≠ .input)
      (same : effect.console = console) : CallsView c position tape console effect
  | printed {console' : Console} (command : c = .output) (tries : List Call)
      (vain : ∀ call ∈ tries, call.isVainWrite)
      (calls : console'.calls = .wrote tape.current :: (tries ++ console.calls)) :
      CallsView c position tape console (.done tape console')
  | unprinted {fault : Fault} {console' : Console} (command : c = .output) (tries : List Call)
      (vain : ∀ call ∈ tries, call.isVainWrite) (calls : console'.calls = tries ++ console.calls) :
      CallsView c position tape console (.failed fault tape console')
  | unflushed {failure : Failure} {console' : Console} (command : c = .input)
      (flush : console.flush = (console', some failure))
      (calls : console'.calls = .flushFailed failure :: console.calls) :
      CallsView c position tape console (.failed (.io position failure.message) tape console')
  | read {effect : Effect} (command : c = .input) (reads : List Call)
      (onlyReads : ∀ call ∈ reads, call.isRead)
      (calls : effect.console.calls = reads ++ .flushed :: console.calls) :
      CallsView c position tape console effect

theorem act_callsView (c : Command) (position : Nat) (tape : Tape) (console : Console) :
    CallsView c position tape console (c.act position tape console) := by
  cases c with
  | right => exact .silent nofun nofun (Effect.console_ofMove ..)
  | left => exact .silent nofun nofun (Effect.console_ofMove ..)
  | increment => exact .silent nofun nofun rfl
  | decrement => exact .silent nofun nofun rfl
  | output =>
    have hv := console.put_view tape.current
    simp only [act]
    cases hp : console.put tape.current with
    | mk console' failure =>
      rw [hp] at hv
      cases hv with
      | accepted tries vain calls => exact .printed rfl tries vain calls
      | failed tries vain calls => exact .unprinted rfl tries vain calls
  | input =>
    have hv := console.flush_view
    simp only [act]
    cases hf : console.flush with
    | mk console' failure =>
      rw [hf] at hv
      cases hv with
      | succeeded calls =>
        obtain ⟨reads, hreads, hcalls⟩ := console'.take_calls
        exact .read rfl reads hreads (by rw [Effect.console_ofRead, hcalls, calls])
      | failed calls => exact .unflushed rfl hf calls
  | loopStart => exact .silent nofun nofun rfl
  | loopEnd => exact .silent nofun nofun rfl

end Command

/-- A property of consoles that no call breaks. -/
structure Console.Kept (P : Console → Prop) : Prop where
  put : ∀ c byte, P c → P (c.put byte).1
  flush : ∀ c, P c → P c.flush.1
  take : ∀ c, P c → P c.take.1

def Progress.state : Progress → State
  | .next s | .halted s | .failed _ s | .waiting s => s

namespace Machine

def Stop.state : Stop → State
  | .ended _ s | .waiting s | .running s => s

def Outcome.console : Outcome → Console
  | .refused _ console => console
  | .ended _ s | .waiting s | .running s => s.console

end Machine

namespace Console.Kept
open Machine

variable {P : Console → Prop} {m : Machine} {control : Control} {console : Console}

theorem act (hP : Kept P) {c : Command} {position : Nat} {tape : Tape} (h : P console) :
    P (c.act position tape console).console := by
  cases c with
  | right => exact (Effect.console_ofMove position console tape.moveRight).symm ▸ h
  | left => exact (Effect.console_ofMove position console tape.moveLeft).symm ▸ h
  | output =>
    have hput := hP.put console tape.current h
    simp only [Command.act]
    rcases hp : console.put tape.current with ⟨console', _ | failure⟩
    · rw [hp] at hput
      exact hput
    · rw [hp] at hput
      exact hput
  | input =>
    have hflush := hP.flush console h
    simp only [Command.act]
    rcases hf : console.flush with ⟨console', _ | failure⟩
    · rw [hf] at hflush
      exact (Effect.console_ofRead position tape console'.take).symm ▸ hP.take console' hflush
    · rw [hf] at hflush
      exact hflush
  | _ => exact h

theorem step (hP : Kept P) {s : State} (h : P s.console) :
    P (m.step control s).state.console := by
  have hv := m.step_view control s
  generalize m.step control s = progress at hv ⊢
  cases hv with
  | done _ _ _ act => exact (congrArg (P ·.console) act).mp (hP.act h)
  | failed _ _ _ act => exact (congrArg (P ·.console) act).mp (hP.act h)
  | waiting _ _ _ act => exact (congrArg (P ·.console) act).mp (hP.act h)
  | _ => exact h

theorem execute (hP : Kept P) {s : State} (h : P s.console) (fuel : Nat) :
    P (m.execute control fuel s).state.console := by
  induction fuel generalizing s with
  | zero => exact h
  | succ fuel ih =>
    have hstep : P (m.step control s).state.console := hP.step h
    rw [Machine.execute]
    cases hs : m.step control s with
    | next t =>
      rw [hs] at hstep
      exact ih hstep
    | halted t | failed fault t | waiting t =>
      rw [hs] at hstep
      exact hstep

theorem leads (hP : Kept P) {n : Nat} {s t : State} (hl : m.Leads control n s t)
    (h : P s.console) : P t.console := by
  have hrun : P (m.execute control n s).state.console := hP.execute h n
  rwa [hl.execute_eq] at hrun

/-- The last flush is a call like any other. -/
theorem outcome (hP : Kept P) {x : Stop} (h : P x.state.console) : P x.outcome.console := by
  cases x with
  | ended fault s => exact hP.flush _ h
  | waiting s => exact h
  | running s => exact h

end Console.Kept

namespace Console

/-- No call is ever taken back. -/
theorem kept_calls (past : List Call) : Kept (past <:+ ·.calls) where
  put c byte h := by
    have hv := c.put_view byte
    generalize c.put byte = result at hv ⊢
    cases hv with
    | accepted tries _ calls =>
      rw [calls]
      exact h.trans ⟨.wrote byte :: tries, rfl⟩
    | failed tries _ calls =>
      rw [calls]
      exact h.trans (List.suffix_append tries c.calls)
  flush c h := by
    obtain ⟨call, -, hcalls⟩ := c.exists_flush_call
    rw [hcalls]
    exact h.trans (List.suffix_cons call c.calls)
  take c h := by
    obtain ⟨reads, -, hcalls⟩ := c.take_calls
    rw [hcalls]
    exact h.trans (List.suffix_append reads c.calls)

theorem output_prefix {c c' : Console} (h : c.calls <:+ c'.calls) : c.output <+: c'.output :=
  List.reverse_prefix.mpr (h.filterMap Call.byte?)

end Console
end Brainfuck

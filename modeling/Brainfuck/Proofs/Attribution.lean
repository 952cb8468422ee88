import Brainfuck.Proofs.Cancellation
import Brainfuck.Supervision

/-!
# Verdicts and their causes

Worker, supervisor and signal handler take turns in any order. The handler raises the flag of the
interruption before it asks the worker to stop, and the supervisor asks it to stop only when it has
given up waiting. So a worker that is cancelled while somebody still waits for it was cancelled by
Ctrl+C, and every ending says what really happened: the result that the worker came to, a signal
that was sent, or a time limit that had passed.
-/
namespace Brainfuck
open Supervision

/-- What a worker of a job can come to: it has no tape to run on, or its run ends. -/
inductive Job.Returns (job : Job) (console : Console) : Option Fault → Prop where
  | refused {fault : Fault} (start : job.machine.start console = .error fault) :
      Returns job console (some fault)
  | ended {past : List State} {s final : State} {result : Option Fault}
      (ends : job.machine.Ends (.watched job.stepLimit) console past s result final) :
      Returns job console result

/-- The ending that is due to a time limit of so many milliseconds. -/
def Ending.timeout (ms : Nat) : Ending :=
  ⟨6, "Execution aborted: wall-clock timeout exceeded (" ++ toString ms ++ " ms)\n"⟩

namespace Supervision

variable {job : Job} {console : Console} {scene scene' : Scene} {event : Event}

/-- The scene in which a job begins. A worker without a tape has its result at once. -/
def Scene.opening (job : Job) (console : Console) : Scene :=
  match job.machine.start console with
  | .ok s => .start s
  | .error fault => ⟨.reported (some fault), .waiting, false, false, 0, false, false⟩

/-- The supervisor still waits for a result. -/
def Supervisor.Watches : Supervisor → Prop
  | .waiting | .checkingInterrupt | .checkingDeadline => True
  | .decided _ | .exited _ => False

/-- A worker is on the course of a run, or has come to its result. -/
def Worker.Genuine (job : Job) (console : Console) : Worker → Prop
  | .executing s => ∃ past, job.machine.Course (.watched job.stepLimit) console past s
  | .reported result => job.Returns console result
  | .dismissed => True

/-- A verdict that is true of a scene. -/
inductive Justified (job : Job) (console : Console) (scene : Scene) : Verdict → Prop where
  | finished {result : Option Fault} (returned : job.Returns console result)
      (raised : result = some .cancelled → scene.interrupted = true) :
      Justified job console scene (.finished result)
  | interrupted (raised : scene.interrupted = true) : Justified job console scene .interrupted
  | timedOut (elapsed : scene.expired = true) : Justified job console scene .timedOut

/-- An ending with its cause in a scene. -/
inductive Attributed (job : Job) (console : Console) (scene : Scene) : Ending → Prop where
  | success (returned : job.Returns console none) : Attributed job console scene ⟨0, ""⟩
  | fault {fault : Fault} (returned : job.Returns console (some fault))
      (own : fault ≠ .cancelled) : Attributed job console scene (job.faultEnding fault)
  | interrupted (sent : scene.signalled = true) :
      Attributed job console scene Job.interruptEnding
  | timedOut {ms : Nat} (limit : job.timeout = some ms) (elapsed : scene.expired = true) :
      Attributed job console scene (.timeout ms)

/-- What the supervisor has settled on is true of the scene. -/
def Supervisor.Truthful (job : Job) (console : Console) (scene : Scene) : Supervisor → Prop
  | .decided verdict => Justified job console scene verdict
  | .exited ending => Attributed job console scene ending
  | .waiting | .checkingInterrupt | .checkingDeadline => True

/-- What holds of all scenes of a job. -/
structure Coherent (job : Job) (console : Console) (scene : Scene) : Prop where
  sent : scene.interrupted = true → scene.signalled = true
  /-- The handler raises the flag of the interruption first. -/
  noted : 0 < scene.handling → scene.interrupted = true
  limited : scene.expired = true → job.timeout.isSome
  /-- As long as there is a wait, nobody but the handler asks the worker to stop. -/
  asked : scene.supervisor.Watches → scene.cancel = true → scene.interrupted = true
  genuine : scene.worker.Genuine job console
  cancelled : scene.supervisor.Watches → scene.worker = .reported (some .cancelled) →
    scene.interrupted = true
  truthful : scene.supervisor.Truthful job console scene

theorem Coherent.returned {result : Option Fault} (h : Coherent job console scene)
    (hreported : scene.worker = .reported result) : job.Returns console result := by
  have hgenuine := h.genuine
  rw [hreported] at hgenuine
  exact hgenuine

/-- A cancellation that can still be received was caused by a signal. -/
theorem Coherent.raised {result : Option Fault} (h : Coherent job console scene)
    (hwaiting : scene.supervisor = .waiting) (hreported : scene.worker = .reported result)
    (hcancelled : result = some .cancelled) : scene.interrupted = true :=
  h.cancelled (hwaiting ▸ trivial) (hcancelled ▸ hreported)

/-- A worker makes a step under the flag as it is, or its run stops there and is flushed. -/
theorem Worker.advance_cases {cancel : Bool} {s : State} {worker : Worker}
    (h : Worker.advance job cancel s = some worker) :
    (∃ t, job.machine.step (.watched job.stepLimit) (notice cancel s) = .next t ∧
      worker = .executing t) ∨
    ∃ fault t, job.machine.Stops (.watched job.stepLimit) (notice cancel s) fault t ∧
      worker = .reported (Machine.finish fault t).1 := by
  unfold Worker.advance at h
  split at h
  · next t hs => exact .inl ⟨t, hs, (Option.some.inj h).symm⟩
  · next t hs => exact .inr ⟨none, t, .halted hs, (Option.some.inj h).symm⟩
  · next fault t hs => exact .inr ⟨some fault, t, .failed hs, (Option.some.inj h).symm⟩
  · exact nomatch h

/-- A worker stays genuine, and it is cancelled only if it was asked to stop. -/
theorem Worker.Genuine.advance {cancel : Bool} {s : State} {worker : Worker}
    (h : (Worker.executing s).Genuine job console)
    (hadvance : Worker.advance job cancel s = some worker) :
    worker.Genuine job console ∧ (worker = .reported (some .cancelled) → cancel = true) := by
  obtain ⟨past, hcourse⟩ := h
  have hflag := hcourse.flag cancel
  rcases advance_cases hadvance with ⟨t, hstep, rfl⟩ | ⟨fault, t, hstops, rfl⟩
  · exact ⟨⟨_, hflag.step hstep⟩, nofun⟩
  · have hends : job.machine.Ends (.watched job.stepLimit) console past (notice cancel s)
        (Machine.finish fault t).1 (Machine.finish fault t).2 := ⟨fault, t, hflag, hstops, rfl⟩
    refine ⟨.ended hends, fun hcancelled => ?_⟩
    rw [Worker.reported.inj hcancelled] at hends
    exact hends.flag_of_cancelled

theorem Justified.mono {verdict : Verdict} (h : Justified job console scene verdict)
    (hinterrupted : scene.interrupted = true → scene'.interrupted = true)
    (hexpired : scene.expired = true → scene'.expired = true) :
    Justified job console scene' verdict := by
  cases h with
  | finished returned raised => exact .finished returned fun h => hinterrupted (raised h)
  | interrupted raised => exact .interrupted (hinterrupted raised)
  | timedOut elapsed => exact .timedOut (hexpired elapsed)

theorem Attributed.mono {ending : Ending} (h : Attributed job console scene ending)
    (hsignalled : scene.signalled = true → scene'.signalled = true)
    (hexpired : scene.expired = true → scene'.expired = true) :
    Attributed job console scene' ending := by
  cases h with
  | success returned => exact .success returned
  | fault returned own => exact .fault returned own
  | interrupted sent => exact .interrupted (hsignalled sent)
  | timedOut limit elapsed => exact .timedOut limit (hexpired elapsed)

/-- Flags that go up take nothing back of what the supervisor has settled on. -/
theorem Supervisor.Truthful.mono {supervisor : Supervisor}
    (h : supervisor.Truthful job console scene)
    (hinterrupted : scene.interrupted = true → scene'.interrupted = true)
    (hsignalled : scene.signalled = true → scene'.signalled = true)
    (hexpired : scene.expired = true → scene'.expired = true) :
    supervisor.Truthful job console scene' := by
  cases supervisor with
  | decided verdict => exact Justified.mono h hinterrupted hexpired
  | exited ending => exact Attributed.mono h hsignalled hexpired
  | waiting | checkingInterrupt | checkingDeadline => trivial

end Supervision
end Brainfuck

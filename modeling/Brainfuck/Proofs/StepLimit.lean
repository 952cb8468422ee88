import Brainfuck.Proofs.Calm
import Brainfuck.Proofs.Course

/-!
# The step limit

A run with a limit goes as the free run does, command for command, until as many commands as it
may execute have been executed. If the free run stops by then, the limit does not show in
anything. Otherwise the limited run ends with exactly so many commands executed and with one
more flush. All this is for runs during which the stop flag stays down.
-/
namespace Brainfuck

theorem Control.objection?_unlimited {s : State} (h : s.console.cancelled = false) :
    (Control.watched none).objection? s = none := by
  simp [objection?, h]

theorem Control.objection?_limited {s : State} (h : s.console.cancelled = false) (limit : Nat) :
    (Control.watched (some limit)).objection? s =
      if limit ≤ s.steps then some (.stepLimit limit) else none := by
  simp [objection?, h]

namespace Machine

variable {m : Machine} {s t start : State} {console : Console} {limit n k fuel : Nat}

/-- The stop flag stays down in the free run. -/
def Undisturbed (m : Machine) (s : State) : Prop :=
  ∀ n t, m.Leads .free n s t → t.console.cancelled = false

theorem undisturbed_of_calm (h : s.console.Calm) : m.Undisturbed s :=
  fun _ _ hl => (Console.kept_calm.leads hl h).lowered

theorem Undisturbed.next (h : m.Undisturbed s) (hs : m.step .free s = .next t) :
    m.Undisturbed t :=
  fun n u hl => h (n + 1) u (.cons hs hl)

theorem Undisturbed.lowered (h : m.Undisturbed s) : s.console.cancelled = false :=
  h 0 s (.refl s)

/-- The free run ends within so many commands, or one of so many commands is not done. -/
inductive StopsWithin (m : Machine) (limit : Nat) (s : State) : Prop where
  | ended {k : Nat} {t : State} (row : m.Leads .free k s t) (within : k ≤ limit)
      (stop : m.step .free t = .halted t)
  | failed {k : Nat} {t u : State} {fault : Fault} (row : m.Leads .free k s t)
      (within : k < limit) (stop : m.step .free t = .failed fault u)
  | waiting {k : Nat} {t u : State} (row : m.Leads .free k s t) (within : k < limit)
      (stop : m.step .free t = .waiting u)

theorem StopsWithin.mono (h : m.StopsWithin limit s) (hle : limit ≤ k) : m.StopsWithin k s := by
  cases h with
  | ended row within stop => exact .ended row (Nat.le_trans within hle) stop
  | failed row within stop => exact .failed row (Nat.lt_of_lt_of_le within hle) stop
  | waiting row within stop => exact .waiting row (Nat.lt_of_lt_of_le within hle) stop

theorem step_limited (hflag : s.console.cancelled = false) (hlt : s.steps < limit) :
    m.step (.watched (some limit)) s = m.step .free s := by
  apply step_eq_free
  rw [Control.objection?_limited hflag, if_neg (Nat.not_le_of_lt hlt)]

/-- A free run is a limited run for as long as the limit allows. -/
theorem Leads.limited (h : m.Leads .free n s t) (hu : m.Undisturbed s)
    (hn : s.steps + n ≤ limit) : m.Leads (.watched (some limit)) n s t := by
  induction h with
  | refl s => exact .refl s
  | cons hs _ ih =>
    have hsteps := steps_of_next hs
    refine .cons ?_ (ih (hu.next hs) (by omega))
    rw [step_limited hu.lowered (by omega), hs]

/-- Two runs that come to the same state and go on with the same step, not to a further state,
stop alike. -/
theorem execute_eq_of_same_stop {control : Control} (h : m.Leads control k s t)
    (hfree : m.Leads .free k s t) (hstep : m.step control t = m.step .free t)
    (hstop : ∀ u, m.step .free t ≠ .next u) (hfuel : k < fuel) :
    m.execute control fuel s = m.execute .free fuel s ∧
      ∀ u, m.execute .free fuel s ≠ .running u := by
  obtain ⟨d, rfl⟩ := Nat.le.dest hfuel
  rw [Nat.succ_add, ← Nat.add_succ, h.execute_add, hfree.execute_add, execute, execute, hstep]
  cases hs : m.step .free t with
  | next u => exact absurd hs (hstop u)
  | halted u => exact ⟨rfl, fun _ hrunning => by cases hrunning⟩
  | failed fault u => exact ⟨rfl, fun _ hrunning => by cases hrunning⟩
  | waiting u => exact ⟨rfl, fun _ hrunning => by cases hrunning⟩

theorem Leads.step_limited (h : m.Leads .free k s t) (hu : m.Undisturbed s)
    (hk : s.steps + k < limit) : m.step (.watched (some limit)) t = m.step .free t :=
  Machine.step_limited (hu k t h) (h.steps_eq ▸ hk)

/-- A free run that stops soon enough is not changed by the limit. -/
theorem StopsWithin.execute_eq (h : m.StopsWithin limit s) (hu : m.Undisturbed s)
    (hsteps : s.steps = 0) (hfuel : limit < fuel) :
    m.execute (.watched (some limit)) fuel s = m.execute .free fuel s ∧
      ∀ u, m.execute .free fuel s ≠ .running u := by
  cases h with
  | @ended k t row within stop =>
    obtain ⟨-, hend⟩ := step_halted stop
    have hstep : m.step (.watched (some limit)) t = m.step .free t := by
      rw [step_of_end (Program.command?_eq_none_iff.mpr hend), stop]
    exact execute_eq_of_same_stop (row.limited hu (by omega)) row hstep (by simp [stop])
      (by omega)
  | failed row within stop =>
    exact execute_eq_of_same_stop (row.limited hu (by omega)) row
      (row.step_limited hu (by omega)) (by simp [stop]) (by omega)
  | waiting row within stop =>
    exact execute_eq_of_same_stop (row.limited hu (by omega)) row
      (row.step_limited hu (by omega)) (by simp [stop]) (by omega)

/-- A free run that does not stop soon enough executes as many commands as there may be. -/
theorem exists_leads_of_not_stopsWithin (h : ¬ m.StopsWithin limit s) (hn : n ≤ limit) :
    ∃ t, m.Leads .free n s t := by
  induction n with
  | zero => exact ⟨s, .refl s⟩
  | succ n ih =>
    obtain ⟨t, ht⟩ := ih (by omega)
    cases hs : m.step .free t with
    | next u => exact ⟨u, ht.snoc hs⟩
    | halted u =>
      obtain ⟨rfl, -⟩ := step_halted hs
      exact absurd (.ended ht (by omega) hs) h
    | failed fault u => exact absurd (.failed ht hn hs) h
    | waiting u => exact absurd (.waiting ht hn hs) h

/-- At the limit there is an objection to the next command. -/
theorem step_at_limit (h : m.Leads .free limit s t) (hu : m.Undisturbed s)
    (hsteps : s.steps = 0) (hmore : ¬ m.StopsWithin limit s) :
    m.step (.watched (some limit)) t = .failed (.stepLimit limit) t := by
  obtain ⟨c, hc⟩ : ∃ c, m.program.command? t.position = some c := by
    rw [← Option.ne_none_iff_exists']
    exact fun hnone => hmore (.ended h (Nat.le_refl limit) (step_of_end hnone))
  have ho : (Control.watched (some limit)).objection? t = some (.stepLimit limit) := by
    rw [Control.objection?_limited (hu limit t h), if_pos]
    rw [h.steps_eq]
    omega
  simp only [step, hc, ho]

/-- Under a flag that stays down, a watched run without a limit is a free one. -/
theorem execute_unlimited (hu : m.Undisturbed s) :
    m.execute (.watched none) fuel s = m.execute .free fuel s := by
  induction fuel generalizing s with
  | zero => rfl
  | succ fuel ih =>
    rw [execute, execute, step_eq_free (Control.objection?_unlimited hu.lowered)]
    cases hs : m.step .free s with
    | next t => exact ih (hu.next hs)
    | halted t => rfl
    | failed fault t => rfl
    | waiting t => rfl

theorem steps_lt_of_next (h : m.step (.watched (some limit)) s = .next t) : s.steps < limit := by
  have ho := objection?_of_next h
  simp only [Control.objection?] at ho
  split at ho
  · exact nomatch ho
  · split at ho
    · exact nomatch ho
    · next hlt => exact Nat.lt_of_not_le hlt

/-- A limited run never executes more commands than it may. -/
theorem Leads.steps_le (h : m.Leads (.watched (some limit)) n s t) (hs : s.steps ≤ limit) :
    t.steps ≤ limit := by
  induction h with
  | refl => exact hs
  | cons hstep _ ih =>
    have hlt := steps_lt_of_next hstep
    exact ih (by rw [steps_of_next hstep]; exact hlt)

/-- Without a wait at the end of its input a run never waits. -/
theorem step_ne_waiting (h : s.console.readEnd ≠ .waiting) (hl : m.Leads .free n s t) (u : State) :
    m.step .free t ≠ .waiting u := by
  intro hs
  have hend := (Console.kept_readEnd s.console.readEnd).leads hl rfl
  have hv := m.step_view .free t
  rw [hs] at hv
  cases hv with
  | waiting _ _ _ act => exact h (hend.symm.trans (Command.readEnd_of_act_waiting act))

theorem Stop.outcome_ne_running {x : Stop} (h : ∀ s, x ≠ .running s) (s : State) :
    x.outcome ≠ .running s := by
  cases x with
  | ended fault t => exact nofun
  | waiting t => exact nofun
  | running t => exact absurd rfl (h t)

theorem StopsWithin.run_eq (h : m.StopsWithin limit start) (hu : m.Undisturbed start)
    (hstart : m.start console = .ok start) (hfuel : limit < fuel) :
    m.run (.watched (some limit)) fuel console = m.run .free fuel console ∧
      ∀ s, m.run .free fuel console ≠ .running s := by
  obtain ⟨heq, hstop⟩ := h.execute_eq hu (start_eq_ok hstart).2.1 hfuel
  rw [run_of_start hstart, run_of_start hstart, heq]
  exact ⟨rfl, Stop.outcome_ne_running hstop⟩

theorem run_at_limit (h : m.Leads .free limit start t) (hu : m.Undisturbed start)
    (hstart : m.start console = .ok start) (hmore : ¬ m.StopsWithin limit start)
    (hfuel : limit < fuel) :
    m.run (.watched (some limit)) fuel console =
      .ended (some (.stepLimit limit)) { t with console := t.console.flush.1 } := by
  have hsteps := (start_eq_ok hstart).2.1
  exact Leads.run_of_failed hstart (h.limited hu (by omega))
    (step_at_limit h hu hsteps hmore) hfuel

theorem exists_run_at_limit (hu : m.Undisturbed start) (hstart : m.start console = .ok start)
    (hmore : ¬ m.StopsWithin limit start) (hfuel : limit < fuel) :
    ∃ s, m.run (.watched (some limit)) fuel console = .ended (some (.stepLimit limit)) s := by
  obtain ⟨t, ht⟩ := exists_leads_of_not_stopsWithin hmore (Nat.le_refl limit)
  exact ⟨_, run_at_limit ht hu hstart hmore hfuel⟩

/-- Of two limits the lower one gives the outcome of the higher one or is exceeded itself. -/
theorem run_of_lower_limit {limit' : Nat} (hu : m.Undisturbed start)
    (hstart : m.start console = .ok start) (hle : limit ≤ limit') (hfuel : limit' < fuel) :
    m.run (.watched (some limit)) fuel console = m.run (.watched (some limit')) fuel console ∨
      ∃ s, m.run (.watched (some limit)) fuel console = .ended (some (.stepLimit limit)) s := by
  by_cases h : m.StopsWithin limit start
  · left
    rw [(h.run_eq hu hstart (by omega)).1, ((h.mono hle).run_eq hu hstart hfuel).1]
  · exact .inr (exists_run_at_limit hu hstart h (by omega))

/-- What was called in a state of a run stays called. -/
theorem Leads.calls_suffix_run {control : Control} (h : m.Leads control n start t)
    (hstart : m.start console = .ok start) (hfuel : n ≤ fuel) :
    t.console.calls <:+ (m.run control fuel console).console.calls := by
  obtain ⟨d, rfl⟩ := Nat.le.dest hfuel
  have hkept := Console.kept_calls t.console.calls
  rw [run_of_start hstart, h.execute_add]
  exact hkept.outcome (hkept.execute (List.suffix_refl _) d)

/-- The exact law of the limit. A free run that stops in time is not changed by it. Any other is
cut behind as many commands as the limit allows, and what it has called by then is followed by
one flush, whose result does not matter. -/
theorem step_limit_exact {source : String} {memory : Nat} {policy : Policy} {m : Machine}
    (hload : load source memory policy = .ok m) (console : Console) :
    ∃ start, m.start console = .ok start ∧
      (console.readEnd ≠ .waiting →
        ∀ n t u, m.Leads .free n start t → m.step .free t ≠ .waiting u) ∧
      (m.Undisturbed start →
        (∀ limit, m.StopsWithin limit start → ∀ fuel > limit,
          m.run (.watched (some limit)) fuel console = m.run .free fuel console ∧
            ∀ s, m.run .free fuel console ≠ .running s) ∧
        (∀ limit, ¬ m.StopsWithin limit start →
          ∃ t, m.Leads .free limit start t ∧ m.Leads (.watched (some limit)) limit start t ∧
            t.steps = limit ∧
            (∀ fuel > limit, m.run (.watched (some limit)) fuel console =
              .ended (some (.stepLimit limit)) { t with console := t.console.flush.1 }) ∧
            (∃ call : Call, call.isFlush ∧ t.console.flush.1.calls = call :: t.console.calls) ∧
            ∀ fuel ≥ limit, t.console.calls <:+ (m.run .free fuel console).console.calls ∧
              t.console.output <+: (m.run .free fuel console).console.output) ∧
        (∀ limit limit', limit ≤ limit' → ∀ fuel > limit',
          m.run (.watched (some limit)) fuel console = m.run (.watched (some limit')) fuel console ∨
            ∃ s, m.run (.watched (some limit)) fuel console = .ended (some (.stepLimit limit)) s) ∧
        (∀ fuel, m.run (.watched none) fuel console = m.run .free fuel console) ∧
        ∀ limit ≤ Tape.maxWord, ∀ n s, m.Leads (.watched (some limit)) n start s →
          s.steps = n ∧ n ≤ limit ∧ (UInt64.ofNat s.steps).toNat = s.steps) := by
  obtain ⟨-, rfl, -, hmem⟩ := load_eq_ok hload
  obtain ⟨tape, -, hstart⟩ := exists_start hmem console
  refine ⟨_, hstart, fun hend _ _ u hl => step_ne_waiting hend hl u, fun hu =>
    ⟨fun _ h _ hfuel => h.run_eq hu hstart hfuel, fun limit hmore => ?_,
      fun _ _ hle _ hfuel => run_of_lower_limit hu hstart hle hfuel, fun fuel => ?_,
      fun limit hword n s hl => ?_⟩⟩
  · obtain ⟨t, ht⟩ := exists_leads_of_not_stopsWithin hmore (Nat.le_refl limit)
    have hsteps : t.steps = limit := by simpa using ht.steps_eq
    refine ⟨t, ht, ht.limited hu (Nat.le_of_eq (Nat.zero_add limit)), hsteps,
      fun _ hfuel => run_at_limit ht hu hstart hmore hfuel, t.console.exists_flush_call,
      fun _ hfuel => ?_⟩
    have hcalls := ht.calls_suffix_run hstart hfuel
    exact ⟨hcalls, Console.output_prefix hcalls⟩
  · rw [run_of_start hstart, run_of_start hstart, execute_unlimited hu]
  · have hsteps : s.steps = n := by simpa using hl.steps_eq
    have hle := hl.steps_le (Nat.zero_le limit)
    refine ⟨hsteps, hsteps ▸ hle, UInt64.toNat_ofNat_of_lt' ?_⟩
    simp only [Tape.maxWord] at hword
    simp only [UInt64.size]
    omega

/-- A loop without end, cut behind three commands. -/
theorem limit_cuts_endless_loop :
    ∃ m, load "+[.]" 1 .bounded = .ok m ∧
      ∃ start, m.start (.ofInput [] .closed) = .ok start ∧ m.Undisturbed start ∧
        ¬ m.StopsWithin 3 start ∧
        ∃ s, m.run (.watched (some 3)) 4 (.ofInput [] .closed) =
          .ended (some (.stepLimit 3)) s ∧ s.steps = 3 := by
  let m : Machine :=
    ⟨Program.parse "+[.]", ⟨#[none, some 3, none, some 1]⟩, 1, .bounded, rfl⟩
  have hm : load "+[.]" 1 .bounded = .ok m := rfl
  obtain ⟨start, hstart, -, hlaw⟩ := step_limit_exact hm (.ofInput [] .closed)
  have hu : m.Undisturbed start := by
    cases hstart
    exact undisturbed_of_calm ⟨rfl, nofun, nofun, nofun⟩
  obtain ⟨hsame, hcut, -⟩ := hlaw hu
  -- A run that stops within three commands is not running behind the fourth.
  have hmore : ¬ m.StopsWithin 3 start := fun h => (hsame 3 h 4 (by decide)).2 _ rfl
  obtain ⟨t, -, -, hsteps, hrun, -⟩ := hcut 3 hmore
  exact ⟨m, hm, start, hstart, hu, hmore, _, hrun 4 (by decide), hsteps⟩

end Machine
end Brainfuck

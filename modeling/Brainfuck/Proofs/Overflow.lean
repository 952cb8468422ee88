import Brainfuck.Proofs.Abreast
import Brainfuck.Proofs.Calls

/-!
# The first overflow

A bounded tape and a growable one of the same size do the same, cell for cell and call for call,
until the pointer is to leave the last cell on the right: there the one run ends and the other
goes on. A larger bounded tape therefore does what a smaller one does, for as long as the
smaller one does not overflow.
-/
namespace Brainfuck

/-- The same tape under another policy. -/
def Tape.under (t : Tape) (policy : Policy) : Tape := { t with policy }

def State.under (s : State) (policy : Policy) : State := { s with tape := s.tape.under policy }

def Progress.under (policy : Policy) : Progress → Progress
  | .next s => .next (s.under policy)
  | .halted s => .halted (s.under policy)
  | .failed fault s => .failed fault (s.under policy)
  | .waiting s => .waiting (s.under policy)

namespace Machine

def Stop.under (policy : Policy) : Stop → Stop
  | .ended fault s => .ended fault (s.under policy)
  | .waiting s => .waiting (s.under policy)
  | .running s => .running (s.under policy)

def Outcome.under (policy : Policy) : Outcome → Outcome
  | .refused fault console => .refused fault console
  | .ended fault s => .ended fault (s.under policy)
  | .waiting s => .waiting (s.under policy)
  | .running s => .running (s.under policy)

theorem Stop.eq_running_of_under {x : Stop} {policy : Policy} {t : State}
    (h : .running t = x.under policy) : ∃ s, x = .running s ∧ t = s.under policy := by
  cases x with
  | running s =>
    cases h
    exact ⟨s, rfl, rfl⟩
  | _ => exact nomatch h

theorem Stop.outcome_under (policy : Policy) (x : Stop) :
    (x.under policy).outcome = x.outcome.under policy := by
  cases x <;> rfl

end Machine

namespace Tape

variable {t : Tape}

theorem blank_under {size : Nat} {policy policy' : Policy} (h : blank size policy = .ok t) :
    blank size policy' = .ok (t.under policy') := by
  unfold blank at h ⊢
  split at h
  · next hle =>
    cases h
    rw [if_pos hle]
    rfl
  · cases h

theorem advance_under (t : Tape) (policy : Policy) (size : Nat) (fits : t.size ≤ size)
    (room : t.pointer + 1 < size) :
    (t.under policy).advance size fits room = (t.advance size fits room).under policy := by
  obtain ⟨visited, _, pointer, _, pointer_lt, visited_le⟩ := t
  change advance ⟨visited, _, pointer, policy, pointer_lt, visited_le⟩ size fits room = _
  simp only [advance]
  split <;> rfl

theorem moveRight_under (policy : Policy) (room : t.pointer + 1 < t.size) :
    (t.under policy).moveRight = (t.moveRight.1.under policy, t.moveRight.2) := by
  rw [t.moveRight_of_room true room, ← advance_under]
  exact (t.under policy).moveRight_of_room true room

theorem moveLeft_under (t : Tape) (policy : Policy) :
    (t.under policy).moveLeft = (t.moveLeft.1.under policy, t.moveLeft.2) := by
  obtain ⟨visited, size, pointer, _, pointer_lt, visited_le⟩ := t
  cases pointer <;> rfl

end Tape

theorem Tape.current_under (t : Tape) (policy : Policy) :
    (t.under policy).current = t.current := rfl

theorem State.tape_under (s : State) (policy : Policy) :
    (s.under policy).tape = s.tape.under policy := rfl

theorem State.position_under (s : State) (policy : Policy) :
    (s.under policy).position = s.position := rfl

theorem State.console_under (s : State) (policy : Policy) :
    (s.under policy).console = s.console := rfl

theorem Control.objection?_under (control : Control) (s : State) (policy : Policy) :
    control.objection? (s.under policy) = control.objection? s := by
  cases control <;> rfl

theorem Progress.eq_next_of_under {progress : Progress} {policy : Policy} {t : State}
    (h : progress.under policy = .next t) : ∃ s, progress = .next s ∧ t = s.under policy := by
  cases progress with
  | next s =>
    cases h
    exact ⟨s, rfl, rfl⟩
  | _ => exact nomatch h

theorem Effect.ofMove_under (position steps : Nat) (console : Console) (policy : Policy)
    (move : Tape × Option Tape.Obstacle) :
    Machine.afterEffect position steps (ofMove position console (move.1.under policy, move.2)) =
      (Machine.afterEffect position steps (ofMove position console move)).under policy := by
  rcases move with ⟨tape, _ | obstacle⟩ <;> rfl

namespace Machine
open Supervision

variable {m₁ m₂ : Machine} {control : Control} {s : State} {policy : Policy}

theorem jump_under (hp : m₁.program = m₂.program) (unpaired : Pairing.Unpaired) :
    m₂.jump unpaired (s.under policy) = (m₁.jump unpaired s).under policy := by
  rw [jump, jump, ← pairing_eq hp, ← hp, State.position_under]
  cases m₁.pairing.partner? s.position <;> rfl

/-- The policy does not matter to a command that stays on the tape. -/
theorem perform_under {c : Command} (hp : m₁.program = m₂.program)
    (room : c = .right → s.tape.pointer + 1 < s.tape.size) :
    m₂.perform c (s.under policy) = (m₁.perform c s).under policy := by
  cases c with
  | right =>
    rw [perform_plain rfl, perform_plain rfl, Command.act, Command.act,
      State.tape_under, Tape.moveRight_under policy (room rfl)]
    exact Effect.ofMove_under s.position s.steps s.console policy s.tape.moveRight
  | left =>
    rw [perform_plain rfl, perform_plain rfl, Command.act, Command.act,
      State.tape_under, Tape.moveLeft_under]
    exact Effect.ofMove_under s.position s.steps s.console policy s.tape.moveLeft
  | increment => rfl
  | decrement => rfl
  | output =>
    rw [perform_plain rfl, perform_plain rfl, Command.act, Command.act, State.console_under,
      State.tape_under, Tape.current_under]
    rcases s.console.put s.tape.current with ⟨console, _ | failure⟩ <;> rfl
  | input =>
    rw [perform_plain rfl, perform_plain rfl, Command.act, Command.act, State.console_under]
    rcases s.console.flush with ⟨console, _ | failure⟩
    · simp only
      rcases console.take with ⟨console', value | _ | failure | _⟩ <;> rfl
    · rfl
  | loopStart =>
    by_cases hz : s.tape.current = 0
    · have hz' : (s.under policy).tape.current = 0 := hz
      simp only [perform, if_pos hz, if_pos hz']
      exact jump_under hp _
    · have hz' : (s.under policy).tape.current ≠ 0 := hz
      simp only [perform, if_neg hz, if_neg hz']
      rfl
  | loopEnd =>
    by_cases hz : s.tape.current = 0
    · have hz' : (s.under policy).tape.current = 0 := hz
      simp only [perform, if_pos hz, if_pos hz']
      rfl
    · have hz' : (s.under policy).tape.current ≠ 0 := hz
      simp only [perform, if_neg hz, if_neg hz']
      exact jump_under hp _

theorem step_under (hp : m₁.program = m₂.program)
    (room : m₁.Begins control .right s → s.tape.pointer + 1 < s.tape.size) :
    m₂.step control (s.under policy) = (m₁.step control s).under policy := by
  rw [step, step, Control.objection?_under, ← hp, State.position_under]
  cases hc : m₁.program.command? s.position with
  | none => rfl
  | some c =>
    cases ho : control.objection? s with
    | some fault => rfl
    | none =>
      refine perform_under hp ?_
      rintro rfl
      exact room ⟨hc, ho⟩

theorem atEdge_of_bounded (h : m₁.Begins control .right s) (hs : s.tape.policy = .bounded)
    (edge : s.tape.pointer + 1 = s.tape.size) : m₁.AtEdge control s := by
  refine ⟨h, ?_⟩
  have hv := s.tape.moveRight_view true
  generalize s.tape.moveRight = move at hv ⊢
  cases hv with
  | within room _ _ _ => omega
  | grown _ growable _ _ _ _ _ => exact nomatch hs.symm.trans growable
  | overflow _ _ => rfl
  | refused _ growable _ => exact nomatch hs.symm.trans growable

/-- Two machines that differ in nothing but the policy of their tape. -/
structure Twins (b g : Machine) : Prop where
  program : b.program = g.program
  memory : b.memory = g.memory
  bounded : b.policy = .bounded
  growable : g.policy = .growable
  memory_le : b.memory ≤ maxMemory

/-- The run on the bounded tape is at a move off its last cell, the last of so many. There it
overflows, and the other run goes on. -/
structure PartsAt (b g : Machine) (control : Control) (cells : Nat) (s : State) : Prop where
  right : b.Begins control .right s
  last : s.tape.pointer + 1 = cells
  overflow : b.step control s = .failed (.overflow s.position s.tape.pointer cells) s
  onward : ∃ t, g.step control (s.under .growable) = .next t ∧ t.tape.pointer = cells

namespace Twins

variable {b g : Machine} {console : Console} {past : List State} {t : State} {n : Nat}

/-- The bounded run stays within its cells. -/
theorem leads_within (h : Twins b g) (hs : b.start console = .ok s)
    (hl : b.Leads control n s t) : t.tape.pointer < max 1 b.memory := by
  obtain ⟨_, hc⟩ := (Course.start hs).leads hl
  rw [← hc.safe.size_eq h.bounded]
  exact hc.safe.pointer_lt

theorem start (h : Twins b g) (hs : b.start console = .ok s) :
    g.start console = .ok (s.under .growable) := by
  obtain ⟨_, hblank, hstart⟩ := exists_start h.memory_le console
  cases hs.symm.trans hstart
  rw [Machine.start, ← h.memory, h.growable, Tape.blank_under hblank]
  rfl

/-- A growable tape of at most so many cells grows when the pointer leaves it. -/
theorem step_growable (h : Twins b g) (hb : b.Begins control .right s)
    (hs : s.tape.size = max 1 b.memory) (edge : s.tape.pointer + 1 = s.tape.size) :
    ∃ t, g.step control (s.under .growable) = .next t ∧ t.tape.pointer = s.tape.size := by
  have hg : g.Begins control .right (s.under .growable) :=
    ⟨h.program ▸ hb.1, (control.objection?_under s .growable).trans hb.2⟩
  have hle := h.memory_le
  rw [hg.step_right]
  have hv := (s.under .growable).tape.moveRight_view true
  generalize (s.under .growable).tape.moveRight = move at hv ⊢
  cases hv with
  | within room _ _ _ => exact absurd edge (Nat.ne_of_lt room)
  | grown _ _ _ _ pointer _ _ => exact ⟨_, rfl, pointer.trans edge⟩
  | overflow _ bounded => exact nomatch bounded
  | refused _ _ reason =>
    have excess : Tape.capacity < Tape.grownSize s.tape.size (s.tape.pointer + 1) :=
      reason.resolve_left nofun
    simp only [maxMemory] at hle
    simp only [Tape.capacity, Tape.grownSize, Tape.maxWord] at excess
    omega

/-- At any moment the next step is the same for both, or it is the one that overflows. -/
theorem step_cases (h : Twins b g) (hc : b.Course control console past s) :
    PartsAt b g control (max 1 b.memory) s ∨
      g.step control (s.under .growable) = (b.step control s).under .growable := by
  have hsafe := hc.safe
  have hsize := hsafe.size_eq h.bounded
  have hlt := hsafe.pointer_lt
  -- The policy is asked for only when a `>` is begun on the last cell.
  by_cases hedge : b.Begins control .right s ∧ s.tape.pointer + 1 = s.tape.size
  · obtain ⟨hb, edge⟩ := hedge
    have hpolicy := hsafe.policy_eq.trans h.bounded
    have honward := h.step_growable hb hsize edge
    obtain ⟨-, ⟨-, hover⟩ | ⟨hgrow, -⟩⟩ := (atEdge_of_bounded hb hpolicy edge).step_eq
    · rw [hsize] at edge hover honward
      exact .inl ⟨hb, edge, hover, honward⟩
    · exact nomatch hpolicy.symm.trans hgrow
  · refine .inr (step_under h.program fun hb => ?_)
    by_contra hroom
    exact hedge ⟨hb, by omega⟩

theorem next (h : Twins b g) (hc : b.Course control console past s)
    (hs : b.step control s = .next t) :
    g.step control (s.under .growable) = .next (t.under .growable) := by
  rcases h.step_cases hc with hparts | heq
  · exact nomatch hs.symm.trans hparts.overflow
  · rw [heq, hs]
    rfl

/-- Whatever the bounded run does, the growable one does as well. -/
theorem course (h : Twins b g) (hc : b.Course control console past s) :
    g.Course control console (past.map (·.under .growable)) (s.under .growable) := by
  induction hc with
  | start hs => exact .start (h.start hs)
  | flag raised _ ih => exact .flag raised ih
  | step hc hs ih => exact .step ih (h.next hc hs)

/-- What the growable run does on so many cells, the bounded one does as well. -/
theorem course_within (h : Twins b g) (hc : g.Course control console past s)
    (hin : ∀ t ∈ s :: past, t.tape.pointer < max 1 b.memory) :
    ∃ past' s', b.Course control console past' s' ∧ past = past'.map (·.under .growable) ∧
      s = s'.under .growable := by
  induction hc with
  | @start s hs =>
    obtain ⟨_, -, hstart⟩ := exists_start h.memory_le console
    refine ⟨[], _, .start hstart, rfl, ?_⟩
    exact Except.ok.inj (hs.symm.trans (h.start hstart))
  | @flag past s raised _ ih =>
    obtain ⟨past', s', hc', rfl, rfl⟩ := ih fun t ht => by
      rcases List.mem_cons.mp ht with heq | ht
      · rw [heq]
        exact hin (Worker.notice raised s) List.mem_cons_self
      · exact hin t (List.mem_cons_of_mem _ ht)
    exact ⟨past', _, .flag raised hc', rfl, rfl⟩
  | @step past s t _ hs ih =>
    obtain ⟨past', s', hc', rfl, rfl⟩ := ih fun u hu => hin u (List.mem_cons_of_mem t hu)
    rcases h.step_cases hc' with hparts | heq
    · obtain ⟨t', hs', hpointer⟩ := hparts.onward
      cases hs.symm.trans hs'
      exact absurd (hin t List.mem_cons_self) (by omega)
    · obtain ⟨t', hs', rfl⟩ := Progress.eq_next_of_under (heq.symm.trans hs)
      exact ⟨s' :: past', t', .step hc' hs', rfl, rfl⟩

theorem leads (h : Twins b g) (hc : b.Course control console past s)
    (hl : b.Leads control n s t) :
    g.Leads control n (s.under .growable) (t.under .growable) := by
  induction hl generalizing past with
  | refl s => exact .refl _
  | cons hs _ ih => exact .cons (h.next hc hs) (ih (.step hc hs))

/-- From any moment on both go the same way, up to the move that overflows. -/
theorem execute (h : Twins b g) (hc : b.Course control console past s) (fuel : Nat) :
    (∃ k < fuel, ∃ t, b.Leads control k s t ∧ PartsAt b g control (max 1 b.memory) t) ∨
      g.execute control fuel (s.under .growable) =
        (b.execute control fuel s).under .growable := by
  induction fuel generalizing past s with
  | zero => exact .inr rfl
  | succ fuel ih =>
    rcases h.step_cases hc with hparts | heq
    · exact .inl ⟨0, Nat.succ_pos fuel, s, .refl s, hparts⟩
    · rw [Machine.execute, Machine.execute, heq]
      cases hs : b.step control s with
      | next t =>
        rcases ih (.step hc hs) with ⟨k, hk, u, hl, hparts⟩ | heq'
        · exact .inl ⟨k + 1, Nat.succ_lt_succ hk, u, .cons hs hl, hparts⟩
        · exact .inr heq'
      | halted t => exact .inr rfl
      | failed fault t => exact .inr rfl
      | waiting t => exact .inr rfl

end Twins

/-- A bounded and a growable run are the same until the pointer leaves so many cells. -/
structure UpToOverflow (b g : Machine) (control : Control) (console : Console) (cells : Nat)
    (start : State) : Prop where
  same : (∀ n s, g.Leads control n (start.under .growable) s → s.tape.pointer < cells) →
    ∀ fuel, g.run control fuel console = (b.run control fuel console).under .growable
  parted : ∀ n s, g.Leads control n (start.under .growable) s → cells ≤ s.tape.pointer →
    ∃ k < n, ∃ t, b.Leads control k start t ∧ PartsAt b g control cells t ∧
      (∀ j ≤ k, ∀ u, g.Leads control j (start.under .growable) u → u.tape.pointer < cells) ∧
      (∀ fuel ≤ k, g.run control fuel console = (b.run control fuel console).under .growable) ∧
      ∀ fuel > k, b.run control fuel console =
        .ended (some (.overflow t.position t.tape.pointer cells))
          { t with console := t.console.flush.1 } ∧
        t.console.flush.1.output = t.console.output
  /-- The same from any moment on, whatever was done to the stop flag before. -/
  course : ∀ past s, b.Course control console past s →
    g.Course control console (past.map (·.under .growable)) (s.under .growable) ∧
      ∀ fuel, (∃ k < fuel, ∃ t, b.Leads control k s t ∧ PartsAt b g control cells t) ∨
        (g.execute control fuel (s.under .growable)).outcome =
          (b.execute control fuel s).outcome.under .growable
  course_within : ∀ past s, g.Course control console past s →
    (∀ t ∈ s :: past, t.tape.pointer < cells) →
      ∃ past' s', b.Course control console past' s' ∧ past = past'.map (·.under .growable) ∧
        s = s'.under .growable

section

variable {b g : Machine} {console : Console} {start : State}

/-- As many steps as the bounded run makes are the same in both runs, and within its cells. -/
theorem Twins.shorter (h : Twins b g) (hstart : b.start console = .ok start) {k j : Nat}
    {t : State} (hl : b.Leads control k start t) (hj : j ≤ k) :
    ∃ u : State, g.Leads control j (start.under .growable) (u.under .growable) ∧
      u.tape.pointer < max 1 b.memory ∧
      g.run control j console = (b.run control j console).under .growable := by
  obtain ⟨u, hu⟩ := hl.exists_shorter hj
  have hg := h.leads (.start hstart) hu
  refine ⟨u, hg, h.leads_within hstart hu, ?_⟩
  rw [run_of_start hstart, run_of_start (h.start hstart), hu.execute_eq, hg.execute_eq]
  rfl

theorem Twins.upToOverflow (h : Twins b g) (hstart : b.start console = .ok start) :
    UpToOverflow b g control console (max 1 b.memory) start where
  same hin fuel := by
    rw [run_of_start hstart, run_of_start (h.start hstart), ← Stop.outcome_under]
    rcases h.execute (.start hstart) fuel with ⟨k, -, t, hl, hparts⟩ | heq
    · obtain ⟨u, hs, hpointer⟩ := hparts.onward
      have hlt := hin (k + 1) u ((h.leads (.start hstart) hl).snoc hs)
      exact absurd hpointer (Nat.ne_of_lt hlt)
    · rw [heq]
  parted n s hl hout := by
    rcases h.execute (.start hstart) n with ⟨k, hk, t, hb, hparts⟩ | heq
    · refine ⟨k, hk, t, hb, hparts, fun j hj u hu => ?_, fun fuel hfuel => ?_, fun fuel hfuel =>
        ⟨hb.run_of_failed hstart hparts.overflow hfuel, t.console.output_flush⟩⟩
      · obtain ⟨v, hv, hlt, -⟩ := h.shorter hstart hb hj
        cases hu.unique hv
        exact hlt
      · obtain ⟨_, -, -, hrun⟩ := h.shorter hstart hb hfuel
        exact hrun
    · -- Without a parting the bounded run would be outside of its own tape.
      rw [hl.execute_eq] at heq
      obtain ⟨t, ht, rfl⟩ := Stop.eq_running_of_under heq
      exact absurd (h.leads_within hstart (leads_of_running ht)) (Nat.not_lt_of_le hout)
  course past s hc := by
    refine ⟨h.course hc, fun fuel => ?_⟩
    rcases h.execute hc fuel with hparts | heq
    · exact .inl hparts
    · rw [heq, Stop.outcome_under]
      exact .inr rfl
  course_within _ _ := h.course_within

end

section Larger

variable {b b' : Machine} {console : Console} {s' : State}

theorem Begins.of_endless_eq {c : Command} (h : b'.Begins control c s')
    (hp : b.program = b'.program) (he : s.endless = s'.endless) : b.Begins control c s := by
  refine ⟨?_, ?_⟩
  · rw [hp, show s.position = s'.position from congrArg Endless.State.position he]
    exact h.1
  · rw [← Endless.objection?_endless, he, Endless.objection?_endless]
    exact h.2

/-- The smaller of two bounded tapes is at its edge no later than the larger one. -/
theorem Abreast.atEdge_smaller (h : Abreast b b' control console s s')
    (hp : b.program = b'.program) (hb : b.policy = .bounded) (hb' : b'.policy = .bounded)
    (hle : b.memory ≤ b'.memory) (hedge : b'.AtEdge control s') : b.AtEdge control s := by
  obtain ⟨_, hc⟩ := h.course_left
  obtain ⟨_, hc'⟩ := h.course_right
  have he := h.endless_eq hp
  have hpointer : s.tape.pointer = s'.tape.pointer :=
    congrArg (fun e : Endless.State => e.tape.pointer) he
  have hsize := hc.safe.size_eq hb
  have hsize' := hc'.safe.size_eq hb'
  have hlt := hc.safe.pointer_lt
  have hlast := hedge.step_eq.1
  exact atEdge_of_bounded (hedge.1.of_endless_eq hp he) (hc.safe.policy_eq.trans hb) (by omega)

/-- The larger of two bounded tapes does what the smaller one does, unless that overflows. -/
theorem Abreast.execute_larger (h : Abreast b b' control console s s')
    (hp : b.program = b'.program) (hb : b.policy = .bounded) (hb' : b'.policy = .bounded)
    (hle : b.memory ≤ b'.memory) (fuel : Nat) :
    (∃ k < fuel, ∃ t, b.Leads control k s t ∧ b.AtEdge control t) ∨
      (b.execute control fuel s).endless = (b'.execute control fuel s').endless := by
  rcases b.endless_execute control fuel s with hedge | heq
  · exact .inl hedge
  rcases b'.endless_execute control fuel s' with ⟨k, hk, t', hl', hedge'⟩ | heq'
  · -- Where the larger tape is at its edge, the smaller one is at its own or was so before.
    rcases h.follow hp hl' with ⟨j, hj, u, hl, hedge⟩ | ⟨t, hl, ht⟩
    · exact .inl ⟨j, Nat.lt_trans hj hk, u, hl, hedge⟩
    · exact .inl ⟨k, hk, t, hl, ht.atEdge_smaller hp hb hb' hle hedge'⟩
  · rw [heq, heq', h.endless_eq hp, hp, pairing_eq hp]
    exact .inr rfl

/-- A bounded run at its edge ends with an overflow of all its cells. -/
theorem Leads.execute_of_atEdge {past : List State} {t : State} {k fuel : Nat}
    (hl : b.Leads control k s t) (hc : b.Course control console past s)
    (hb : b.policy = .bounded) (hedge : b.AtEdge control t) (hk : k < fuel) :
    ∃ position final, b.execute control fuel s =
      .ended (some (.overflow position (max 1 b.memory - 1) (max 1 b.memory))) final := by
  obtain ⟨_, hct⟩ := hc.leads hl
  have hsize := hct.safe.size_eq hb
  obtain ⟨hlast, ⟨-, hstep⟩ | ⟨hgrow, -⟩⟩ := hedge.step_eq
  · have hpointer : t.tape.pointer = max 1 b.memory - 1 := by omega
    rw [hsize, hpointer] at hstep
    exact ⟨t.position, t, hl.execute_of_failed hstep hk⟩
  · exact nomatch (hct.safe.policy_eq.trans hb).symm.trans hgrow

theorem Abreast.outcome_larger (h : Abreast b b' control console s s')
    (hp : b.program = b'.program) (hb : b.policy = .bounded) (hb' : b'.policy = .bounded)
    (hle : b.memory ≤ b'.memory) (fuel : Nat) :
    (∃ position final, b.execute control fuel s =
      .ended (some (.overflow position (max 1 b.memory - 1) (max 1 b.memory))) final) ∨
      (b.execute control fuel s).outcome.endless? =
        (b'.execute control fuel s').outcome.endless? := by
  rcases h.execute_larger hp hb hb' hle fuel with ⟨k, hk, t, hl, hedge⟩ | heq
  · obtain ⟨_, hc⟩ := h.course_left
    exact .inl (hl.execute_of_atEdge hc hb hedge hk)
  · rw [Stop.endless_outcome, Stop.endless_outcome, heq]
    exact .inr rfl

/-- A run on a larger bounded tape, beside one on so many cells: both are the same, in all but
the size of the tape, unless the smaller tape overflows. -/
structure SameUnlessOverflow (b b' : Machine) (control : Control) (console : Console)
    (cells : Nat) : Prop where
  run : ∀ fuel,
    (∃ position final, b.run control fuel console =
      .ended (some (.overflow position (cells - 1) cells)) final) ∨
      (b.run control fuel console).endless? = (b'.run control fuel console).endless?
  /-- The same from any moment on, whatever was done to the stop flag before. -/
  abreast : ∀ s s', Abreast b b' control console s s' → s.endless = s'.endless ∧ ∀ fuel,
    (∃ position final, b.execute control fuel s =
      .ended (some (.overflow position (cells - 1) cells)) final) ∨
      (b.execute control fuel s).outcome.endless? = (b'.execute control fuel s').outcome.endless?

theorem sameUnlessOverflow (hp : b.program = b'.program) (hb : b.policy = .bounded)
    (hb' : b'.policy = .bounded) (hle : b.memory ≤ b'.memory) (hmem : b'.memory ≤ maxMemory) :
    SameUnlessOverflow b b' control console (max 1 b.memory) where
  run fuel := by
    obtain ⟨_, -, hstart⟩ := exists_start (Nat.le_trans hle hmem) console
    obtain ⟨_, -, hstart'⟩ := exists_start hmem console
    have habreast : Abreast b b' control console _ _ := .start hstart hstart'
    rw [run_of_start hstart, run_of_start hstart']
    rcases habreast.outcome_larger hp hb hb' hle fuel with ⟨position, final, hover⟩ | heq
    · rw [hover]
      exact .inl ⟨position, _, rfl⟩
    · exact .inr heq
  abreast _ _ h := ⟨h.endless_eq hp, h.outcome_larger hp hb hb' hle⟩

end Larger

/-- Bounded and growable runs agree up to the first overflow, and so do bounded runs on tapes of
different size. -/
theorem bounded_agrees_up_to_overflow {source : String} {memory : Nat} {b g : Machine}
    (hb : load source memory .bounded = .ok b) (hg : load source memory .growable = .ok g)
    (control : Control) (console : Console) :
    (∃ start, b.start console = .ok start ∧ g.start console = .ok (start.under .growable) ∧
      UpToOverflow b g control console (max 1 memory) start) ∧
    ∀ memory' b', memory ≤ memory' → load source memory' .bounded = .ok b' →
      SameUnlessOverflow b b' control console (max 1 memory) := by
  obtain ⟨hprog, rfl, hpolicy, hmem⟩ := load_eq_ok hb
  obtain ⟨hprog', hmemory, hpolicy', -⟩ := load_eq_ok hg
  have htwins : Twins b g :=
    ⟨hprog.trans hprog'.symm, hmemory.symm, hpolicy, hpolicy', hmem⟩
  refine ⟨?_, fun memory' b' hle hb' => ?_⟩
  · obtain ⟨_, -, hstart⟩ := exists_start hmem console
    exact ⟨_, hstart, htwins.start hstart, htwins.upToOverflow hstart⟩
  · obtain ⟨hprogb', rfl, hpolicyb', hmemb'⟩ := load_eq_ok hb'
    exact sameUnlessOverflow (hprog.trans hprogb'.symm) hpolicy hpolicyb' hle hmemb'

/-- A loop that writes its way to the right, on two cells and on nine. -/
theorem overflow_of_two_cells :
    ∃ b g b', load "+[.>+]" 2 .bounded = .ok b ∧ load "+[.>+]" 2 .growable = .ok g ∧
      load "+[.>+]" 9 .bounded = .ok b' ∧
      (∃ start, b.start (.ofInput [] .closed) = .ok start ∧
        ∃ k t, b.Leads .free k start t ∧ PartsAt b g .free 2 t ∧ t.console.output = [1, 1]) ∧
      (b.run .free 7 (.ofInput [] .closed)).endless? =
        (b'.run .free 7 (.ofInput [] .closed)).endless? := by
  let p := Program.parse "+[.>+]"
  let pairing : Pairing := ⟨#[none, some 5, none, none, none, some 1]⟩
  let b : Machine := ⟨p, pairing, 2, .bounded, rfl⟩
  let g : Machine := ⟨p, pairing, 2, .growable, rfl⟩
  let b' : Machine := ⟨p, pairing, 9, .bounded, rfl⟩
  have hb : load "+[.>+]" 2 .bounded = .ok b := rfl
  have hg : load "+[.>+]" 2 .growable = .ok g := rfl
  have hb' : load "+[.>+]" 9 .bounded = .ok b' := rfl
  obtain ⟨⟨start, hstart, -, hup⟩, hsame⟩ :=
    bounded_agrees_up_to_overflow hb hg .free (.ofInput [] .closed)
  refine ⟨b, g, b', hb, hg, hb', ⟨start, hstart, ?_⟩, ?_⟩
  · cases hstart
    obtain ⟨k, hk, t, hl, hparts, -, -, hover⟩ :=
      hup.parted 8 _ (leads_of_running rfl) (by decide)
    obtain ⟨hrun, hout⟩ := hover 8 hk
    have hfinal : [1, 1] = (b.run .free 8 (.ofInput [] .closed)).console.output := rfl
    rw [hrun] at hfinal
    exact ⟨k, t, hl, hparts, (hfinal.trans hout).symm⟩
  · rcases (hsame 9 b' (by decide) hb').run 7 with ⟨_, _, hover⟩ | heq
    · exact nomatch hover
    · exact heq

end Machine
end Brainfuck

import Brainfuck.Proofs.Course

/-!
# Safety of a run

Wherever a run goes, the position stays within the program or right behind it, the pointer stays
on the tape, the tape keeps its policy and, if it is bounded, its size, and no cell to the right
of all that the pointer has visited is anything but zero. Every jump that is taken has a target,
and no run ends with the fault of a bracket.
-/
namespace Brainfuck.Machine
open Supervision

/-- What holds of every state of a run, given those before it. -/
structure Safe (program : Program) (memory : Nat) (policy : Policy) (past : List State)
    (s : State) : Prop where
  position_le : s.position ≤ program.size
  size_pos : 0 < s.tape.size
  pointer_lt : s.tape.pointer < s.tape.size
  policy_eq : s.tape.policy = policy
  size_eq : policy = .bounded → s.tape.size = max 1 memory
  /-- Cells to the right of the rightmost visited one are zero. -/
  blank_beyond : ∀ i, (∀ t ∈ s :: past, t.tape.pointer < i) → s.tape.cell i = 0

/-- A bracket at which the cell asks for a jump. -/
def TakesJump (m : Machine) (s : State) : Prop :=
  m.program.command? s.position = some .loopStart ∧ s.tape.current = 0 ∨
    m.program.command? s.position = some .loopEnd ∧ s.tape.current ≠ 0

variable {m : Machine} {control : Control} {console : Console} {past : List State} {s t : State}
  {program : Program} {memory : Nat} {policy : Policy}

/-- Safety is a matter of position and tape. -/
theorem Safe.of_same_place (h : Safe program memory policy past s)
    (hp : t.position = s.position) (ht : t.tape = s.tape) :
    Safe program memory policy past t where
  position_le := hp ▸ h.position_le
  size_pos := ht ▸ h.size_pos
  pointer_lt := ht ▸ h.pointer_lt
  policy_eq := ht ▸ h.policy_eq
  size_eq := ht ▸ h.size_eq
  blank_beyond i hi := by
    rw [ht]
    apply h.blank_beyond i
    intro u hu
    rcases List.mem_cons.mp hu with rfl | hu
    · rw [← ht]
      exact hi t List.mem_cons_self
    · exact hi u (List.mem_cons_of_mem t hu)

theorem safe_start (h : m.start console = .ok s) :
    Safe m.program m.memory m.policy [] s := by
  unfold start at h
  split at h
  · next tape htape =>
    cases h
    obtain ⟨hpointer, hsize, hpolicy⟩ := Tape.blank_eq_ok htape
    refine ⟨Nat.zero_le _, ?_, tape.pointer_lt_size, hpolicy, fun _ => hsize,
      fun i _ => Tape.cell_blank htape i⟩
    exact Nat.lt_of_le_of_lt (Nat.zero_le _) tape.pointer_lt_size
  · exact nomatch h

/-- One step keeps a run safe. -/
theorem Safe.step (h : Safe m.program m.memory m.policy past s)
    (hs : m.step control s = .next t) : Safe m.program m.memory m.policy (s :: past) t := by
  obtain ⟨hpos, htape⟩ := step_next hs
  refine ⟨hpos, Nat.lt_of_le_of_lt (Nat.zero_le _) t.tape.pointer_lt_size,
    t.tape.pointer_lt_size, ?_, ?_, ?_⟩
  · rcases htape with heq | ⟨op, hop⟩
    · rw [heq, h.policy_eq]
    · rw [(Tape.policy_attempt hop).1, h.policy_eq]
  · intro hb
    rcases htape with heq | ⟨op, hop⟩
    · rw [heq, h.size_eq hb]
    · rw [(Tape.policy_attempt hop).2 (h.policy_eq.trans hb), h.size_eq hb]
  · intro i hi
    have hz : s.tape.cell i = 0 := h.blank_beyond i fun u hu => hi u (List.mem_cons_of_mem t hu)
    have hlt : s.tape.pointer < i := hi s (List.mem_cons_of_mem t List.mem_cons_self)
    rcases htape with heq | ⟨op, hop⟩
    · rw [heq, hz]
    · rw [Tape.cell_attempt hop (Nat.ne_of_gt hlt), hz]

theorem Course.safe (h : m.Course control console past s) :
    Safe m.program m.memory m.policy past s := by
  induction h with
  | start h => exact safe_start h
  | flag raised _ ih => exact ih.of_same_place rfl rfl
  | step _ hs ih => exact ih.step hs

theorem exists_partner_of_takesJump (h : m.TakesJump s) :
    (m.pairing.partner? s.position).isSome := by
  obtain ⟨c, hc, hb⟩ : ∃ c, m.program.command? s.position = some c ∧ c.isBracket := by
    rcases h with ⟨hc, -⟩ | ⟨hc, -⟩
    · exact ⟨_, hc, rfl⟩
    · exact ⟨_, hc, rfl⟩
  obtain ⟨j, hj, -⟩ := exists_partner hc hb
  exact Option.isSome_of_eq_some hj

/-- An objection is never the fault of a bracket. -/
theorem kind_of_objection {fault : Fault} (h : control.objection? s = some fault) :
    fault.kind = .aborted := by
  cases control with
  | free => exact nomatch h
  | watched limit =>
    simp only [Control.objection?] at h
    split at h
    · cases h
      rfl
    · split at h
      · split at h
        · cases h
          rfl
        · exact nomatch h
      · exact nomatch h

theorem Ends.kind_ne_bracket {final : State} {fault : Fault}
    (h : m.Ends control console past s (some fault) final) : fault.kind ≠ .bracket := by
  rcases h.result_cases with ⟨t, hstep⟩ | ⟨-, reason, rfl⟩
  · rcases (step_failed hstep).2.2 with ho | ⟨c, -, hf⟩
    · rw [kind_of_objection ho]
      decide
    · cases hf <;> exact nofun
  · exact nofun

/-- Every state that a run of a loaded machine reaches is safe, every jump that it takes has a
target, and it never ends with the fault of a bracket. -/
theorem reachable_states_safe {source : String} {memory : Nat} {policy : Policy} {m : Machine}
    (hload : load source memory policy = .ok m) (control : Control) (console : Console) :
    (∃ s, m.start console = .ok s) ∧
      (∀ past s, m.Course control console past s →
        Safe (Program.parse source) memory policy past s ∧
          (m.TakesJump s → (m.pairing.partner? s.position).isSome) ∧
          ∀ t, m.step control s = .waiting t →
            Safe (Program.parse source) memory policy past t) ∧
      (∀ past s result final, m.Ends control console past s result final →
        Safe (Program.parse source) memory policy past final ∧
          ∀ index offset, result ≠ some (.unclosedLoop index offset) ∧
            result ≠ some (.unopenedLoop index offset)) ∧
      ∀ fuel result final, m.run control fuel console = .ended result final →
        ∃ past s, m.Ends control console past s result final := by
  obtain ⟨hprog, rfl, rfl, hmem⟩ := load_eq_ok hload
  rw [← hprog]
  refine ⟨?_, fun past s hc => ⟨hc.safe, exists_partner_of_takesJump, fun t ht => ?_⟩,
    fun past s result final he => ⟨?_, fun index offset => ⟨?_, ?_⟩⟩, fun _ _ _ => ends_of_run⟩
  · obtain ⟨tape, -, hs⟩ := exists_start hmem console
    exact ⟨_, hs⟩
  · obtain ⟨hp, htape⟩ := step_waiting ht
    exact hc.safe.of_same_place hp htape
  · obtain ⟨hp, htape⟩ := he.same_place
    exact he.course.safe.of_same_place hp htape
  · rintro rfl
    exact he.kind_ne_bracket rfl
  · rintro rfl
    exact he.kind_ne_bracket rfl

/-- A run on two cells that loops and then leaves the tape on its left. -/
theorem safe_until_underflow :
    ∃ m, load ">+[-]<<" 2 .bounded = .ok m ∧
      ∃ past s final,
        m.Ends (.watched (some 20)) (.ofInput [] .closed) past s (some (.underflow 6)) final ∧
          Safe (Program.parse ">+[-]<<") 2 .bounded past final := by
  let m : Machine :=
    ⟨Program.parse ">+[-]<<", ⟨#[none, none, some 4, none, some 2, none, none]⟩, 2, .bounded, rfl⟩
  have hm : load ">+[-]<<" 2 .bounded = .ok m := rfl
  obtain ⟨-, -, hsafe, hrun⟩ :=
    reachable_states_safe hm (.watched (some 20)) (.ofInput [] .closed)
  obtain ⟨past, s, he⟩ := hrun 8 (some (.underflow 6)) _ rfl
  exact ⟨m, hm, past, s, _, he, (hsafe past s _ _ he).1⟩

end Brainfuck.Machine

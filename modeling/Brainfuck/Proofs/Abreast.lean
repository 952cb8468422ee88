import Brainfuck.Proofs.Culprit
import Brainfuck.Proofs.Endless

/-!
# Runs side by side

Two machines with one program, each with a tape of its own, take their steps together. As long
as both find room for what they do, they are at the same place of the same tape without end,
and have made the same calls. On growable tapes that is as long as no more cells are refused,
and so the size that a growable tape starts with shows in nothing but its size.
-/
namespace Brainfuck

theorem Progress.eq_next_of_endless {progress : Progress} {e : Endless.State}
    (h : progress.endless = .next e) : ∃ s, progress = .next s := by
  cases progress with
  | next s => exact ⟨s, rfl⟩
  | _ => exact nomatch h

/-- A tape that has to grow is refused more cells, but only when more than half of all the cells
that a tape can have are in use. -/
def State.Exhausted (s : State) (fault : Fault) : Prop :=
  (∃ cells, fault = .refused cells) ∧ Tape.capacity < 2 * (s.tape.pointer + 1)

def Progress.Exhausted : Progress → Prop
  | .failed fault s => s.Exhausted fault
  | _ => False

namespace Machine
open Supervision

def Stop.Exhausted : Stop → Prop
  | .ended (some fault) s => s.Exhausted fault
  | _ => False

def Outcome.Exhausted : Outcome → Prop
  | .ended (some fault) s => s.Exhausted fault
  | _ => False

theorem Stop.Exhausted.outcome {x : Stop} (h : x.Exhausted) : x.outcome.Exhausted := by
  rcases x with ⟨_ | fault, s⟩ | s | s
  · exact h.elim
  · exact h
  · exact h.elim
  · exact h.elim

variable {m m₁ m₂ : Machine} {control : Control} {console : Console} {s t s₁ s₂ : State}

/-- Two machines that were started on the same console and take every step together. When others
raise the stop flag or take it back, both take notice. -/
inductive Abreast (m₁ m₂ : Machine) (control : Control) (console : Console) :
    State → State → Prop where
  | start {s₁ s₂ : State} (first : m₁.start console = .ok s₁)
      (second : m₂.start console = .ok s₂) : Abreast m₁ m₂ control console s₁ s₂
  | flag {s₁ s₂ : State} (raised : Bool) (before : Abreast m₁ m₂ control console s₁ s₂) :
      Abreast m₁ m₂ control console (Worker.notice raised s₁) (Worker.notice raised s₂)
  | step {s₁ s₂ t₁ t₂ : State} (before : Abreast m₁ m₂ control console s₁ s₂)
      (first : m₁.step control s₁ = .next t₁) (second : m₂.step control s₂ = .next t₂) :
      Abreast m₁ m₂ control console t₁ t₂

theorem Abreast.course_left (h : Abreast m₁ m₂ control console s₁ s₂) :
    ∃ past, m₁.Course control console past s₁ := by
  induction h with
  | start first _ => exact ⟨[], .start first⟩
  | flag raised _ ih =>
    obtain ⟨past, hc⟩ := ih
    exact ⟨past, .flag raised hc⟩
  | @step s₁ _ _ _ _ first _ ih =>
    obtain ⟨past, hc⟩ := ih
    exact ⟨s₁ :: past, .step hc first⟩

theorem Abreast.symm (h : Abreast m₁ m₂ control console s₁ s₂) :
    Abreast m₂ m₁ control console s₂ s₁ := by
  induction h with
  | start first second => exact .start second first
  | flag raised _ ih => exact .flag raised ih
  | step _ first second ih => exact .step ih second first

theorem Abreast.course_right (h : Abreast m₁ m₂ control console s₁ s₂) :
    ∃ past, m₂.Course control console past s₂ :=
  h.symm.course_left

/-- A program has one pairing only. -/
theorem pairing_eq (h : m₁.program = m₂.program) : m₁.pairing = m₂.pairing :=
  Except.ok.inj (m₁.paired.symm.trans (h ▸ m₂.paired))

/-- Two steps from the same place are the same, if there is room for both. -/
theorem endless_step_eq (hp : m₁.program = m₂.program) (he : s₁.endless = s₂.endless)
    (h₁ : ¬ m₁.AtEdge control s₁) (h₂ : ¬ m₂.AtEdge control s₂) :
    (m₁.step control s₁).endless = (m₂.step control s₂).endless := by
  rw [endless_step h₁, endless_step h₂, he, hp, pairing_eq hp]

theorem Abreast.endless_eq (h : Abreast m₁ m₂ control console s₁ s₂)
    (hp : m₁.program = m₂.program) : s₁.endless = s₂.endless := by
  induction h with
  | start first second => rw [endless_start first, endless_start second]
  | @flag s₁ s₂ raised _ ih =>
    exact congrArg
      (fun e : Endless.State => { e with console := { e.console with cancelled := raised } }) ih
  | step _ first second ih =>
    have he := endless_step_eq hp ih (not_atEdge_of_next first) (not_atEdge_of_next second)
    rw [first, second] at he
    exact Endless.Progress.next.inj he

/-- Where the second of two machines goes, the first one goes too, unless it finds no room. -/
theorem Abreast.follow {n : Nat} {t₂ : State} (h : Abreast m₁ m₂ control console s₁ s₂)
    (hp : m₁.program = m₂.program) (hl : m₂.Leads control n s₂ t₂) :
    (∃ k < n, ∃ u, m₁.Leads control k s₁ u ∧ m₁.AtEdge control u) ∨
      ∃ t₁, m₁.Leads control n s₁ t₁ ∧ Abreast m₁ m₂ control console t₁ t₂ := by
  induction hl generalizing s₁ with
  | refl => exact .inr ⟨s₁, .refl s₁, h⟩
  | @cons n _ _ _ second _ ih =>
    by_cases hedge : m₁.AtEdge control s₁
    · exact .inl ⟨0, Nat.succ_pos n, s₁, .refl s₁, hedge⟩
    · have he := endless_step_eq hp (h.endless_eq hp) hedge (not_atEdge_of_next second)
      rw [second] at he
      obtain ⟨t₁, first⟩ := Progress.eq_next_of_endless he
      rcases ih (.step h first second) with ⟨k, hk, u, hl, hu⟩ | ⟨v, hl, hv⟩
      · exact .inl ⟨k + 1, Nat.succ_lt_succ hk, u, .cons first hl, hu⟩
      · exact .inr ⟨v, .cons first hl, hv⟩

theorem Leads.policy_eq {n : Nat} (h : m.Leads control n s t) :
    t.tape.policy = s.tape.policy := by
  induction h with
  | refl => rfl
  | cons hs _ ih =>
    rw [ih]
    rcases (step_next hs).2 with htape | ⟨op, hop⟩
    · rw [htape]
    · exact (Tape.policy_attempt hop).1

theorem AtEdge.exhausted (h : m.AtEdge control s) (hs : s.tape.policy = .growable) :
    ∃ fault, m.step control s = .failed fault s ∧ s.Exhausted fault := by
  obtain ⟨edge, ⟨hb, -⟩ | ⟨-, excess, cells, hstep⟩⟩ := h.step_eq
  · exact nomatch hs.symm.trans hb
  · refine ⟨_, hstep, ⟨cells, rfl⟩, ?_⟩
    simp only [Tape.grownSize] at excess
    omega

/-- On a growable tape the commands go as on the tape without end, unless it is exhausted. -/
theorem execute_growable (m : Machine) (control : Control) (hs : s.tape.policy = .growable)
    (fuel : Nat) :
    (m.execute control fuel s).Exhausted ∨
      (m.execute control fuel s).endless =
        Endless.execute m.program m.pairing control fuel s.endless := by
  rcases m.endless_execute control fuel s with ⟨k, hk, t, hl, hedge⟩ | heq
  · obtain ⟨fault, hstep, hex⟩ := hedge.exhausted (hl.policy_eq.trans hs)
    rw [hl.execute_of_failed hstep hk]
    exact .inl hex
  · exact .inr heq

/-- From any moment on, whatever was done to the stop flag before. -/
theorem Course.outcome_growable {past : List State} (hc : m.Course control console past s)
    (hm : m.policy = .growable) (fuel : Nat) :
    (m.execute control fuel s).outcome.Exhausted ∨
      (m.execute control fuel s).outcome.endless? =
        some (Endless.finish (Endless.execute m.program m.pairing control fuel s.endless)) := by
  rcases m.execute_growable control (hc.safe.policy_eq.trans hm) fuel with hex | heq
  · exact .inl hex.outcome
  · rw [Stop.endless_outcome, heq]
    exact .inr rfl

/-- All that a machine does, it does as on the tape without end, unless its tape is exhausted. -/
structure OnEndless (m : Machine) (program : Program) (pairing : Pairing) (control : Control)
    (console : Console) : Prop where
  run : ∀ fuel, (m.run control fuel console).Exhausted ∨
    (m.run control fuel console).endless? =
      some (Endless.run program pairing control fuel console)
  resumed : ∀ past s, m.Course control console past s → ∀ fuel,
    (m.execute control fuel s).outcome.Exhausted ∨
      (m.execute control fuel s).outcome.endless? =
        some (Endless.finish (Endless.execute program pairing control fuel s.endless))
  no_overflow : ∀ past s result final, m.Ends control console past s result final →
    ∀ position pointer limit, result ≠ some (.overflow position pointer limit)

theorem onEndless_of_growable (hm : m.policy = .growable) (hmem : m.memory ≤ maxMemory)
    (control : Control) (console : Console) :
    m.OnEndless m.program m.pairing control console where
  run fuel := by
    obtain ⟨tape, -, hstart⟩ := exists_start hmem console
    rw [run_of_start hstart, Endless.run, ← endless_start hstart]
    exact (Course.start hstart).outcome_growable hm fuel
  resumed _ _ hc fuel := hc.outcome_growable hm fuel
  no_overflow := by
    rintro past s _ final he position pointer limit rfl
    obtain ⟨-, -, hbounded, -⟩ := he.runBlames
    exact nomatch hm.symm.trans hbounded

/-- A growable tape is the tape without end, whatever the size that it starts with. -/
theorem growable_tape_is_endless {source : String} {size₁ size₂ : Nat} {m₁ m₂ : Machine}
    (h₁ : load source size₁ .growable = .ok m₁) (h₂ : load source size₂ .growable = .ok m₂)
    (control : Control) (console : Console) :
    ∃ pairing, Pairing.ofProgram (Program.parse source) = .ok pairing ∧
      m₁.OnEndless (Program.parse source) pairing control console ∧
      m₂.OnEndless (Program.parse source) pairing control console ∧
      (∀ s₁ s₂, Abreast m₁ m₂ control console s₁ s₂ → s₁.endless = s₂.endless ∧
        ((m₁.step control s₁).Exhausted ∨ (m₂.step control s₂).Exhausted ∨
          (m₁.step control s₁).endless = (m₂.step control s₂).endless)) ∧
      ∀ fuel, (m₁.run control fuel console).Exhausted ∨
        (m₂.run control fuel console).Exhausted ∨
        (m₁.run control fuel console).endless? = (m₂.run control fuel console).endless? := by
  obtain ⟨hprog₁, rfl, hpol₁, hmem₁⟩ := load_eq_ok h₁
  obtain ⟨hprog₂, rfl, hpol₂, hmem₂⟩ := load_eq_ok h₂
  have hp : m₁.program = m₂.program := hprog₁.trans hprog₂.symm
  have hon₁ := onEndless_of_growable hpol₁ hmem₁ control console
  have hon₂ := onEndless_of_growable hpol₂ hmem₂ control console
  rw [← pairing_eq hp, ← hp] at hon₂
  rw [← hprog₁]
  refine ⟨m₁.pairing, m₁.paired, hon₁, hon₂, fun s₁ s₂ h => ?_, fun fuel => ?_⟩
  · have he := h.endless_eq hp
    refine ⟨he, ?_⟩
    obtain ⟨_, hc₁⟩ := h.course_left
    obtain ⟨_, hc₂⟩ := h.course_right
    by_cases hedge₁ : m₁.AtEdge control s₁
    · obtain ⟨fault, hstep, hex⟩ := hedge₁.exhausted (hc₁.safe.policy_eq.trans hpol₁)
      rw [hstep]
      exact .inl hex
    by_cases hedge₂ : m₂.AtEdge control s₂
    · obtain ⟨fault, hstep, hex⟩ := hedge₂.exhausted (hc₂.safe.policy_eq.trans hpol₂)
      rw [hstep]
      exact .inr (.inl hex)
    exact .inr (.inr (endless_step_eq hp he hedge₁ hedge₂))
  · rcases hon₁.run fuel with hr | he₁
    · exact .inl hr
    rcases hon₂.run fuel with hr | he₂
    · exact .inr (.inl hr)
    rw [he₁, he₂]
    exact .inr (.inr rfl)

/-- Three moves to the right, on a tape that has to grow twice and on one that has room: the
tapes differ in nothing but their size. -/
theorem endless_from_one_cell_or_nine :
    ∃ m₁ m₂, load ">+[>+>]<." 0 .growable = .ok m₁ ∧ load ">+[>+>]<." 9 .growable = .ok m₂ ∧
      ∃ s₁ s₂, m₁.run .free 10 (.ofInput [] .closed) = .ended none s₁ ∧
        m₂.run .free 10 (.ofInput [] .closed) = .ended none s₂ ∧
        s₁.endless = s₂.endless ∧ s₁.tape.size = 4 ∧ s₂.tape.size = 9 ∧
        s₁.console.output = [1] := by
  let p := Program.parse ">+[>+>]<."
  let pairing : Pairing := ⟨#[none, none, some 6, none, none, none, some 2, none, none]⟩
  let m₁ : Machine := ⟨p, pairing, 0, .growable, rfl⟩
  let m₂ : Machine := ⟨p, pairing, 9, .growable, rfl⟩
  have hm₁ : load ">+[>+>]<." 0 .growable = .ok m₁ := rfl
  have hm₂ : load ">+[>+>]<." 9 .growable = .ok m₂ := rfl
  obtain ⟨-, -, -, -, -, hrun⟩ :=
    growable_tape_is_endless hm₁ hm₂ .free (.ofInput [] .closed)
  refine ⟨m₁, m₂, hm₁, hm₂, _, _, rfl, rfl, ?_, rfl, rfl, rfl⟩
  rcases hrun 10 with hex | hex | he
  · exact False.elim hex
  · exact False.elim hex
  · exact (Endless.Stop.ended.inj (Option.some.inj he)).2

end Machine
end Brainfuck

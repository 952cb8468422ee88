import Brainfuck.Proofs.Comments
import Brainfuck.Proofs.Course

/-!
# Programs one behind the other

Two texts with balanced brackets, written one behind the other, are one program: the commands of
the second text follow those of the first, and so do the pairs of their brackets, each at a place
further on. No jump leads from one part into the other. So the machine of both texts runs as that of
the first one until this is at its end, and then as that of the second one, on the tape and with the
console that the first one leaves behind.
-/
namespace Brainfuck

/-- The same command, so many characters further on. -/
def Instruction.shift (n : Nat) (i : Instruction) : Instruction := ⟨i.command, i.offset + n⟩

/-- The same fault of a command so many places further on. -/
def Fault.shift (n : Nat) : Fault → Fault
  | .unclosedLoop index offset => .unclosedLoop (index + n) offset
  | .unopenedLoop index offset => .unopenedLoop (index + n) offset
  | .underflow position => .underflow (position + n)
  | .overflow position pointer limit => .overflow (position + n) pointer limit
  | .io position reason => .io (position + n) reason
  | .refused cells => .refused cells
  | .stepLimit limit => .stepLimit limit
  | .cancelled => .cancelled

namespace Program

theorem instruction?_shift (a : Char) (k n : Nat) :
    instruction? (a, n + k) = (instruction? (a, k)).map (Instruction.shift n) := by
  cases h : Command.ofChar? a <;> simp [instruction?, h, Instruction.shift, Nat.add_comm]

/-- A text behind another one gives its commands at places further on. -/
theorem instructions_parse_append (a b : String) :
    (parse (a ++ b)).instructions =
      (parse a).instructions ++ (parse b).instructions.map (Instruction.shift a.length) := by
  have hbehind : (b.toList.zipIdx a.length).filterMap instruction? =
      (b.toList.zipIdx.filterMap instruction?).map (Instruction.shift a.length) := by
    rw [List.zipIdx_eq_map_add, List.filterMap_map, List.map_filterMap]
    congr 1
    funext numbered
    exact instruction?_shift numbered.1 numbered.2 a.length
  rw [← String.length_toList] at hbehind ⊢
  simp [parse, List.zipIdx_append, List.filterMap_append, hbehind]

theorem commands_parse_append (a b : String) :
    (parse (a ++ b)).commands = (parse a).commands ++ (parse b).commands := by
  simp only [commands_parse, String.toList_append, List.filterMap_append]

end Program

theorem Brackets.Encloses.shift {u v : List Command} {i j : Nat} (h : Encloses v i j) :
    Encloses (u ++ v) (i + u.length) (j + u.length) := by
  have hat (k : Nat) : (u ++ v)[k + u.length]? = v[k]? := by
    rw [List.getElem?_append_right (by omega), Nat.add_sub_cancel]
  have hinside : ((u ++ v).take (j + u.length)).drop (i + u.length + 1) =
      (v.take j).drop (i + 1) := by
    have hpast : i + u.length + 1 = u.length + (i + 1) := by omega
    rw [Nat.add_comm j, List.take_length_add_append, hpast, List.drop_length_add_append]
  refine ⟨Nat.add_lt_add_right h.lt _, ?_, ?_, ?_⟩
  · rw [hat, h.opening]
  · rw [hat, h.closing]
  · rw [hinside]
    exact h.inside

namespace Pairing
open Brackets

variable {a b : List Command} {t u : Pairing}

theorem Partners.append {i j : Nat} (h : Partners a i j) : Partners (a ++ b) i j := by
  rcases h with h | h
  · exact .inl ((Encloses.append_iff h.lt_length).mpr h)
  · exact .inr ((Encloses.append_iff h.lt_length).mpr h)

theorem Partners.shift {i j : Nat} (h : Partners b i j) :
    Partners (a ++ b) (i + a.length) (j + a.length) := by
  rcases h with h | h
  · exact .inl h.shift
  · exact .inr h.shift

/-- A table, and behind it another one with all its places further on. -/
def append (t u : Pairing) : Pairing :=
  ⟨t.partners ++ u.partners.map (Option.map (· + t.partners.size))⟩

theorem partner?_append_left {i : Nat} (h : i < t.partners.size) :
    (t.append u).partner? i = t.partner? i := by
  rw [partner?, append, Array.getElem?_append_left h, partner?]

theorem partner?_append_right (i : Nat) :
    (t.append u).partner? (i + t.partners.size) = (u.partner? i).map (· + t.partners.size) := by
  rw [partner?, append, Array.getElem?_append_right (by omega), Nat.add_sub_cancel,
    Array.getElem?_map, partner?]
  cases u.partners[i]? <;> simp

/-- It is enough to know a partner of every bracket. -/
theorem eq_partner?_of_partners {w : List Command} (ht : ofCommands w = .ok t)
    {f : Nat → Option Nat} (hp : ∀ i j, f i = some j → Partners w i j)
    (hs : ∀ i c, w[i]? = some c → c.isBracket → (f i).isSome) : f = t.partner? := by
  funext i
  apply Option.ext
  intro j
  rw [partner?_eq_some_iff ht]
  refine ⟨hp i j, fun hij => ?_⟩
  obtain ⟨c, hc, hb⟩ := (exists_partners_iff (balanced_of_ofCommands ht)).mp ⟨j, hij⟩
  obtain ⟨k, hk⟩ := Option.isSome_iff_exists.mp (hs i c hc hb)
  rw [hk, (hp i k hk).unique hij]

theorem ofCommands_append (ha : ofCommands a = .ok t) (hb : ofCommands b = .ok u) :
    ofCommands (a ++ b) = .ok (t.append u) := by
  have hsize := size_of_ofCommands ha
  obtain ⟨v, hv⟩ := ofCommands_eq_ok_iff.mpr
    ((balanced_of_ofCommands ha).append (balanced_of_ofCommands hb))
  rw [hv]
  congr 1
  apply eq_of_partner?_eq
  · simp [size_of_ofCommands hv, append, hsize, size_of_ofCommands hb]
  refine (eq_partner?_of_partners hv (fun i j hij => ?_) (fun i c hc hbr => ?_)).symm
  · rcases Nat.lt_or_ge i t.partners.size with hi | hi
    · rw [partner?_append_left hi, partner?_eq_some_iff ha] at hij
      exact hij.append
    · obtain ⟨k, rfl⟩ := Nat.exists_eq_add_of_le' hi
      rw [partner?_append_right] at hij
      obtain ⟨l, hl, rfl⟩ := Option.map_eq_some_iff.mp hij
      rw [hsize]
      exact ((partner?_eq_some_iff hb).mp hl).shift
  · rcases Nat.lt_or_ge i t.partners.size with hi | hi
    · rw [List.getElem?_append_left (hsize ▸ hi)] at hc
      rw [partner?_append_left hi]
      exact ((isMatching_partner? ha).isSome_iff i).mpr ⟨c, hc, hbr⟩
    · obtain ⟨k, rfl⟩ := Nat.exists_eq_add_of_le' hi
      rw [hsize, List.getElem?_append_right (by omega), Nat.add_sub_cancel] at hc
      rw [partner?_append_right, Option.isSome_map]
      exact ((isMatching_partner? hb).isSome_iff k).mpr ⟨c, hc, hbr⟩

end Pairing

/-- The same state so many places and steps further on. -/
def State.shift (places steps : Nat) (s : State) : State :=
  ⟨s.tape, s.position + places, s.steps + steps, s.console⟩

/-- What one program leaves to the next: its tape and its console. -/
def State.handOver (s : State) : State := ⟨s.tape, 0, 0, s.console⟩

theorem State.shift_handOver (s : State) : s.handOver.shift s.position s.steps = s := by
  simp [handOver, shift]

namespace Effect

/-- The same effect of a command so many places further on. -/
def shift (places : Nat) : Effect → Effect
  | .done tape console => .done tape console
  | .failed fault tape console => .failed (fault.shift places) tape console
  | .waiting tape console => .waiting tape console

variable (n position : Nat) (tape : Tape) (console : Console)

theorem ofMove_shift (result : Tape × Option Tape.Obstacle) :
    ofMove (position + n) console result = (ofMove position console result).shift n := by
  rcases result with ⟨tape', _ | obstacle⟩
  · rfl
  · cases obstacle <;> rfl

theorem ofWrite_shift (result : Console × Option Failure) :
    ofWrite (position + n) tape result = (ofWrite position tape result).shift n := by
  rcases result with ⟨console', _ | failure⟩ <;> rfl

theorem ofRead_shift (result : Console × Reading) :
    ofRead (position + n) tape result = (ofRead position tape result).shift n := by
  rcases result with ⟨console', value | _ | failure | _⟩ <;> rfl

/-- A command shows its place in its faults only. -/
theorem act_shift (c : Command) :
    c.act (position + n) tape console = (c.act position tape console).shift n := by
  cases c with
  | right => exact ofMove_shift n position console _
  | left => exact ofMove_shift n position console _
  | output => exact ofWrite_shift n position tape _
  | input =>
    simp only [Command.act]
    rcases console.flush with ⟨console', _ | failure⟩
    · exact ofRead_shift n position tape _
    · rfl
  | increment | decrement | loopStart | loopEnd => rfl

end Effect

/-- The same progress so many places and steps further on. -/
def Progress.shift (places steps : Nat) : Progress → Progress
  | .next s => .next (s.shift places steps)
  | .halted s => .halted (s.shift places steps)
  | .failed fault s => .failed (fault.shift places) (s.shift places steps)
  | .waiting s => .waiting (s.shift places steps)

namespace Machine

/-- The same stop so many places and steps further on. -/
def Stop.shift (places steps : Nat) : Stop → Stop
  | .ended fault s => .ended (fault.map (Fault.shift places)) (s.shift places steps)
  | .waiting s => .waiting (s.shift places steps)
  | .running s => .running (s.shift places steps)

theorem afterEffect_shift (n k position steps : Nat) (effect : Effect) :
    afterEffect (position + n) (steps + k) (effect.shift n) =
      (afterEffect position steps effect).shift n k := by
  cases effect <;> simp [afterEffect, Effect.shift, Progress.shift, State.shift, Nat.add_right_comm]

/-- A run that comes to its end has made its steps and is behind the last command. -/
theorem leads_of_ended {m : Machine} {control : Control} {s t : State} {n : Nat}
    (h : m.execute control n s = .ended none t) :
    ∃ k, m.Leads control k s t ∧ m.program.size ≤ t.position := by
  induction n generalizing s with
  | zero => cases h
  | succ n ih =>
    rw [execute] at h
    cases hs : m.step control s with
    | next u =>
      rw [hs] at h
      obtain ⟨k, hleads, hend⟩ := ih h
      exact ⟨k + 1, .cons hs hleads, hend⟩
    | halted u =>
      rw [hs] at h
      cases h
      obtain ⟨rfl, hend⟩ := step_halted hs
      exact ⟨0, .refl _, hend⟩
    | failed fault u | waiting u =>
      rw [hs] at h
      cases h

theorem size_pairing (m : Machine) : m.pairing.partners.size = m.program.size := by
  rw [Pairing.size_of_ofCommands m.ofCommands_program, Program.length_commands]

/-- A machine whose commands are those of two others, one behind the other. -/
def Joins (first second whole : Machine) : Prop :=
  whole.program.commands = first.program.commands ++ second.program.commands

namespace Joins

variable {first second whole : Machine} {s t : State} {n : Nat}

theorem pairing_eq (h : Joins first second whole) :
    whole.pairing = first.pairing.append second.pairing := by
  have hpair := whole.ofCommands_program
  rw [h, Pairing.ofCommands_append first.ofCommands_program second.ofCommands_program] at hpair
  exact (Except.ok.inj hpair).symm

theorem command?_first (h : Joins first second whole) {i : Nat} (hi : i < first.program.size) :
    whole.program.command? i = first.program.command? i := by
  rw [← Program.commands_getElem?, h, List.getElem?_append_left (by simpa using hi),
    Program.commands_getElem?]

theorem command?_second (h : Joins first second whole) (i : Nat) :
    whole.program.command? (i + first.program.size) = second.program.command? i := by
  rw [← Program.commands_getElem?, h, List.getElem?_append_right (by simp),
    Program.length_commands, Nat.add_sub_cancel, Program.commands_getElem?]

theorem partner?_first (h : Joins first second whole) {i : Nat} (hi : i < first.program.size) :
    whole.pairing.partner? i = first.pairing.partner? i := by
  rw [h.pairing_eq, Pairing.partner?_append_left (size_pairing first ▸ hi)]

theorem partner?_second (h : Joins first second whole) (i : Nat) :
    whole.pairing.partner? (i + first.program.size) =
      (second.pairing.partner? i).map (· + first.program.size) := by
  rw [h.pairing_eq, ← size_pairing first, Pairing.partner?_append_right]

/-- Within the first program a step is one of the first machine. -/
theorem step_first (h : Joins first second whole) (hs : s.position < first.program.size) :
    whole.step .free s = first.step .free s := by
  have hsame := h.command?_first hs
  cases hc : first.program.command? s.position with
  | none => exact absurd (Program.command?_eq_none_iff.mp hc) (Nat.not_le.mpr hs)
  | some c =>
    rw [step_eq_perform hc rfl, step_eq_perform (hsame.trans hc) rfl]
    cases hb : c.isBracket with
    | false => rw [perform_plain hb, perform_plain hb]
    | true =>
      obtain ⟨target, ht, -⟩ := exists_partner hc hb
      have ht' := (h.partner?_first hs).trans ht
      rcases Pairing.isBracket_iff.mp hb with rfl | rfl
      · rw [perform_loopStart ht, perform_loopStart ht']
      · rw [perform_loopEnd ht, perform_loopEnd ht']

/-- Behind the first program a step is one of the second machine, further on. -/
theorem step_second (h : Joins first second whole) (k : Nat) (s : State) :
    whole.step .free (s.shift first.program.size k) =
      (second.step .free s).shift first.program.size k := by
  have hsame := h.command?_second s.position
  cases hc : second.program.command? s.position with
  | none =>
    rw [step_of_end hc, step_of_end (s := s.shift _ k) (hsame.trans hc)]
    rfl
  | some c =>
    rw [step_eq_perform hc rfl, step_eq_perform (s := s.shift _ k) (hsame.trans hc) rfl]
    cases hb : c.isBracket with
    | false =>
      rw [perform_plain hb, perform_plain hb, ← afterEffect_shift]
      exact congrArg _ (Effect.act_shift _ _ _ _ c)
    | true =>
      obtain ⟨target, ht, -⟩ := exists_partner hc hb
      have ht' := h.partner?_second s.position
      rw [ht, Option.map_some] at ht'
      rcases Pairing.isBracket_iff.mp hb with rfl | rfl
      · rw [perform_loopStart ht, perform_loopStart (s := s.shift _ k) ht']
        by_cases hz : s.tape.current = 0 <;>
          simp [Progress.shift, State.shift, hz, Nat.add_right_comm]
      · rw [perform_loopEnd ht, perform_loopEnd (s := s.shift _ k) ht']
        by_cases hz : s.tape.current = 0 <;>
          simp [Progress.shift, State.shift, hz, Nat.add_right_comm]

theorem execute_second (h : Joins first second whole) (k fuel : Nat) (s : State) :
    whole.execute .free fuel (s.shift first.program.size k) =
      (second.execute .free fuel s).shift first.program.size k := by
  induction fuel generalizing s with
  | zero => rfl
  | succ fuel ih =>
    rw [execute, execute, h.step_second]
    cases second.step .free s with
    | next t => exact ih t
    | halted t | failed fault t | waiting t => rfl

/-- The first machine takes its steps within its own program. -/
theorem leads_first (h : Joins first second whole) (hl : first.Leads .free n s t)
    (hs : s.position ≤ first.program.size) :
    whole.Leads .free n s t ∧ t.position ≤ first.program.size := by
  induction hl with
  | refl s => exact ⟨.refl s, hs⟩
  | @cons n s u t hstep _ ih =>
    have hlt : s.position < first.program.size := by
      by_contra hend
      have hnone := Program.command?_eq_none_iff.mpr (Nat.not_lt.mp hend)
      exact nomatch (step_of_end hnone).symm.trans hstep
    obtain ⟨hleads, hle⟩ := ih (step_next hstep).1
    exact ⟨.cons ((h.step_first hlt).trans hstep) hleads, hle⟩

/-- Until the first program is at its end, the run is one of the first machine. -/
theorem execute_first (h : Joins first second whole) {fuel : Nat}
    (hs : s.position ≤ first.program.size)
    (hend : ∀ t, first.execute .free fuel s ≠ .ended none t) :
    whole.execute .free fuel s = first.execute .free fuel s := by
  induction fuel generalizing s with
  | zero => rfl
  | succ fuel ih =>
    rcases Nat.lt_or_eq_of_le hs with hlt | heq
    · rw [execute] at hend
      rw [execute, execute, h.step_first hlt]
      cases hstep : first.step .free s with
      | next t =>
        rw [hstep] at hend
        exact ih (step_next hstep).1 hend
      | halted t | failed fault t | waiting t => rfl
    · have hnone := Program.command?_eq_none_iff.mpr (Nat.le_of_eq heq.symm)
      refine absurd ?_ (hend s)
      rw [execute, step_of_end hnone]

/-- The second program goes on where the first one came to its end. -/
theorem execute_add (h : Joins first second whole) (hs : s.position = 0) (hzero : s.steps = 0)
    (hend : first.execute .free n s = .ended none t) (fuel : Nat) :
    whole.execute .free (t.steps + fuel) s =
      (second.execute .free fuel t.handOver).shift first.program.size t.steps := by
  obtain ⟨k, hleads, hpast⟩ := leads_of_ended hend
  obtain ⟨hwhole, hle⟩ := h.leads_first hleads (hs ▸ Nat.zero_le _)
  have hk : t.steps = k := by rw [hleads.steps_eq, hzero, Nat.zero_add]
  have hplace : t = t.handOver.shift first.program.size t.steps := by
    rw [← Nat.le_antisymm hle hpast, t.shift_handOver]
  calc whole.execute .free (t.steps + fuel) s
      = whole.execute .free fuel t := by rw [hk, hwhole.execute_add]
    _ = whole.execute .free fuel (t.handOver.shift first.program.size t.steps) := by rw [← hplace]
    _ = _ := h.execute_second t.steps fuel t.handOver

end Joins

/-- One machine runs as two others in turn, when no control is kept. -/
structure RunsInTurn (first second whole : Machine) : Prop where
  starts : ∀ console, ∃ s, first.start console = .ok s ∧ whole.start console = .ok s
  /-- Until the first one ends well it is alone, also when it fails or waits. -/
  run_first : ∀ console s fuel, first.start console = .ok s →
    (∀ t, first.execute .free fuel s ≠ .ended none t) →
      whole.run .free fuel console = first.run .free fuel console
  /-- The second one goes on from there, and the last flush is made behind both. -/
  run_second : ∀ console s n t, first.start console = .ok s →
    first.execute .free n s = .ended none t → ∀ fuel,
      whole.run .free (t.steps + fuel) console =
        ((second.execute .free fuel t.handOver).shift first.program.size t.steps).outcome

theorem Joins.runsInTurn {first second whole : Machine} (h : Joins first second whole)
    (hmemory : whole.memory = first.memory) (hpolicy : whole.policy = first.policy)
    (hle : first.memory ≤ maxMemory) : RunsInTurn first second whole := by
  have hstart (console : Console) : whole.start console = first.start console := by
    rw [start, start, hmemory, hpolicy]
  refine ⟨fun console => ?_, fun console s fuel hs hend => ?_, fun console s n t hs hend fuel => ?_⟩
  · obtain ⟨tape, -, hs⟩ := exists_start hle console
    exact ⟨_, hs, (hstart console).trans hs⟩
  · obtain ⟨hpos, -, -⟩ := start_eq_ok hs
    rw [run_of_start hs, run_of_start ((hstart console).trans hs),
      h.execute_first (hpos ▸ Nat.zero_le _) hend]
  · obtain ⟨hpos, hzero, -⟩ := start_eq_ok hs
    rw [run_of_start ((hstart console).trans hs), h.execute_add hpos hzero hend]

open Brackets in
/-- Texts with balanced brackets, one behind the other: their commands and the pairs of their
brackets stand one behind the other too, and the machine of both texts runs as those of the two in
turn. -/
theorem concatenation_composes {a b : String} (ha : Balanced (Program.parse a).commands)
    (hb : Balanced (Program.parse b).commands) :
    (Program.parse (a ++ b)).instructions =
        (Program.parse a).instructions ++
          (Program.parse b).instructions.map (Instruction.shift a.length) ∧
      (∃ t u, Pairing.ofProgram (Program.parse a) = .ok t ∧
        Pairing.ofProgram (Program.parse b) = .ok u ∧
        Pairing.ofProgram (Program.parse (a ++ b)) = .ok (t.append u) ∧
        t.partners.size = (Program.parse a).size) ∧
      ∀ memory policy,
        (maxMemory < memory →
          ∀ source ∈ [a, b, a ++ b], load source memory policy = .error (.refused memory)) ∧
        (memory ≤ maxMemory → ∃ first second whole, load a memory policy = .ok first ∧
          load b memory policy = .ok second ∧ load (a ++ b) memory policy = .ok whole ∧
          RunsInTurn first second whole) := by
  obtain ⟨t, ht⟩ := Pairing.ofCommands_eq_ok_iff.mpr ha
  obtain ⟨u, hu⟩ := Pairing.ofCommands_eq_ok_iff.mpr hb
  have hjoined : Pairing.ofCommands (Program.parse (a ++ b)).commands = .ok (t.append u) := by
    rw [Program.commands_parse_append, Pairing.ofCommands_append ht hu]
  refine ⟨Program.instructions_parse_append a b, ⟨t, u, ?_⟩, fun memory policy =>
    ⟨fun hlarge source _ => load_of_too_large hlarge, fun hle => ?_⟩⟩
  · simp only [Pairing.ofProgram_eq_ok_iff]
    exact ⟨ht, hu, hjoined, by rw [Pairing.size_of_ofCommands ht, Program.length_commands]⟩
  · obtain ⟨first, h₁⟩ : ∃ m, load a memory policy = .ok m := exists_load hle ht
    obtain ⟨second, h₂⟩ : ∃ m, load b memory policy = .ok m := exists_load hle hu
    obtain ⟨whole, h₃⟩ : ∃ m, load (a ++ b) memory policy = .ok m := exists_load hle hjoined
    obtain ⟨hprogram₁, hmemory₁, hpolicy₁, -⟩ := load_eq_ok h₁
    obtain ⟨hprogram₂, -, -, -⟩ := load_eq_ok h₂
    obtain ⟨hprogram₃, hmemory₃, hpolicy₃, -⟩ := load_eq_ok h₃
    have hjoins : Joins first second whole := by
      rw [Joins, hprogram₁, hprogram₂, hprogram₃, Program.commands_parse_append]
    exact ⟨first, second, whole, h₁, h₂, h₃, hjoins.runsInTurn (hmemory₃.trans hmemory₁.symm)
      (hpolicy₃.trans hpolicy₁.symm) (hmemory₁ ▸ hle)⟩

/-- A loop carries a one to the next cell. The text behind it puts it out and then moves left of the
first cell, with a fault at a place that counts the commands of both. -/
theorem underflow_behind_loop :
    Brackets.Balanced (Program.parse "+[->+<]é").commands ∧
      Brackets.Balanced (Program.parse ">.<[]<").commands ∧
      ∃ first second whole, load "+[->+<]é" 2 .bounded = .ok first ∧
        load ">.<[]<" 2 .bounded = .ok second ∧
        load ("+[->+<]é" ++ ">.<[]<") 2 .bounded = .ok whole ∧ RunsInTurn first second whole ∧
        ∃ final, whole.run .free 14 (.ofInput [] .closed) = .ended (some (.underflow 12)) final ∧
          final.steps = 11 ∧ final.console.output = [1] := by
  have ha : Brackets.Balanced (Program.parse "+[->+<]é").commands := by decide
  have hb : Brackets.Balanced (Program.parse ">.<[]<").commands := by decide
  obtain ⟨-, -, hload⟩ := concatenation_composes ha hb
  obtain ⟨first, second, whole, h₁, h₂, h₃, hturn⟩ := (hload 2 .bounded).2 (by decide)
  refine ⟨ha, hb, first, second, whole, h₁, h₂, h₃, hturn, ?_⟩
  cases h₁
  cases h₂
  rw [hturn.run_second (.ofInput [] .closed) _ 8 _ rfl rfl 7]
  exact ⟨_, rfl, rfl, rfl⟩

end Machine
end Brainfuck

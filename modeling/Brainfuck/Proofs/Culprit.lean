import Brainfuck.Proofs.Caret
import Brainfuck.Proofs.Safety
import Brainfuck.Proofs.SourcePlaces

/-!
# Faults and their culprits

A fault points at the command that has it: a move to the left on the first cell, a move to the
right on the last cell of a bounded tape, a read or a write, a bracket without partner. Only the
last flush has no command to point at. In the report of such a fault the character above the
caret is the very character of the source that the command was read from.
-/
namespace Brainfuck
open Program Diagnostic Pairing

/-- What a fault says about a source text that cannot be loaded. -/
def Machine.LoadBlames (source : String) (memory : Nat) : Fault → Prop
  | .unclosedLoop index offset =>
    (parse source).command? index = some .loopStart ∧ StandsAt source index .loopStart offset
  | .unopenedLoop index offset =>
    (parse source).command? index = some .loopEnd ∧ StandsAt source index .loopEnd offset
  | fault => fault = .refused memory

/-- What the fault of a run says about the state that its command was executed in. -/
def Machine.RunBlames (program : Program) (memory : Nat) (policy : Policy) (s : State) :
    Fault → Prop
  | .underflow position =>
    position = s.position ∧ program.command? position = some .left ∧ s.tape.pointer = 0
  | .overflow position pointer limit =>
    position = s.position ∧ program.command? position = some .right ∧ policy = .bounded ∧
      pointer = s.tape.pointer ∧ pointer + 1 = limit ∧ limit = max 1 memory
  | .io position _ =>
    position = s.position ∧ (program.command? position = some .output ∨
      program.command? position = some .input ∨ position = program.size)
  | .unclosedLoop _ _ | .unopenedLoop _ _ => False
  | .refused _ | .stepLimit _ | .cancelled => True

/-- The commands that a fault can point at. -/
def Command.CanFail (c : Command) : Prop := c ≠ .increment ∧ c ≠ .decrement

/-- A fault is reported on one line, and, exactly when it has an instruction within the program,
with two lines of context that point at the command. -/
def Diagnostic.Reported (tool source : String) (fault : Fault) : Prop :=
  let report := render tool source (parse source) fault
  let heading := tool ++ ": " ++ fault.kind.label ++ ": " ++ fault.message ++ "\n"
  (∀ i < (parse source).size, fault.instruction? = some i →
    ∃ c offset lines, (parse source).command? i = some c ∧ c.CanFail ∧
      StandsAt source i c offset ∧ PointsAt lines source offset c.toChar ∧
      report = heading ++ lines) ∧
    ((∀ i < (parse source).size, fault.instruction? ≠ some i) → report = heading)

theorem Command.toChar_shown (c : Command) : c.toChar ≠ '\n' ∧ untab c.toChar = c.toChar := by
  cases c <;> decide

/-- The report of a fault whose place is that of a command. -/
theorem Diagnostic.reported_of_place {tool source : String} {fault : Fault} {i offset : Nat}
    {c : Command} (hi : fault.instruction? = some i) (hc : (parse source).command? i = some c)
    (hfail : c.CanFail) (hplace : place? (parse source) fault = some offset)
    (hstands : StandsAt source i c offset) : Reported tool source fault := by
  refine ⟨fun j _ hj => ?_, fun hnone => absurd hi (hnone i (Program.lt_size_of_command? hc))⟩
  cases hi.symm.trans hj
  obtain ⟨hnewline, huntab⟩ := c.toChar_shown
  refine ⟨c, offset, context source offset, hc, hfail, hstands, ?_, ?_⟩
  · exact huntab ▸ context_pointsAt hstands.1 hnewline
  · simp only [render, hplace, withContext, heading]

/-- The report of a fault that finds the place of its command by the index. -/
theorem Diagnostic.reported_of_command {tool source : String} {fault : Fault} {i : Nat}
    {c : Command} (hi : fault.instruction? = some i)
    (hplace : place? (parse source) fault = (parse source).offset? i)
    (hc : (parse source).command? i = some c) (hfail : c.CanFail) :
    Reported tool source fault := by
  obtain ⟨offset, hoff, hstands⟩ := exists_place hc
  exact reported_of_place hi hc hfail (hplace.trans hoff) hstands

theorem Diagnostic.reported_of_no_place {tool source : String} {fault : Fault}
    (hi : ∀ i < (parse source).size, fault.instruction? ≠ some i)
    (hplace : place? (parse source) fault = none) : Reported tool source fault := by
  refine ⟨fun i hlt h => absurd h (hi i hlt), fun _ => ?_⟩
  simp only [render, hplace, heading]

theorem Program.offset?_eq_none {p : Program} {i : Nat} (h : p.size ≤ i) : p.offset? i = none := by
  rw [Program.size] at h
  simp [Program.offset?, Array.getElem?_eq_none h]

theorem Pairing.unpaired_place {source : String} {index : Nat} {c : Command}
    (h : (parse source).commands[index]? = some c) :
    (parse source).command? index = some c ∧
      StandsAt source index c (((parse source).offset? index).getD index) := by
  rw [Program.commands_getElem?] at h
  obtain ⟨offset, hoff, hstands⟩ := exists_place h
  rw [hoff]
  exact ⟨h, hstands⟩

namespace Machine

theorem load_eq_error {source : String} {memory : Nat} {policy : Policy} {fault : Fault}
    (h : load source memory policy = .error fault) :
    fault = .refused memory ∨ ofProgram (parse source) = .error fault := by
  unfold load at h
  split at h
  · cases h
    exact .inl rfl
  · split at h
    · cases h
    · next hp =>
      cases h
      exact .inr hp

theorem loadBlames {source : String} {memory : Nat} {policy : Policy} {fault : Fault}
    (h : load source memory policy = .error fault) : LoadBlames source memory fault := by
  rcases load_eq_error h with rfl | hp
  · rfl
  · obtain ⟨u, rfl, hv⟩ := ofProgram_eq_error hp
    cases hv with
    | unopened closing _ => exact unpaired_place closing
    | unclosed opening _ _ => exact unpaired_place opening

theorem reported_of_load {source : String} {memory : Nat} {policy : Policy} {fault : Fault}
    (tool : String) (h : load source memory policy = .error fault) :
    Reported tool source fault := by
  have hb := loadBlames h
  cases fault with
  | unclosedLoop index offset => exact reported_of_place rfl hb.1 ⟨nofun, nofun⟩ rfl hb.2
  | unopenedLoop index offset => exact reported_of_place rfl hb.1 ⟨nofun, nofun⟩ rfl hb.2
  | refused cells => exact reported_of_no_place (fun _ _ => nofun) rfl
  | underflow _ | overflow _ _ _ | io _ _ | stepLimit _ | cancelled => exact nomatch hb

variable {m : Machine} {control : Control} {console : Console} {past : List State}
  {s final : State} {fault : Fault}

theorem Ends.runBlames (h : m.Ends control console past s (some fault) final) :
    RunBlames m.program m.memory m.policy s fault := by
  have hsafe := h.course.safe
  rcases h.result_cases with ⟨t, hstep⟩ | ⟨hpos, reason, rfl⟩
  · rcases (step_failed hstep).2.2 with ho | ⟨c, hc, hf⟩
    · have hk := kind_of_objection ho
      cases fault with
      | stepLimit _ | cancelled => trivial
      | _ => exact nomatch hk
    · cases hf with
      | underflow command edge => exact ⟨rfl, command ▸ hc, edge⟩
      | overflow command bounded edge =>
        have hpolicy := hsafe.policy_eq.symm.trans bounded
        exact ⟨rfl, command ▸ hc, hpolicy, rfl, edge, hsafe.size_eq hpolicy⟩
      | refused _ _ _ => trivial
      | io command reason =>
        rcases command with rfl | rfl
        · exact ⟨rfl, .inl hc⟩
        · exact ⟨rfl, .inr (.inl hc)⟩
  · have hle := hsafe.position_le
    exact ⟨rfl, .inr (.inr (by omega))⟩

/-- The report of a fault of a run: it is the index of the command that gives the place. -/
theorem reported_of_runBlames {source : String} {memory : Nat} {policy : Policy} (tool : String)
    (h : RunBlames (parse source) memory policy s fault) : Reported tool source fault := by
  cases fault with
  | unclosedLoop index offset => exact h.elim
  | unopenedLoop index offset => exact h.elim
  | underflow position => exact reported_of_command rfl rfl h.2.1 ⟨nofun, nofun⟩
  | overflow position pointer limit => exact reported_of_command rfl rfl h.2.1 ⟨nofun, nofun⟩
  | io position reason =>
    obtain ⟨-, hout | hin | hend⟩ := h
    · exact reported_of_command rfl rfl hout ⟨nofun, nofun⟩
    · exact reported_of_command rfl rfl hin ⟨nofun, nofun⟩
    · refine reported_of_no_place (fun i hi heq => ?_) (Program.offset?_eq_none hend.ge)
      cases heq
      omega
  | refused cells => exact reported_of_no_place (fun _ _ => nofun) rfl
  | stepLimit limit => exact reported_of_no_place (fun _ _ => nofun) rfl
  | cancelled => exact reported_of_no_place (fun _ _ => nofun) rfl

/-- The fault of a source text that cannot be loaded, and every fault that a run of a loaded
machine ends with, points at its culprit, and so does the caret of its report. -/
theorem faults_point_at_culprit (tool source : String) (memory : Nat) (policy : Policy) :
    (∀ fault, load source memory policy = .error fault →
      LoadBlames source memory fault ∧ Reported tool source fault) ∧
    ∀ m, load source memory policy = .ok m → ∀ control console,
      (∀ past s fault final, m.Ends control console past s (some fault) final →
        RunBlames (parse source) memory policy s fault ∧ Reported tool source fault) ∧
      ∀ fuel result final, m.run control fuel console = .ended result final →
        ∃ past s, m.Ends control console past s result final := by
  refine ⟨fun fault h => ⟨loadBlames h, reported_of_load tool h⟩,
    fun m hload control console => ⟨fun past s fault final he => ?_, fun _ _ _ => ends_of_run⟩⟩
  obtain ⟨hprog, rfl, rfl, -⟩ := load_eq_ok hload
  have hblames := he.runBlames
  rw [hprog] at hblames
  exact ⟨hblames, reported_of_runBlames tool hblames⟩

/-- A loop that is never closed, and a run that leaves two cells on the right, both behind other
text. -/
theorem culprits_behind_comments :
    (load "ü\t[-" 2 .bounded = .error (.unclosedLoop 0 2) ∧
      Reported "bf" "ü\t[-" (.unclosedLoop 0 2)) ∧
    ∃ m, load "é +\n\tλ>>" 2 .bounded = .ok m ∧
      ∃ past s final,
        m.Ends .free (.ofInput [] .closed) past s (some (.overflow 2 1 2)) final ∧
          RunBlames (parse "é +\n\tλ>>") 2 .bounded s (.overflow 2 1 2) ∧
          Reported "bf" "é +\n\tλ>>" (.overflow 2 1 2) := by
  have hopen : load "ü\t[-" 2 .bounded = .error (.unclosedLoop 0 2) := rfl
  let m : Machine := ⟨parse "é +\n\tλ>>", ⟨#[none, none, none]⟩, 2, .bounded, rfl⟩
  have hm : load "é +\n\tλ>>" 2 .bounded = .ok m := rfl
  refine ⟨⟨hopen, ((faults_point_at_culprit "bf" "ü\t[-" 2 .bounded).1 _ hopen).2⟩, m, hm, ?_⟩
  obtain ⟨hends, hrun⟩ :=
    (faults_point_at_culprit "bf" "é +\n\tλ>>" 2 .bounded).2 m hm .free (.ofInput [] .closed)
  obtain ⟨past, s, he⟩ := hrun 4 (some (.overflow 2 1 2)) _ rfl
  exact ⟨past, s, _, he, hends past s _ _ he⟩

end Machine
end Brainfuck

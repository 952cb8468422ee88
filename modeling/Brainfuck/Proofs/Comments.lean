import Brainfuck.Proofs.Culprit

/-!
# Comments

Of a source text only the eight command characters count. Two texts that have them in common have
the same list of commands, and a machine asks its program for nothing else: brackets are paired by
index, and a place in the source is looked up only where a bracket has no partner. So the machines
of the two texts take the same steps, and a text that is refused is refused in the same way, at a
place of its own.
-/
namespace Brainfuck

/-- The characters that programs are written with. -/
def Program.alphabet : List Char := ['>', '<', '+', '-', '.', ',', '[', ']']

/-- A text without its comments. -/
def Program.uncommented (source : String) : List Char :=
  source.toList.filter fun a => a ∈ alphabet

open Program

theorem Command.ofChar?_eq_none_iff {a : Char} : ofChar? a = none ↔ a ∉ alphabet := by
  constructor
  · intro h hmem
    simp only [alphabet, List.mem_cons, List.not_mem_nil, or_false] at hmem
    rcases hmem with rfl | rfl | rfl | rfl | rfl | rfl | rfl | rfl <;> exact nomatch h
  · intro h
    cases hc : ofChar? a with
    | none => rfl
    | some c =>
      apply absurd _ h
      rw [← toChar_of_ofChar? hc]
      cases c <;> decide

namespace Program

variable {s t : String}

/-- The commands of a text, without a look at their places. -/
theorem commands_parse (source : String) :
    (parse source).commands = source.toList.filterMap Command.ofChar? := by
  have hinstr (numbered : Char × Nat) :
      (instruction? numbered).map Instruction.command = Command.ofChar? numbered.1 := by
    cases h : Command.ofChar? numbered.1 <;> simp [instruction?, h]
  calc (parse source).commands
      = source.toList.zipIdx.filterMap fun numbered => Command.ofChar? numbered.1 := by
        simp [commands, parse, List.map_filterMap, hinstr]
    _ = (source.toList.zipIdx.map Prod.fst).filterMap Command.ofChar? := by
        rw [List.filterMap_map]
        rfl
    _ = source.toList.filterMap Command.ofChar? := by rw [List.zipIdx_map_fst]

/-- Without comments a text is what its commands are written with. -/
theorem map_toChar_commands (source : String) :
    (parse source).commands.map Command.toChar = uncommented source := by
  rw [commands_parse, uncommented]
  induction source.toList with
  | nil => rfl
  | cons a text ih =>
    cases ha : Command.ofChar? a with
    | none =>
      have hout : a ∉ alphabet := Command.ofChar?_eq_none_iff.mp ha
      simp [ha, hout, ih]
    | some c =>
      have hin : a ∈ alphabet := by
        by_contra hout
        exact nomatch ha.symm.trans (Command.ofChar?_eq_none_iff.mpr hout)
      simp [ha, hin, ih, Command.toChar_of_ofChar? ha]

theorem commands_parse_uncommented (source : String) :
    (parse source).commands = (uncommented source).filterMap Command.ofChar? := by
  rw [← map_toChar_commands, List.filterMap_map]
  simp only [Function.comp_def, Command.ofChar?_toChar, List.filterMap_some]

theorem commands_eq_of_uncommented (h : uncommented s = uncommented t) :
    (parse s).commands = (parse t).commands := by
  rw [commands_parse_uncommented, commands_parse_uncommented, h]

/-- A comment may stand anywhere. -/
theorem uncommented_insert (before after : String) {comment : String}
    (h : ∀ a ∈ comment.toList, a ∉ alphabet) :
    uncommented (before ++ comment ++ after) = uncommented (before ++ after) := by
  have hnone : comment.toList.filter (fun a => a ∈ alphabet) = [] := by
    simpa [List.filter_eq_nil_iff] using h
  simp only [uncommented, String.toList_append, List.filter_append, hnone, List.append_nil]

end Program

namespace Machine

variable {m₁ m₂ : Machine} {control : Control} {console : Console}

theorem pairing_eq_of_commands (h : m₁.program.commands = m₂.program.commands) :
    m₁.pairing = m₂.pairing := by
  have hpair := m₁.ofCommands_program
  rw [h, m₂.ofCommands_program] at hpair
  exact (Except.ok.inj hpair).symm

/-- A step depends on nothing but the commands. -/
theorem step_eq_of_commands (h : m₁.program.commands = m₂.program.commands) (control : Control) :
    m₁.step control = m₂.step control := by
  funext s
  have hsame : m₁.program.command? s.position = m₂.program.command? s.position := by
    rw [← commands_getElem?, h, commands_getElem?]
  cases hc : m₁.program.command? s.position with
  | none => rw [step_of_end hc, step_of_end (hsame ▸ hc)]
  | some c =>
    cases ho : control.objection? s with
    | some fault => simp only [step, hc, ← hsame, ho]
    | none =>
      rw [step_eq_perform hc ho, step_eq_perform (hsame ▸ hc) ho]
      cases hb : c.isBracket with
      | false => rw [perform_plain hb, perform_plain hb]
      | true =>
        -- The place in the source is for a bracket without partner, and there is none.
        obtain ⟨target, ht, -⟩ := exists_partner hc hb
        have ht₂ := pairing_eq_of_commands h ▸ ht
        rcases Pairing.isBracket_iff.mp hb with rfl | rfl
        · rw [perform_loopStart ht, perform_loopStart ht₂]
        · rw [perform_loopEnd ht, perform_loopEnd ht₂]

theorem execute_eq_of_step (h : m₁.step control = m₂.step control) (fuel : Nat) (s : State) :
    m₁.execute control fuel s = m₂.execute control fuel s := by
  induction fuel generalizing s with
  | zero => rfl
  | succ fuel ih =>
    rw [execute, execute, h]
    cases m₂.step control s with
    | next t => exact ih t
    | _ => rfl

theorem Course.of_step_eq (hstart : m₁.start console = m₂.start console)
    (hstep : m₁.step control = m₂.step control) {past : List State} {s : State}
    (hc : m₁.Course control console past s) : m₂.Course control console past s := by
  induction hc with
  | start h => exact .start (hstart ▸ h)
  | flag raised _ ih => exact .flag raised ih
  | step _ h ih => exact .step ih (hstep ▸ h)

theorem Stops.of_step_eq (hstep : m₁.step control = m₂.step control) {s t : State}
    {fault : Option Fault} (h : m₁.Stops control s fault t) : m₂.Stops control s fault t := by
  cases h with
  | halted h => exact .halted (hstep ▸ h)
  | failed h => exact .failed (hstep ▸ h)

/-- Two machines that cannot be told apart by running them, also when others raise the stop flag
in between. -/
structure RunAlike (m₁ m₂ : Machine) : Prop where
  start_eq : ∀ console, m₁.start console = m₂.start console
  run_eq : ∀ control fuel console, m₁.run control fuel console = m₂.run control fuel console
  course_iff : ∀ control console past s,
    m₁.Course control console past s ↔ m₂.Course control console past s
  ends_iff : ∀ control console past s result final,
    m₁.Ends control console past s result final ↔ m₂.Ends control console past s result final

theorem runAlike_of_commands (h : m₁.program.commands = m₂.program.commands)
    (hmemory : m₁.memory = m₂.memory) (hpolicy : m₁.policy = m₂.policy) : RunAlike m₁ m₂ := by
  have hstart (console : Console) : m₁.start console = m₂.start console := by
    rw [start, start, hmemory, hpolicy]
  have hstep := step_eq_of_commands h
  have hcourse (control : Control) (console : Console) (past : List State) (s : State) :
      m₁.Course control console past s ↔ m₂.Course control console past s :=
    ⟨.of_step_eq (hstart console) (hstep control),
      .of_step_eq (hstart console).symm (hstep control).symm⟩
  refine ⟨hstart, fun control fuel console => ?_, hcourse,
    fun control console past s result final => ?_⟩
  · rw [run, run, hstart]
    cases m₂.start console with
    | error fault => rfl
    | ok first => simp only [execute_eq_of_step (hstep control)]
  · refine exists₂_congr fun fault t => and_congr (hcourse control console past s) ?_
    exact and_congr_left' ⟨.of_step_eq (hstep control), .of_step_eq (hstep control).symm⟩

/-- Two texts are loaded alike: both or none of them, with machines that run alike, or with the
same fault but for its place in the source. -/
inductive LoadedAlike (s t : String) : Except Fault Machine → Except Fault Machine → Prop where
  | accepted {m₁ m₂ : Machine} (runs : RunAlike m₁ m₂) : LoadedAlike s t (.ok m₁) (.ok m₂)
  | refused (cells : Nat) : LoadedAlike s t (.error (.refused cells)) (.error (.refused cells))
  | unclosed {index offset₁ offset₂ : Nat} (left : StandsAt s index .loopStart offset₁)
      (right : StandsAt t index .loopStart offset₂) :
      LoadedAlike s t (.error (.unclosedLoop index offset₁)) (.error (.unclosedLoop index offset₂))
  | unopened {index offset₁ offset₂ : Nat} (left : StandsAt s index .loopEnd offset₁)
      (right : StandsAt t index .loopEnd offset₂) :
      LoadedAlike s t (.error (.unopenedLoop index offset₁)) (.error (.unopenedLoop index offset₂))

variable {source : String} {memory : Nat} {policy : Policy} {s t : String}

theorem load_of_too_large (h : maxMemory < memory) :
    load source memory policy = .error (.refused memory) := if_pos h

theorem load_of_unpaired (h : memory ≤ maxMemory) {unpaired : Pairing.Unpaired}
    (hp : Pairing.ofCommands (parse source).commands = .error unpaired) :
    load source memory policy = .error (unpaired.fault (parse source)) := by
  have hfault : Pairing.ofProgram (parse source) = .error (unpaired.fault (parse source)) := by
    rw [Pairing.ofProgram, hp]
    rfl
  rw [load, if_neg (Nat.not_lt.mpr h)]
  split
  · next hok => cases hok.symm.trans hfault
  · next herror =>
    cases herror.symm.trans hfault
    rfl

theorem exists_load (h : memory ≤ maxMemory) {pairing : Pairing}
    (hp : Pairing.ofCommands (parse source).commands = .ok pairing) :
    ∃ m, load source memory policy = .ok m := by
  rw [load, if_neg (Nat.not_lt.mpr h)]
  split
  · exact ⟨_, rfl⟩
  · next herror => exact nomatch herror.symm.trans (Pairing.ofProgram_eq_ok_iff.mpr hp)

theorem loadedAlike_of_uncommented (h : uncommented s = uncommented t) (memory : Nat)
    (policy : Policy) :
    LoadedAlike s t (load s memory policy) (load t memory policy) := by
  have hcommands := commands_eq_of_uncommented h
  rcases Nat.lt_or_ge maxMemory memory with hlarge | hle
  · rw [load_of_too_large hlarge, load_of_too_large hlarge]
    exact .refused memory
  · cases hp : Pairing.ofCommands (parse s).commands with
    | ok pairing =>
      obtain ⟨m₁, h₁⟩ : ∃ m, load s memory policy = .ok m := exists_load hle hp
      obtain ⟨m₂, h₂⟩ : ∃ m, load t memory policy = .ok m := exists_load hle (hcommands ▸ hp)
      obtain ⟨hprogram₁, hmemory₁, hpolicy₁, -⟩ := load_eq_ok h₁
      obtain ⟨hprogram₂, hmemory₂, hpolicy₂, -⟩ := load_eq_ok h₂
      rw [h₁, h₂]
      refine .accepted (runAlike_of_commands ?_ ?_ ?_)
      · rw [hprogram₁, hprogram₂, hcommands]
      · rw [hmemory₁, hmemory₂]
      · rw [hpolicy₁, hpolicy₂]
    | error unpaired =>
      have h₁ : load s memory policy = _ := load_of_unpaired hle hp
      have h₂ : load t memory policy = _ := load_of_unpaired hle (hcommands ▸ hp)
      have hblames₁ := loadBlames h₁
      have hblames₂ := loadBlames h₂
      rw [h₁, h₂]
      cases unpaired with
      | opening index => exact .unclosed hblames₁.2 hblames₂.2
      | closing index => exact .unopened hblames₁.2 hblames₂.2

/-- Comments never matter: texts that have their command characters in common are loaded alike, and
so are a text with a comment anywhere in it and the same text without. -/
theorem comments_never_matter (memory : Nat) (policy : Policy) :
    (∀ s t, uncommented s = uncommented t →
      LoadedAlike s t (load s memory policy) (load t memory policy)) ∧
    ∀ before comment after : String, (∀ a ∈ comment.toList, a ∉ alphabet) →
      LoadedAlike (before ++ comment ++ after) (before ++ after)
        (load (before ++ comment ++ after) memory policy)
        (load (before ++ after) memory policy) := by
  refine ⟨fun s t h => loadedAlike_of_uncommented h memory policy,
    fun before comment after h => ?_⟩
  exact loadedAlike_of_uncommented (uncommented_insert before after h) memory policy

/-- A loop that is never closed stands behind other comments in the two texts, and a program with a
comment inside of its loop prints what it prints without. -/
theorem unclosed_behind_comments :
    LoadedAlike "é\n+[" "+ λ [ü" (.error (.unclosedLoop 1 3)) (.error (.unclosedLoop 1 4)) ∧
      ∃ m₁ m₂, load "+[.é\t-]" 1 .bounded = .ok m₁ ∧ load "+[.-]" 1 .bounded = .ok m₂ ∧
        RunAlike m₁ m₂ ∧ ∃ final, m₁.run .free 6 (.ofInput [] .closed) = .ended none final ∧
          final.console.output = [1] := by
  obtain ⟨hsame, hinsert⟩ := comments_never_matter 1 .bounded
  refine ⟨hsame "é\n+[" "+ λ [ü" (by decide), ?_⟩
  have hloop := hinsert "+[." "é\t" "-]" (by simp [alphabet])
  let m₁ : Machine := ⟨parse "+[.é\t-]", ⟨#[none, some 4, none, none, some 1]⟩, 1, .bounded, rfl⟩
  let m₂ : Machine := ⟨parse "+[.-]", ⟨#[none, some 4, none, none, some 1]⟩, 1, .bounded, rfl⟩
  have h₁ : load ("+[." ++ "é\t" ++ "-]") 1 .bounded = .ok m₁ := rfl
  have h₂ : load ("+[." ++ "-]") 1 .bounded = .ok m₂ := rfl
  rw [h₁, h₂] at hloop
  cases hloop with
  | accepted runs => exact ⟨m₁, m₂, h₁, h₂, runs, _, rfl, rfl⟩

end Machine
end Brainfuck

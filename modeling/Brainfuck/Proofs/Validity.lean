import Brainfuck.Proofs.Attribution
import Brainfuck.Proofs.Comments
import Brainfuck.Proofs.WorkingDevices
import Brainfuck.Session

/-!
# Which sources are valid

Whether a source is valid is a matter of its brackets, and of nothing else. A check confirms exactly
the sources whose brackets are balanced, and a run refuses the others with the same words, before it
reads any input. Only a tape that is too large is refused by a run alone, whatever the source.
-/
namespace Brainfuck

namespace Brackets
open Program

/-- No beginning of a text closes more loops than it opens, and the whole text closes all of
them. -/
def BalancedText (source : String) : Prop :=
  (∀ n, (source.toList.take n).count ']' ≤ (source.toList.take n).count '[') ∧
    source.toList.count ']' = source.toList.count '['

theorem count_filterMap_ofChar? (text : List Char) (c : Command) :
    (text.filterMap Command.ofChar?).count c = text.count c.toChar := by
  induction text with
  | nil => rfl
  | cons a text ih =>
    cases ha : Command.ofChar? a with
    | none =>
      have hne : a ≠ c.toChar := by
        rintro rfl
        cases (Command.ofChar?_toChar c).symm.trans ha
      rw [List.filterMap_cons_none ha, ih, List.count_cons_of_ne hne]
    | some c' =>
      rw [List.filterMap_cons_some ha, ← Command.toChar_of_ofChar? ha]
      by_cases hc : c' = c
      · subst hc
        rw [List.count_cons_self, List.count_cons_self, ih]
      · have hne : c'.toChar ≠ c.toChar := by
          intro h
          have hchar := Command.ofChar?_toChar c'
          rw [h, Command.ofChar?_toChar] at hchar
          exact hc (Option.some.inj hchar).symm
        rw [List.count_cons_of_ne hc, List.count_cons_of_ne hne, ih]

/-- The brackets of a text are balanced exactly if its commands are. -/
theorem balancedText_iff {source : String} :
    BalancedText source ↔ Balanced (parse source).commands := by
  have hcount := count_filterMap_ofChar?
  rw [commands_parse]
  constructor
  · rintro ⟨hle, heq⟩
    refine ⟨fun n _ => ?_, ?_⟩
    · -- A beginning of the commands comes from a beginning of the text.
      obtain ⟨front, hfront, htake⟩ := List.prefix_filterMap_iff.mp
        (List.take_prefix n (source.toList.filterMap Command.ofChar?))
      rw [htake, hcount, hcount, List.prefix_iff_eq_take.mp hfront]
      exact hle front.length
    · rw [hcount, hcount]
      exact heq
  · rintro hbalanced
    obtain ⟨hnonneg, -⟩ := balanced_iff_height.mp hbalanced
    have htotal := hbalanced.2
    rw [hcount, hcount] at htotal
    refine ⟨fun n => ?_, htotal⟩
    have hfront : (source.toList.take n).filterMap Command.ofChar? <+:
        source.toList.filterMap Command.ofChar? := (List.take_prefix n _).filterMap _
    have hheight := hnonneg ((source.toList.take n).filterMap Command.ofChar?).length
    rw [height, ← List.prefix_iff_eq_take.mp hfront, depth, hcount, hcount] at hheight
    simp only [Command.toChar] at hheight
    omega

end Brackets

open Brackets Program

namespace Machine

variable {source : String}

/-- A source with balanced brackets can be loaded, and its loops are counted. -/
theorem exists_load_of_balancedText (h : BalancedText source) {memory : Nat}
    (hmemory : memory ≤ maxMemory) (policy : Policy) :
    ∃ m, load source memory policy = .ok m ∧ m.program = parse source ∧
      m.pairing.count = source.toList.count '[' := by
  obtain ⟨pairing, hpairing⟩ := Pairing.ofCommands_eq_ok_iff.mpr (balancedText_iff.mp h)
  obtain ⟨m, hm⟩ : ∃ m, load source memory policy = .ok m := exists_load hmemory hpairing
  obtain ⟨hprogram, -⟩ := load_eq_ok hm
  refine ⟨m, hm, hprogram, ?_⟩
  rw [Pairing.count_eq m.ofCommands_program, hprogram, commands_parse, count_filterMap_ofChar?]
  rfl

/-- A source whose brackets are not balanced has one bracket that is blamed, whatever tape is asked
for. -/
theorem exists_fault_of_not_balancedText (h : ¬ BalancedText source) :
    ∃ fault : Fault, fault.status = 3 ∧ ∀ memory ≤ maxMemory, ∀ policy,
      load source memory policy = .error fault := by
  cases hp : Pairing.ofCommands (parse source).commands with
  | ok pairing =>
    exact absurd (balancedText_iff.mpr (Pairing.balanced_of_ofCommands hp)) h
  | error unpaired =>
    refine ⟨unpaired.fault (parse source), ?_, fun memory hmemory policy =>
      load_of_unpaired hmemory hp⟩
    cases unpaired <;> rfl

theorem start_of_refused {m : Machine} {control : Control} {fuel : Nat} {console console' : Console}
    {fault : Fault} (h : m.run control fuel console = .refused fault console') :
    m.start console = .error fault := by
  cases hstart : m.start console with
  | error cause =>
    rw [run, hstart] at h
    cases h
    rfl
  | ok s =>
    rw [run_of_start hstart] at h
    generalize m.execute control fuel s = stop at h
    cases stop <;> cases h

end Machine

/-- A worker is never blamed for a bracket. -/
theorem Job.Returns.kind_ne_bracket {job : Job} {console : Console} {fault : Fault}
    (h : job.Returns console (some fault)) : fault.kind ≠ .bracket := by
  cases h with
  | refused start =>
    obtain rfl := Machine.start_eq_error start
    exact nofun
  | ended ends => exact ends.kind_ne_bracket

namespace Devices

variable {d left : Devices}

/-- A file leaves the devices as they are, unless it is standard input. -/
theorem fetch_left {content : Except ReadFailure FileContent}
    {bytes : Except ReadFailure ByteArray} (h : d.fetch content = some (bytes, left)) :
    (∃ input, left = { d with input }) ∧ (content ≠ .ok .standardInput → left = d) := by
  rcases content with failure | (content | _)
  · cases h
    exact ⟨⟨d.input, rfl⟩, fun _ => rfl⟩
  · cases h
    exact ⟨⟨d.input, rfl⟩, fun _ => rfl⟩
  · obtain ⟨⟨_, input⟩, -, hleft⟩ := Option.map_eq_some_iff.mp h
    cases hleft
    exact ⟨⟨input, rfl⟩, fun hne => absurd rfl hne⟩

end Devices

namespace Session
open Arguments

variable {i : Invocation} {d left rest : Devices} {sub : Subcommand} {o : Options}
  {source : String} {file : Settings × List Notice}

theorem readText_left {path : String} {text : Except ReadFailure String}
    (h : readText i d path = some (text, left)) :
    (∃ input, left = { d with input }) ∧ (i.readFile path ≠ .ok .standardInput → left = d) := by
  obtain ⟨⟨bytes, _⟩, hfetch, heq⟩ := Option.map_eq_some_iff.mp h
  cases heq
  exact Devices.fetch_left hfetch

theorem loadSource_left {text : Except Ending String}
    (h : loadSource i d sub o = some (text, left)) :
    (∃ input, left = { d with input }) ∧
      ((∀ path, i.readFile path ≠ .ok .standardInput) → left = d) := by
  unfold loadSource at h
  split at h
  · cases h
    exact ⟨⟨d.input, rfl⟩, fun _ => rfl⟩
  · cases h
    exact ⟨⟨d.input, rfl⟩, fun _ => rfl⟩
  · next path _ _ =>
    obtain ⟨⟨_, _⟩, hread, heq⟩ := Option.map_eq_some_iff.mp h
    cases heq
    obtain ⟨hinput, hsame⟩ := readText_left hread
    exact ⟨hinput, fun hnone => hsame (hnone path)⟩
  · cases h
    exact ⟨⟨d.input, rfl⟩, fun _ => rfl⟩

theorem loadSettings_left (h : loadSettings i d = some (file, left)) :
    (∀ path, i.readFile path ≠ .ok .standardInput) → left = d := by
  intro hnone
  unfold loadSettings at h
  split at h
  · cases h
    rfl
  · next path _ =>
    obtain ⟨⟨_, _⟩, hread, heq⟩ := Option.map_eq_some_iff.mp h
    cases heq
    exact (readText_left hread).2 (hnone path)

/-- A subcommand comes by its source: the arguments are understood, no help is asked for, and the
source can be read. The devices that are left have lost the source if it was standard input. -/
structure Obtains (i : Invocation) (d : Devices) (sub : Subcommand) (o : Options)
    (source : String) (left : Devices) : Prop where
  understood : Arguments.parse i.arguments = some (.perform sub o)
  no_help : o.help = false
  loaded : loadSource i d sub o = some (.ok source, left)

theorem Obtains.task_check (h : Obtains i d .check o source left) :
    task i d = some (check i source, left) := by
  simp [task, h.understood, perform, h.no_help, h.loaded, proceed]

theorem Obtains.task_run (h : Obtains i d .run o source left)
    (hsettings : loadSettings i left = some (file, rest)) :
    task i d = some (prepare i o source file, rest) := by
  simp [task, h.understood, perform, h.no_help, h.loaded, proceed, hsettings]

theorem run_of_task {task' : Task} (h : task i d = some (task', left)) (patience : Nat)
    (breakdown : String → String) :
    run i d patience breakdown = task'.report left patience breakdown := by
  rw [run, h]
  rfl

/-- What is said about a source that is valid. -/
def confirmation (source : String) : String :=
  "ok: " ++ toString (uncommented source).length ++ " commands, " ++
    toString (source.toList.count '[') ++ " loops\n"

theorem size_parse (source : String) : (parse source).size = (uncommented source).length := by
  rw [← map_toChar_commands, List.length_map, Program.length_commands]

/-- The settings that a run is given in the end. -/
def effective (i : Invocation) (o : Options) (file : Settings × List Notice) :
    Settings.Effective :=
  (Settings.effective o.settings i.environment file.1).1

/-- A run is prepared with the settings that it is given in the end. -/
theorem exists_prepare_eq (i : Invocation) (o : Options) (source : String)
    (file : Settings × List Notice) :
    ∃ notices, prepare i o source file =
      match Machine.load source (effective i o file).memory (effective i o file).policy with
      | .error fault => reject i.tool source fault notices
      | .ok m =>
        .execute ⟨i.tool, source, m, (effective i o file).stepLimit, (effective i o file).timeout⟩
          notices :=
  ⟨file.2 ++ (Settings.effective o.settings i.environment file.1).2, rfl⟩

/-- The endings that a job can have in front of devices: what its worker comes to, an interruption,
or a time limit. -/
theorem attend_cases {job : Job} {notices : List Notice} {patience : Nat} {report : Report}
    (h : attend job notices d patience = some report) :
    (∃ result, job.Returns d.console result ∧
      report.ending = job.conclude false (.finished result)) ∨
    report.ending = Job.interruptEnding ∨ report.ending = job.timeoutEnding := by
  have hgiveUp {notices : List Notice} {arrived : Nat} {s : State}
      (h : giveUp job d notices arrived s = some report) :
      report.ending = Job.interruptEnding ∨ report.ending = job.timeoutEnding := by
    obtain ⟨verdict, hverdict, rfl⟩ := Option.map_eq_some_iff.mp h
    unfold impatience at hverdict
    split at hverdict
    · cases hverdict
      exact .inl rfl
    · split at hverdict
      · cases hverdict
        exact .inr rfl
      · exact nomatch hverdict
  unfold attend at h
  dsimp only at h
  cases hrun : job.machine.run (.watched job.stepLimit) patience d.console with
  | refused fault console =>
    rw [hrun] at h
    cases h
    exact .inl ⟨_, .refused (Machine.start_of_refused hrun), rfl⟩
  | ended result s =>
    rw [hrun] at h
    cases h
    obtain ⟨past, s', hends⟩ := Machine.ends_of_run hrun
    exact .inl ⟨result, .ended hends, rfl⟩
  | waiting s =>
    rw [hrun] at h
    exact .inr (hgiveUp h)
  | running s =>
    rw [hrun] at h
    exact .inr (hgiveUp h)

/-- A job that was accepted does not end like a source that is refused for its brackets. -/
theorem attend_status_ne_bracket {job : Job} {notices : List Notice} {patience : Nat}
    {report : Report} (h : attend job notices d patience = some report) :
    report.ending.status ≠ 3 := by
  rcases attend_cases h with ⟨result, hreturns, hending⟩ | hending | hending
  · rw [hending]
    cases result with
    | none => exact nofun
    | some fault =>
      have hkind := hreturns.kind_ne_bracket
      cases fault with
      | unclosedLoop _ _ | unopenedLoop _ _ => exact absurd rfl hkind
      | _ => exact nofun
  · rw [hending]
    exact nofun
  · rw [hending]
    exact nofun

/-- A session ends with a bracket error. -/
def BracketError (i : Invocation) (d : Devices) : Prop :=
  ∃ patience breakdown report,
    run i d patience breakdown = some report ∧ report.ending.status = 3

/-- Every source can be given in a word behind the separator. -/
theorem obtains_separated (sub : Subcommand) (tool source : String) (env : Environment)
    (readFile : String → Except ReadFailure FileContent) (d : Devices) :
    ∃ arguments o, Obtains ⟨tool, arguments, env, readFile⟩ d sub o source d := by
  have hloaded (arguments : List String) :
      loadSource ⟨tool, arguments, env, readFile⟩ d sub { code := [source] } =
        some (.ok source, d) := by
    simp [loadSource, String.join]
  cases sub with
  | run => exact ⟨["run", "--", source], _, rfl, rfl, hloaded _⟩
  | check => exact ⟨["check", "--", source], _, rfl, rfl, hloaded _⟩

/-- What a subcommand loads depends on no file but its source. -/
theorem loadSource_congr {env : Environment} {readFile : String → Except ReadFailure FileContent}
    (h : ∀ path, o.file = some path → readFile path = i.readFile path) :
    loadSource { i with environment := env, readFile } d sub o = loadSource i d sub o := by
  unfold loadSource
  cases hfile : o.file with
  | none => cases o.code <;> rfl
  | some path =>
    cases o.code with
    | nil => simp only [readText, h path hfile]
    | cons _ _ => rfl

/-- A tape that cannot be had has no place in the source. -/
theorem render_refused (tool source : String) (cells : Nat) :
    Diagnostic.render tool source (parse source) (.refused cells) =
      tool ++ ": tape error: Tape allocation failed: cannot hold " ++ toString cells ++
        " cells\n" := by
  have hrender : Diagnostic.render tool source (parse source) (.refused cells) =
      tool ++ ": " ++ "tape error" ++ ": " ++
        ("Tape allocation failed: cannot hold " ++ toString cells ++ " cells") ++ "\n" := rfl
  rw [hrender, ← String.toList_inj]
  simp only [String.toList_append, List.append_assoc]
  rfl

variable {fault : Fault}

/-- A source with balanced brackets is confirmed by a check. -/
theorem Obtains.check_of_balancedText (h : Obtains i d .check o source left)
    (hbalanced : BalancedText source) (patience : Nat) (breakdown : String → String) :
    run i d patience breakdown =
      some (announce (confirmation source) d.refusal breakdown) := by
  obtain ⟨m, hm, hprogram, hcount⟩ :=
    Machine.exists_load_of_balancedText hbalanced
      (by decide : Tape.defaultSize ≤ Machine.maxMemory) .growable
  have hcheck : check i source = .confirm (confirmation source) := by
    rw [check, hm]
    simp only [hprogram, size_parse, hcount, confirmation]
  obtain ⟨⟨input, rfl⟩, -⟩ := loadSource_left h.loaded
  rw [run_of_task h.task_check, hcheck]
  rfl

/-- A source that cannot be loaded is rejected by a check. -/
theorem Obtains.check_of_load (h : Obtains i d .check o source left)
    (hload : Machine.load source Tape.defaultSize .growable = .error fault) (patience : Nat)
    (breakdown : String → String) :
    run i d patience breakdown = some ⟨⟨fault.status,
      Diagnostic.render i.tool source (parse source) fault⟩, [], []⟩ := by
  have hcheck : check i source = reject i.tool source fault [] := by rw [check, hload]
  rw [run_of_task h.task_check, hcheck]
  rfl

/-- A source that cannot be loaded is rejected by a run, and then no device is touched. -/
theorem Obtains.run_of_load (h : Obtains i d .run o source left)
    (hsettings : loadSettings i left = some (file, rest))
    (hload : Machine.load source (effective i o file).memory (effective i o file).policy =
      .error fault) :
    ∃ notices, task i d = some (.leave ⟨fault.status,
        Diagnostic.render i.tool source (parse source) fault⟩ notices, rest) ∧
      ∀ patience breakdown, run i d patience breakdown = some ⟨⟨fault.status,
        Diagnostic.render i.tool source (parse source) fault⟩, [], notices⟩ := by
  obtain ⟨notices, hprepare⟩ := exists_prepare_eq i o source file
  rw [hload] at hprepare
  have htask := h.task_run hsettings
  rw [hprepare] at htask
  exact ⟨notices, htask, run_of_task htask⟩

theorem Obtains.not_bracketError_check (h : Obtains i d .check o source left)
    (hbalanced : BalancedText source) : ¬ BracketError i d := by
  rintro ⟨patience, breakdown, report, hreport, hstatus⟩
  rw [h.check_of_balancedText hbalanced] at hreport
  cases hreport
  revert hstatus
  cases d.refusal <;> exact nofun

theorem Obtains.not_bracketError_run (h : Obtains i d .run o source left)
    (hsettings : loadSettings i left = some (file, rest)) (hbalanced : BalancedText source)
    (hmemory : (effective i o file).memory ≤ Machine.maxMemory) : ¬ BracketError i d := by
  rintro ⟨patience, breakdown, report, hreport, hstatus⟩
  obtain ⟨m, hm, -⟩ :=
    Machine.exists_load_of_balancedText hbalanced hmemory (effective i o file).policy
  obtain ⟨notices, hprepare⟩ := exists_prepare_eq i o source file
  rw [hm] at hprepare
  rw [run_of_task (h.task_run hsettings), hprepare] at hreport
  exact attend_status_ne_bracket hreport hstatus

/-- A check and a run of one source agree whether it is valid. A check confirms the source if its
brackets are balanced, and else a check and a run end alike, before the run has read any input. A
run with a tape that is too large never comes to the brackets, and nothing but its source has an
influence on a check. -/
theorem check_and_run_agree (source : String) :
    (∀ sub tool env readFile d, ∃ arguments o,
      Obtains ⟨tool, arguments, env, readFile⟩ d sub o source d) ∧
    (∀ i d o left, Obtains i d .check o source left → d.refusal = none → ∀ patience breakdown,
      ∃ report, run i d patience breakdown = some report ∧
        (report = ⟨⟨0, ""⟩, (confirmation source).toUTF8.toList, []⟩ ↔ BalancedText source) ∧
        (report.ending.status = 3 ↔ ¬ BalancedText source)) ∧
    (∀ i d o left i' d' o' left' file rest, i.tool = i'.tool → Obtains i d .check o source left →
      Obtains i' d' .run o' source left' → loadSettings i' left' = some (file, rest) →
      (effective i' o' file).memory ≤ Machine.maxMemory →
        (BracketError i' d' ↔ BracketError i d) ∧
        (BracketError i d → ∃ ending notices, ending.status = 3 ∧
          (∀ patience breakdown, run i d patience breakdown = some ⟨ending, [], []⟩) ∧
          (∀ patience breakdown, run i' d' patience breakdown = some ⟨ending, [], notices⟩) ∧
          task i' d' = some (.leave ending notices, rest) ∧
          ((∀ path, i'.readFile path ≠ .ok .standardInput) → rest = d'))) ∧
    (∀ i d o left file rest, Obtains i d .run o source left →
      loadSettings i left = some (file, rest) →
      Machine.maxMemory < (effective i o file).memory →
        ∃ notices, ∀ patience breakdown, run i d patience breakdown =
          some ⟨⟨4, i.tool ++ ": tape error: Tape allocation failed: cannot hold " ++
            toString (effective i o file).memory ++ " cells\n"⟩, [], notices⟩) ∧
    (∀ i d o env readFile patience breakdown,
      Arguments.parse i.arguments = some (.perform .check o) →
      (∀ path, o.file = some path → readFile path = i.readFile path) →
        run { i with environment := env, readFile } d patience breakdown =
          run i d patience breakdown) := by
  refine ⟨fun sub tool env readFile d => obtains_separated sub tool source env readFile d,
    fun i d o left hcheck hhealthy patience breakdown => ?_,
    fun i d o left i' d' o' left' file rest htool hcheck hrun hsettings hmemory => ?_,
    fun i d o left file rest hrun hsettings hmemory => ?_,
    fun i d o env readFile patience breakdown hparse hsame => ?_⟩
  · by_cases hbalanced : BalancedText source
    · refine ⟨⟨⟨0, ""⟩, (confirmation source).toUTF8.toList, []⟩, ?_, iff_of_true rfl hbalanced,
        iff_of_false nofun (not_not_intro hbalanced)⟩
      rw [hcheck.check_of_balancedText hbalanced, hhealthy]
      rfl
    · obtain ⟨fault, hstatus, hload⟩ := Machine.exists_fault_of_not_balancedText hbalanced
      have hreport := hcheck.check_of_load (hload _ (by decide) _) patience breakdown
      refine ⟨_, hreport, iff_of_false (fun h => ?_) hbalanced, iff_of_true hstatus hbalanced⟩
      exact nomatch hstatus.symm.trans (congrArg (·.ending.status) h)
  · by_cases hbalanced : BalancedText source
    · have hfine := hcheck.not_bracketError_check hbalanced
      exact ⟨iff_of_false (hrun.not_bracketError_run hsettings hbalanced hmemory) hfine,
        fun h => absurd h hfine⟩
    · obtain ⟨fault, hstatus, hload⟩ := Machine.exists_fault_of_not_balancedText hbalanced
      have hchecked := hcheck.check_of_load (hload _ (by decide) _)
      obtain ⟨notices, htask, hran⟩ := hrun.run_of_load hsettings (hload _ hmemory _)
      rw [← htool] at htask hran
      refine ⟨iff_of_true ⟨0, id, _, hran 0 id, hstatus⟩ ⟨0, id, _, hchecked 0 id, hstatus⟩,
        fun _ => ⟨_, notices, hstatus, hchecked, hran, htask, fun hnone => ?_⟩⟩
      rw [loadSettings_left hsettings hnone, (loadSource_left hrun.loaded).2 hnone]
  · obtain ⟨notices, -, hran⟩ := hrun.run_of_load hsettings (Machine.load_of_too_large hmemory)
    rw [render_refused] at hran
    exact ⟨notices, hran⟩
  · simp only [run, task, hparse, perform, loadSource_congr hsame]
    rfl

/-- A source in two words is confirmed. Another one closes a loop that was never opened, and a run
on five cells, with a byte of input at hand, ends as the check does. -/
theorem verdicts_on_two_sources :
    let nothing : String → Except ReadFailure FileContent := fun _ => .error .missing
    run ⟨"bf", ["check", "é[-]", "+[.]"], [], nothing⟩ (.working []) 0 =
        some ⟨⟨0, ""⟩, "ok: 7 commands, 2 loops\n".toUTF8.toList, []⟩ ∧
      ∃ ending notices, ending.status = 3 ∧
        (∀ patience breakdown, run ⟨"bf", ["check", "+]é["], [], nothing⟩ (.working []) patience
          breakdown = some ⟨ending, [], []⟩) ∧
        ∀ patience breakdown, run ⟨"bf", ["run", "--bounded", "--", "+", "]é["],
          [("BF_MEMORY", "5".toUTF8)], nothing⟩ (.working [65]) patience breakdown =
            some ⟨ending, [], notices⟩ := by
  intro nothing
  have hvalid : BalancedText "é[-]+[.]" := balancedText_iff.mpr (by decide)
  have hinvalid : ¬ BalancedText "+]é[" := fun h => absurd (balancedText_iff.mp h) (by decide)
  obtain ⟨-, hconfirmed, -⟩ := check_and_run_agree "é[-]+[.]"
  obtain ⟨report, hreport, hok, -⟩ :=
    hconfirmed ⟨"bf", ["check", "é[-]", "+[.]"], [], nothing⟩ (.working [])
      { code := ["é[-]", "+[.]"] } (.working []) ⟨rfl, rfl, rfl⟩ rfl 0 bareBreakdown
  cases hok.mpr hvalid
  refine ⟨hreport, ?_⟩
  obtain ⟨-, hchecked, hagree, -⟩ := check_and_run_agree "+]é["
  let checking : Invocation := ⟨"bf", ["check", "+]é["], [], nothing⟩
  have hcheck : Obtains checking (.working []) .check { code := ["+]é["] } "+]é[" (.working []) :=
    ⟨rfl, rfl, rfl⟩
  obtain ⟨rejection, hrejection, -, hstatus⟩ := hchecked _ _ _ _ hcheck rfl 0 id
  obtain ⟨-, hboth⟩ := hagree checking (.working []) _ _
    ⟨"bf", ["run", "--bounded", "--", "+", "]é["], [("BF_MEMORY", "5".toUTF8)], nothing⟩
    (.working [65]) { bounded := true, code := ["+", "]é["] } (.working [65]) ({}, []) _
    rfl hcheck ⟨rfl, rfl, rfl⟩ rfl (by decide +kernel)
  obtain ⟨ending, notices, hthree, hfirst, hsecond, -⟩ :=
    hboth ⟨0, id, rejection, hrejection, hstatus.mpr hinvalid⟩
  exact ⟨ending, notices, hthree, hfirst, hsecond⟩

end Session
end Brainfuck

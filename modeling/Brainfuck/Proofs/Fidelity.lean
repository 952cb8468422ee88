import Brainfuck.Proofs.Cancellation
import Brainfuck.Proofs.CommandLine
import Brainfuck.Proofs.Culprit
import Brainfuck.Proofs.WorkingDevices
import Brainfuck.Session

/-!
# A session is a run of its source

With devices that work, what a session puts out and how it ends is what comes of its source when it
is loaded and run with the settings in effect. It does not matter how the source is given: in words
of the command line, behind a separator, or in a file.
-/
namespace Brainfuck
namespace Machine

variable {m : Machine} {control : Control} {console : Console} {n : Nat} {s : State}
  {result : Option Fault}

/-- A calm run is not cancelled. -/
theorem not_cancelled_of_calm (hcalm : console.Calm)
    (h : m.run control n console = .ended result s) : result ≠ some .cancelled := by
  rintro rfl
  obtain ⟨start, hstart, -⟩ := start_of_ended h
  obtain ⟨-, -, hconsole⟩ := start_eq_ok hstart
  obtain ⟨_, t, hl, hflag, -⟩ := leads_of_run_cancelled hstart h
  have hcalm_t := Console.kept_calm.leads hl (hconsole.symm ▸ hcalm)
  exact nomatch hflag.symm.trans hcalm_t.lowered

/-- What comes of a source when it is loaded and run on an input, with a limit on its steps: its
output and its result. A source that cannot be loaded puts nothing out. -/
inductive ComesTo (source : String) (settings : Settings.Effective) (input : List UInt8) :
    List UInt8 → Option Fault → Prop where
  | rejected {fault : Fault} (load : load source settings.memory settings.policy = .error fault) :
      ComesTo source settings input [] (some fault)
  | ended {m : Machine} {fuel : Nat} {result : Option Fault} {final : State}
      (load : load source settings.memory settings.policy = .ok m)
      (run : m.run (.watched settings.stepLimit) fuel (.ofInput (input.map .byte) .closed) =
        .ended result final) :
      ComesTo source settings input final.console.output result

end Machine

namespace Session
open Arguments

/-- How a session ends with a result of its source: nothing is said about a success, one line about
a limit that was reached, and a diagnostic about everything else. -/
def endingOf (tool source : String) : Option Fault → Ending
  | none => ⟨0, ""⟩
  | some (.stepLimit limit) =>
    ⟨(Fault.stepLimit limit).status, (Fault.stepLimit limit).message ++ "\n"⟩
  | some fault => ⟨fault.status, Diagnostic.render tool source (Program.parse source) fault⟩

/-- Enough patience brings a report, and no other report is ever brought. -/
structure SettlesOn (reports : Nat → Option Report) (report : Report) : Prop where
  reached : ∃ enough, ∀ patience ≥ enough, reports patience = some report
  unique : ∀ patience other, reports patience = some other → other = report

variable {job : Job} {d : Devices} {notices : List Notice} {fuel : Nat} {result : Option Fault}
  {s : State} {tool source : String} {env : Environment}
  {readFile : String → Except ReadFailure FileContent} {o : Options}

/-- Nobody loses patience without a time limit and without Ctrl+C. -/
theorem giveUp_eq_none (htimeout : job.timeout = none) (hint : d.interruptAfter = none)
    (arrived : Nat) : giveUp job d notices arrived s = none := by
  simp [giveUp, impatience, htimeout, hint]

theorem attend_settlesOn (job : Job)
    (h : job.machine.run (.watched job.stepLimit) fuel d.console = .ended result s)
    (htimeout : job.timeout = none) (hint : d.interruptAfter = none) (notices : List Notice) :
    SettlesOn (attend job notices d) ⟨job.conclude false (.finished result), s.console.delivered,
      notices ++ [startNotice job] ++ workerNotices job result s⟩ := by
  constructor
  · refine ⟨fuel, fun patience hle => ?_⟩
    rw [attend, Machine.run_of_ended h hle]
  · intro patience other hother
    rw [attend] at hother
    obtain ⟨start, hstart, -⟩ := Machine.start_of_ended h
    cases hx : job.machine.run (.watched job.stepLimit) patience d.console with
    | refused fault console =>
      rw [Machine.run_of_start hstart] at hx
      generalize job.machine.execute (.watched job.stepLimit) patience start = x at hx
      cases x <;> exact nomatch hx
    | ended fault t =>
      obtain ⟨rfl, rfl⟩ := Machine.ended_unique h hx
      rw [hx] at hother
      exact (Option.some.inj hother).symm
    -- With less patience there is no report at all: nothing is there to stop the wait.
    | waiting t | running t =>
      rw [hx] at hother
      cases hother.symm.trans (giveUp_eq_none htimeout hint _)

theorem conclude_eq_endingOf (job : Job) (hprogram : job.machine.program = Program.parse job.source)
    (h : result ≠ some .cancelled) :
    job.conclude false (.finished result) = endingOf job.tool job.source result := by
  cases result with
  | none => rfl
  | some fault =>
    cases fault with
    | cancelled => exact absurd rfl h
    | _ => simp only [Job.conclude, Job.faultEnding, endingOf, hprogram]

/-- A fault of loading is never a limit that was reached. -/
theorem endingOf_of_load {memory : Nat} {policy : Policy} {fault : Fault}
    (h : Machine.load source memory policy = .error fault) (tool : String) :
    endingOf tool source (some fault) =
      ⟨fault.status, Diagnostic.render tool source (Program.parse source) fault⟩ := by
  have hblames := Machine.loadBlames h
  cases fault with
  | stepLimit limit => exact nomatch hblames
  | _ => rfl

/-- What is prepared from a source ends as the source does. -/
theorem prepare_settlesOn (i : Invocation) (file : Settings × List Notice)
    (breakdown : String → String) {input output : List UInt8}
    (htimeout : (Settings.effective o.settings i.environment file.1).1.timeout = none)
    (h : Machine.ComesTo source (Settings.effective o.settings i.environment file.1).1 input output
      result) :
    ∃ notices,
      SettlesOn (fun patience =>
          (prepare i o source file).report (.working input) patience breakdown)
      ⟨endingOf i.tool source result, output, notices⟩ := by
  rw [prepare]
  generalize Settings.effective o.settings i.environment file.1 = resolved at htimeout h ⊢
  obtain ⟨settings, onEnvironment⟩ := resolved
  dsimp only at htimeout h ⊢
  cases h with
  | rejected hload =>
    rw [hload, endingOf_of_load hload]
    exact ⟨_, ⟨0, fun _ _ => rfl⟩, fun _ _ hother => (Option.some.inj hother).symm⟩
  | @ended m fuel _ final hload hrun =>
    obtain ⟨hprogram, -⟩ := Machine.load_eq_ok hload
    obtain ⟨t, ht, houtput⟩ := Machine.run_on_working hrun
    have hcancel := Machine.not_cancelled_of_calm (Console.calm_ofInput input) hrun
    let job : Job := ⟨i.tool, source, m, settings.stepLimit, settings.timeout⟩
    rw [hload, ← houtput, ← conclude_eq_endingOf job hprogram hcancel]
    exact ⟨_, attend_settlesOn job ht htimeout rfl (file.2 ++ onEnvironment)⟩

/-- What a file of settings says. One that is no text says nothing. -/
def settingsIn (content : ByteArray) : Settings :=
  match String.fromUTF8? content with
  | some text => (Settings.parse text).1
  | none => {}

/-- What the settings file says, if there is one, and what it leaves of the input: a settings file
that is standard input uses it up. -/
def fileSettings (env : Environment) (readFile : String → Except ReadFailure FileContent)
    (input : List UInt8) : Settings × List UInt8 :=
  match (Settings.path? env).map readFile with
  | some (.ok (.bytes content)) => (settingsIn content, input)
  | some (.ok .standardInput) => (settingsIn input.toByteArray, [])
  | _ => ({}, input)

theorem settingsOf_decode (path : String) (content : ByteArray) :
    (settingsOf path (decode (.ok content))).1 = settingsIn content := by
  rw [decode, settingsIn]
  cases String.fromUTF8? content <;> rfl

theorem loadSettings_working (i : Invocation) (input : List UInt8) :
    ∃ notices, loadSettings i (.working input) =
      some (((fileSettings i.environment i.readFile input).1, notices),
        .working (fileSettings i.environment i.readFile input).2) := by
  rw [loadSettings, fileSettings]
  cases Settings.path? i.environment with
  | none => exact ⟨[], rfl⟩
  | some path =>
    simp only [readText, Option.map_some]
    rcases i.readFile path with failure | (content | _)
    · exact ⟨[], rfl⟩
    · refine ⟨(settingsOf path (decode (.ok content))).2, ?_⟩
      simp only [Devices.fetch, Option.map_some, ← settingsOf_decode path]
    · refine ⟨(settingsOf path (decode (.ok input.toByteArray))).2, ?_⟩
      simp only [Devices.fetch, Devices.drain_working, Option.map_some, ← settingsOf_decode path]

/-- Options of a run that neither name a source nor ask for help. -/
structure Flags (flags : List String) (o : Options) : Prop where
  accepted : Options.parse .run flags = some o
  no_separator : "--" ∉ flags
  no_code : o.code = []
  no_file : o.file = none
  no_help : o.help = false

/-- The ways to give a source beside options: in words of which the first is no option, in words
behind a separator, or as the content of a file that is named somewhere among the options. -/
inductive Gives (readFile : String → Except ReadFailure FileContent) (flags : List String)
    (source : String) : List String → Prop where
  | words {first : String} {rest : List String} (plain : word .run first.toList = .code)
      (joined : String.join (first :: rest) = source) :
      Gives readFile flags source (flags ++ first :: rest)
  | separated {first : String} {rest : List String}
      (joined : String.join (first :: rest) = source) :
      Gives readFile flags source (flags ++ "--" :: first :: rest)
  | file {before after names : List String} {o : Options} {path : String}
      (flags_eq : flags = before ++ after) (accepted : Options.parse .run before = some o)
      (no_code : o.code = []) (named : Options.NamesFile .run path names) (path_ne : path ≠ "")
      (content : readFile path = .ok (.bytes source.toUTF8)) :
      Gives readFile flags source (before ++ names ++ after)

/-- A text is read as it was written. -/
theorem fromUTF8?_toUTF8 (text : String) : String.fromUTF8? text.toUTF8 = some text := by
  rw [String.fromUTF8?, String.toUTF8_eq_toByteArray, dif_pos text.isValidUTF8]
  rfl

theorem decode_toUTF8 (text : String) : decode (.ok text.toUTF8) = .ok text := by
  rw [decode, fromUTF8?_toUTF8]

/-- Whichever way it is given, the source is what is loaded, under the settings of the options. -/
theorem Gives.loaded {flags arguments : List String} (h : Gives readFile flags source arguments)
    (hflags : Flags flags o) :
    ∃ o', Options.parse .run arguments = some o' ∧ o'.settings = o.settings ∧ o'.help = false ∧
      ∀ tool arguments env d,
        loadSource ⟨tool, arguments, env, readFile⟩ d .run o' = some (.ok source, d) := by
  have htaken : Options.Taken .run flags {} o :=
    Options.taken_of_parseFrom hflags.accepted hflags.no_code hflags.no_separator
  cases h with
  | @words first rest plain joined =>
    refine ⟨{ o with code := first :: rest }, ?_, rfl, hflags.no_help, ?_⟩
    · rw [Options.parse, htaken.parseFrom_append, Options.parseFrom_code plain]
    · intro tool arguments env d
      simp only [loadSource, hflags.no_file, joined]
  | @separated first rest joined =>
    refine ⟨{ o with code := first :: rest }, ?_, rfl, hflags.no_help, ?_⟩
    · rw [Options.parse, htaken.parseFrom_append, Options.parseFrom_separator]
    · intro tool arguments env d
      simp only [loadSource, hflags.no_file, joined]
  | @file before after names o₁ path flags_eq accepted no_code named path_ne content =>
    subst flags_eq
    have hsep := List.mem_append.not.mp hflags.no_separator
    -- The options behind the file are those that would stand there without it.
    have hbefore : Options.Taken .run before {} o₁ :=
      Options.taken_of_parseFrom accepted no_code fun hmem => hsep (.inl hmem)
    have hafter : Options.Taken .run after o₁ o := by
      apply Options.taken_of_parseFrom _ hflags.no_code fun hmem => hsep (.inr hmem)
      rw [← hbefore.parseFrom_append, ← Options.parse, hflags.accepted]
    have hall := Options.taken_with_file_among hbefore hafter named path_ne hflags.no_file
    refine ⟨{ o with file := some path }, ?_, rfl, hflags.no_help, ?_⟩
    · rw [Options.parse, ← List.append_nil (before ++ names ++ after), hall.parseFrom_append]
      rfl
    · intro tool arguments env d
      simp only [loadSource, hflags.no_code, readText, content, Devices.fetch, Option.map_some,
        decode_toUTF8]
      rfl

/-- What there is to do depends on the source and the options only. -/
theorem Gives.task_eq {flags arguments : List String} (h : Gives readFile flags source arguments)
    (hflags : Flags flags o) (tool : String) (env : Environment) (d : Devices) :
    task ⟨tool, "run" :: arguments, env, readFile⟩ d =
      (loadSettings ⟨tool, flags, env, readFile⟩ d).map fun (settings, d) =>
        (prepare ⟨tool, flags, env, readFile⟩ o source settings, d) := by
  obtain ⟨o', hparse, hsettings, hhelp, hload⟩ := h.loaded hflags
  have hrequest : Arguments.parse ("run" :: arguments) = some (.perform .run o') := by
    rw [Arguments.parse, Arguments.parseFrom, if_neg (by decide), if_neg (by decide)]
    simp [Subcommand.ofName?, hparse]
  simp only [task, hrequest, perform, hhelp, hload, Option.bind_some, proceed, prepare, hsettings]
  rfl

/-- With devices that work, without a time limit and without Ctrl+C, a session whose source comes to
a result puts out what the source puts out, all of which has arrived when it is over, and ends as
its result says. The ways of giving the source cannot be told apart. -/
theorem run_is_faithful {flags : List String} {o : Options} (hflags : Flags flags o)
    (tool source : String) (env : Environment)
    (readFile : String → Except ReadFailure FileContent) (breakdown : String → String) :
    (∀ input output result,
      let file := fileSettings env readFile input
      let settings := (Settings.effective o.settings env file.1).1
      settings.timeout = none → Machine.ComesTo source settings file.2 output result →
        ∃ notices, ∀ arguments, Gives readFile flags source arguments →
          SettlesOn (run ⟨tool, "run" :: arguments, env, readFile⟩ (.working input) · breakdown)
            ⟨endingOf tool source result, output, notices⟩) ∧
    ∀ arguments arguments', Gives readFile flags source arguments →
      Gives readFile flags source arguments' → ∀ d patience,
        run ⟨tool, "run" :: arguments, env, readFile⟩ d patience breakdown =
          run ⟨tool, "run" :: arguments', env, readFile⟩ d patience breakdown := by
  constructor
  · intro input output result file settings htimeout hcomes
    let i : Invocation := ⟨tool, flags, env, readFile⟩
    obtain ⟨onFile, hfile⟩ := loadSettings_working i input
    obtain ⟨notices, hsettles⟩ := prepare_settlesOn i (file.1, onFile) breakdown htimeout hcomes
    refine ⟨notices, fun arguments hgives => ?_⟩
    have hrun : (run ⟨tool, "run" :: arguments, env, readFile⟩ (.working input) · breakdown) =
        fun patience =>
          (prepare i o source (file.1, onFile)).report (.working file.2) patience breakdown := by
      funext patience
      rw [run, hgives.task_eq hflags, hfile]
      rfl
    rw [hrun]
    exact hsettles
  · intro arguments arguments' hgives hgives' d patience
    rw [run, run, hgives.task_eq hflags, hgives'.task_eq hflags]

/-- The settings file has a limit that is reached behind the first byte of the output. The source is
given in a word, in two words behind a separator, and in a file in front of another option. -/
theorem limited_echo_in_three_ways :
    let env : Environment := [("BF_CONFIG", "limits".toUTF8)]
    let readFile : String → Except ReadFailure FileContent
      | "limits" => .ok (.bytes "[run]\nmax_steps = 3\n".toUTF8)
      | "echo" => .ok (.bytes ",.+.é".toUTF8)
      | _ => .error .missing
    ∃ notices, ∀ arguments ∈ [["--memory", "2", ",.+.é"], ["--memory", "2", "--", ",.", "+.é"],
        ["--file", "echo", "--memory", "2"]],
      SettlesOn (run ⟨"bf", "run" :: arguments, env, readFile⟩ (.working [65, 66]) ·)
        ⟨⟨6, "Execution aborted: step limit exceeded (3)\n"⟩, [65], notices⟩ := by
  intro env readFile
  have hflags : Flags ["--memory", "2"] { memory := some 2 } := ⟨rfl, by decide, rfl, rfl, rfl⟩
  have hcomes : Machine.ComesTo ",.+.é" ⟨2, .growable, none, some 3⟩ [65, 66] [65]
      (some (.stepLimit 3)) := by
    let m : Machine := ⟨Program.parse ",.+.é", ⟨#[none, none, none, none]⟩, 2, .growable, rfl⟩
    obtain ⟨final, hrun, houtput⟩ : ∃ final,
        m.run (.watched (some 3)) 4 (.ofInput [.byte 65, .byte 66] .closed) =
          .ended (some (.stepLimit 3)) final ∧ final.console.output = [65] := ⟨_, rfl, rfl⟩
    rw [← houtput]
    exact .ended (show Machine.load ",.+.é" 2 .growable = .ok m from rfl) hrun
  obtain ⟨notices, hsettles⟩ :=
    (run_is_faithful hflags "bf" ",.+.é" env readFile bareBreakdown).1 [65, 66] [65] _ rfl hcomes
  refine ⟨notices, fun arguments hmem => hsettles arguments ?_⟩
  simp only [List.mem_cons, List.not_mem_nil, or_false] at hmem
  rcases hmem with rfl | rfl | rfl
  · exact .words rfl rfl
  · exact .separated rfl
  · have hnamed : Options.NamesFile .run "echo" ["--file", "echo"] := .apart rfl rfl
    have hgives : Gives readFile ([] ++ ["--memory", "2"]) ",.+.é"
        ([] ++ ["--file", "echo"] ++ ["--memory", "2"]) :=
      .file rfl rfl rfl hnamed (by decide) rfl
    exact hgives

end Session
end Brainfuck

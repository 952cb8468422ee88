import Brainfuck.Proofs.CommandLine
import Brainfuck.Proofs.Validity

/-!
# Code on the command line

Code looks much like options, and it is never taken for them: behind a separator all words are code,
and so are all words from the first one on that is no option. What is an option is said here by the
names that a subcommand knows. Options in front of the code mean what they mean without it; only a
file beside the code is refused, before anything is read or run.
-/
namespace Brainfuck

/-- How a subcommand is called. -/
def Subcommand.name : Subcommand → String
  | .run => "run"
  | .check => "check"

namespace Arguments

variable {sub : Subcommand} {text : List Char} {name : String}

/-- The long names of the options that a subcommand knows. -/
def longNames : Subcommand → List String
  | .run => ["file", "timeout", "max-steps", "memory", "bounded", "growable", "help"]
  | .check => ["file", "help"]

/-- The short names, of `--file` and `--help`. -/
def shortNames : List Char := ['f', 'h']

/-- A word is one of the options that a subcommand knows: a long name, alone or with a value behind
an equals sign, or a short name, alone or with something attached to it. What is attached has to be
made of short names itself; anything else makes the word code. -/
inductive KnownOption (sub : Subcommand) : List Char → Prop where
  | long {name : String} (known : name ∈ longNames sub) : KnownOption sub ('-' :: '-' :: name.toList)
  | valued {name : String} (known : name ∈ longNames sub) (value : List Char) :
      KnownOption sub ('-' :: '-' :: (name.toList ++ '=' :: value))
  | short {c : Char} {attached : List Char} (known : c ∈ shortNames)
      (row : ∀ a ∈ attached, a ∈ shortNames) : KnownOption sub ('-' :: c :: attached)

theorem mem_longNames_iff :
    name ∈ longNames sub ↔
      (Switch.ofName? sub name).isSome ∨ (Parameter.ofName? sub name).isSome := by
  constructor
  · intro h
    cases sub <;> simp only [longNames, List.mem_cons, List.not_mem_nil, or_false] at h
    · rcases h with rfl | rfl | rfl | rfl | rfl | rfl | rfl <;> decide
    · rcases h with rfl | rfl <;> decide
  · rintro (h | h)
    · unfold Switch.ofName? at h
      split at h
      · cases sub <;> decide
      · decide
      · decide
      · exact nomatch h
    · unfold Parameter.ofName? at h
      split at h
      · cases sub <;> decide
      · decide
      · decide
      · decide
      · exact nomatch h

/-- A long option is recognised by its name alone. -/
theorem long_eq_code_iff :
    long sub text = .code ↔ String.ofList (text.takeWhile (· != '=')) ∉ longNames sub := by
  rw [mem_longNames_iff, long]
  generalize String.ofList (text.takeWhile (· != '=')) = name
  cases Switch.ofName? sub name <;> cases Parameter.ofName? sub name <;> dsimp only <;>
    cases text.dropWhile (· != '=') <;> simp

theorem word_long (hne : text ≠ []) : word sub ('-' :: '-' :: text) = long sub text := by
  cases text with
  | nil => exact absurd rfl hne
  | cons c rest => rfl

theorem word_short {c : Char} {rest : List Char} (hc : c ≠ '-') :
    word sub ('-' :: c :: rest) =
      if (c :: rest).all isShort then .items (cluster (c :: rest)) else .code := by
  unfold word
  split
  · next h => exact absurd (List.cons.inj (List.cons.inj h).2).1 hc
  · next h => exact absurd (List.cons.inj (List.cons.inj h).2).1 hc
  · next h =>
    cases h
    rfl
  · next h => exact absurd rfl (h c rest)

theorem all_isShort_iff {letters : List Char} :
    letters.all isShort ↔ ∀ c ∈ letters, c ∈ shortNames := by
  simp [isShort, shortNames]

/-- No long name is empty, and none has an equals sign in it. -/
theorem longName_plain (h : name ∈ longNames sub) : name.toList ≠ [] ∧ '=' ∉ name.toList := by
  have hall : ∀ name ∈ longNames sub, name.toList ≠ [] ∧ '=' ∉ name.toList := by
    cases sub <;> decide
  exact hall name h

/-- A word with a long name is no code, whether it has a value or not. -/
theorem word_ne_code_of_name {rest : List Char} (h : name ∈ longNames sub)
    (hrest : rest = [] ∨ ∃ value, rest = '=' :: value) :
    word sub ('-' :: '-' :: (name.toList ++ rest)) ≠ .code := by
  obtain ⟨hne, hplain⟩ := longName_plain h
  have hname : ∀ c ∈ name.toList, (c != '=') = true := fun c hc => by
    simpa using fun heq : c = '=' => hplain (heq ▸ hc)
  have htake : (name.toList ++ rest).takeWhile (· != '=') = name.toList := by
    rw [List.takeWhile_append_of_pos hname]
    rcases hrest with rfl | ⟨value, rfl⟩ <;> simp
  rw [word_long (List.append_ne_nil_of_left_ne_nil hne rest), Ne, long_eq_code_iff, htake,
    String.ofList_toList]
  exact not_not_intro h

theorem KnownOption.word_ne_code (h : KnownOption sub text) : word sub text ≠ .code := by
  cases h with
  | long known => simpa using word_ne_code_of_name known (.inl rfl)
  | valued known value => exact word_ne_code_of_name known (.inr ⟨value, rfl⟩)
  | @short c attached known row =>
    have hc : c ≠ '-' := by
      rintro rfl
      exact absurd known (by decide)
    rw [word_short hc, if_pos (all_isShort_iff.mpr (List.forall_mem_cons.mpr ⟨known, row⟩))]
    exact nofun

theorem knownOption_of_long {rest : List Char} (h : long sub rest ≠ .code) :
    KnownOption sub ('-' :: '-' :: rest) := by
  have hname := not_not.mp (mt long_eq_code_iff.mpr h)
  have hsplit := List.takeWhile_append_dropWhile (p := (· != '=')) (l := rest)
  cases hdrop : rest.dropWhile (· != '=') with
  | nil =>
    rw [hdrop, List.append_nil] at hsplit
    have hknown := KnownOption.long hname
    rwa [String.toList_ofList, hsplit] at hknown
  | cons c value =>
    have hc : c = '=' := by
      have hhead := List.head?_dropWhile_not (· != '=') rest
      rw [hdrop] at hhead
      simpa using hhead
    rw [hdrop, hc] at hsplit
    have hknown := KnownOption.valued hname value
    rwa [String.toList_ofList, hsplit] at hknown

/-- What is neither the separator nor an option is code. -/
theorem word_eq_code_iff : word sub text = .code ↔ text ≠ ['-', '-'] ∧ ¬KnownOption sub text := by
  constructor
  · intro h
    refine ⟨?_, fun hknown => hknown.word_ne_code h⟩
    rintro rfl
    exact nomatch h
  · rintro ⟨hsep, hknown⟩
    unfold word
    split
    · exact absurd rfl hsep
    · exact not_not.mp fun hlong => hknown (knownOption_of_long hlong)
    · refine if_neg fun hall => hknown ?_
      obtain ⟨hc, hrest⟩ := List.forall_mem_cons.mp (all_isShort_iff.mp hall)
      exact .short hc hrest
    · rfl

end Arguments

namespace Session
open Arguments

variable {sub : Subcommand} {flags words arguments : List String} {o : Options}

/-- Options that are accepted on their own, without code and without a call for help. -/
structure Accepted (sub : Subcommand) (flags : List String) (o : Options) : Prop where
  parsed : Options.parse sub flags = some o
  no_separator : "--" ∉ flags
  no_code : o.code = []
  no_help : o.help = false

/-- The ways to put code behind options: behind a separator, or beginning with a word that is no
option. -/
inductive Follows (sub : Subcommand) (flags words : List String) : List String → Prop where
  | separated : Follows sub flags words (flags ++ "--" :: words)
  | plain {first : String} {rest : List String} (begins : words = first :: rest)
      (no_separator : first ≠ "--") (no_option : ¬KnownOption sub first.toList) :
      Follows sub flags words (flags ++ words)

/-- Code behind options is taken up beside them, as it stands. -/
theorem Follows.parse_eq (h : Follows sub flags words arguments) (ho : Accepted sub flags o) :
    Options.parse sub arguments = some { o with code := words } := by
  have htaken : Options.Taken sub flags {} o :=
    Options.taken_of_parseFrom ho.parsed ho.no_code ho.no_separator
  cases h with
  | separated => rw [Options.parse, htaken.parseFrom_append, Options.parseFrom_separator]
  | @plain first rest begins no_separator no_option =>
    have hcode : word sub first.toList = .code :=
      word_eq_code_iff.mpr ⟨fun heq => no_separator (String.toList_injective heq), no_option⟩
    rw [Options.parse, htaken.parseFrom_append, begins, Options.parseFrom_code hcode]

theorem parse_subcommand (sub : Subcommand) {arguments : List String} {o : Options}
    (h : Options.parse sub arguments = some o) :
    Arguments.parse (sub.name :: arguments) = some (.perform sub o) := by
  cases sub <;> simp [Arguments.parse, Arguments.parseFrom, Subcommand.name, Subcommand.ofName?, h]

/-- A file beside code is refused. -/
def clash (tool : String) (sub : Subcommand) : Ending :=
  ⟨2, tool ++ ": cannot use positional code together with --file\n" ++ usage tool sub⟩

/-- Code is never taken for options: whatever its words look like, the options in front of them mean
what they mean on their own, and the source is all words joined. With a file among the options the
session ends at once with the usage, and no device is touched. -/
theorem code_never_taken_for_options (ho : Accepted sub flags o) (hwords : words ≠ [])
    (h : Follows sub flags words arguments) (tool : String) (env : Environment)
    (readFile : String → Except ReadFailure FileContent) (d : Devices) :
    let i : Invocation := ⟨tool, sub.name :: arguments, env, readFile⟩
    let given : Options := { o with code := words }
    Arguments.parse i.arguments = some (.perform sub given) ∧ given.settings = o.settings ∧
      (o.file = none → Obtains i d sub given (String.join words) d) ∧
      (o.file ≠ none → task i d = some (.leave (clash tool sub) [], d) ∧
        ∀ patience breakdown, run i d patience breakdown = some ⟨clash tool sub, [], []⟩) := by
  intro i given
  have hparse : Arguments.parse i.arguments = some (.perform sub given) :=
    parse_subcommand sub (h.parse_eq ho)
  refine ⟨hparse, rfl, fun hfile => ⟨hparse, ho.no_help, ?_⟩, fun hfile => ?_⟩
  · cases words with
    | nil => exact absurd rfl hwords
    | cons first rest => simp only [loadSource, given, hfile]
  · obtain ⟨path, hpath⟩ := Option.ne_none_iff_exists'.mp hfile
    have htask : task i d = some (.leave (clash tool sub) [], d) := by
      cases words with
      | nil => exact absurd rfl hwords
      | cons first rest =>
        simp only [task, hparse, perform, given, ho.no_help, loadSource, hpath, proceed]
        rfl
    exact ⟨htask, run_of_task htask⟩

/-- Options behind the separator are code, a hyphen alone makes no option, and a file excludes all
code. -/
theorem hyphens_behind_options :
    let obtains (sub : Subcommand) (arguments : List String) (o : Options) (source : String) : Prop :=
      Obtains ⟨"bf", sub.name :: arguments, [], fun _ => .error .missing⟩ (.working []) sub o source
        (.working [])
    obtains .run ["--max-steps=7", "--bounded", "--", "-h", "--", "--memory", ""]
      { bounded := true, stepLimit := some 7, code := ["-h", "--", "--memory", ""] } "-h----memory" ∧
    obtains .check ["-fx.", "--help", "--"] { code := ["-fx.", "--help", "--"] } "-fx.--help--" ∧
    run ⟨"bf", ["check", "-f", "p", "-.", "-h"], [], fun _ => .error .missing⟩ (.working []) 0 =
      some ⟨clash "bf" .check, [], []⟩ := by
  have hflags : Accepted .run ["--max-steps=7", "--bounded"]
      { bounded := true, stepLimit := some 7 } := ⟨rfl, by decide, rfl, rfl⟩
  have hnone : Accepted .check [] {} := ⟨rfl, by decide, rfl, rfl⟩
  have hfile : Accepted .check ["-f", "p"] { file := some "p" } := ⟨rfl, by decide, rfl, rfl⟩
  have hcode : Follows .check [] ["-fx.", "--help", "--"] ["-fx.", "--help", "--"] :=
    .plain rfl (by decide) (word_eq_code_iff.mp (by decide)).2
  have hcode' : Follows .check ["-f", "p"] ["-.", "-h"] ["-f", "p", "-.", "-h"] :=
    .plain rfl (by decide) (word_eq_code_iff.mp (by decide)).2
  refine ⟨?_, ?_, ?_⟩
  · exact (code_never_taken_for_options hflags (by decide) .separated "bf" [] _ _).2.2.1 rfl
  · exact (code_never_taken_for_options hnone (by decide) hcode "bf" [] _ _).2.2.1 rfl
  · have hclash (readFile : String → Except ReadFailure FileContent) (d : Devices) :=
      (code_never_taken_for_options hfile (by decide) hcode' "bf" [] readFile d).2.2.2 (by decide)
    exact (hclash _ _).2 0 bareBreakdown

end Session
end Brainfuck

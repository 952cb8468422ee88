import Brainfuck.Arguments

/-!
# Options and code on the command line

Options that are accepted on their own are accepted in front of anything, and what comes behind
them is read as if they had been taken up before. Code begins at `--`, or at the first word that is
no option, and all that follows belongs to it. The name of a file can be given anywhere among the
other options.
-/
namespace Brainfuck.Arguments

variable {sub : Subcommand}

theorem long_ne_separator (text : List Char) : long sub text ≠ .separator := by
  unfold long
  dsimp only
  split <;> split <;> exact nofun

/-- There is one way to write the separator. -/
theorem eq_of_word_separator {argument : String} (h : word sub argument.toList = .separator) :
    argument = "--" := by
  unfold word at h
  split at h
  · next htext => rw [← String.ofList_toList (s := argument), htext]
  · exact absurd h (long_ne_separator _)
  · split at h <;> exact nomatch h
  · exact nomatch h

namespace Options

variable {o o' : Options} {words rest : List String} {path : String} {items : List Item}

/-- Words that are options, with the values of those that have one, take up the options in `o` to
those in `o'`. -/
inductive Taken (sub : Subcommand) : List String → Options → Options → Prop where
  | nil (o : Options) : Taken sub [] o o
  | plain {argument : String} {rest : List String} {items : List Item} {o o₁ o' : Options}
      (known : word sub argument.toList = .items items) (taken : o.take items = some (o₁, none))
      (tail : Taken sub rest o₁ o') : Taken sub (argument :: rest) o o'
  | valued {argument value : String} {rest : List String} {items : List Item} {p : Parameter}
      {o o₁ o₂ o' : Options} (known : word sub argument.toList = .items items)
      (taken : o.take items = some (o₁, some p)) (plain : word sub value.toList = .code)
      (assigned : o₁.assign p value.toList = some o₂) (tail : Taken sub rest o₂ o') :
      Taken sub (argument :: value :: rest) o o'

/-- What comes behind options is read as if they had been taken up before. -/
theorem Taken.parseFrom_append (h : Taken sub words o o') (rest : List String) :
    parseFrom sub (words ++ rest) o = parseFrom sub rest o' := by
  induction h with
  | nil => rfl
  | plain known taken _ ih =>
    rw [List.cons_append, parseFrom, known]
    simp only [taken, ih]
  | valued known taken plain assigned _ ih =>
    rw [List.cons_append, List.cons_append, parseFrom, known]
    simp only [taken, plain, if_true, assigned, ih]

/-- Arguments without code and without separator are options. -/
theorem taken_of_parseFrom (h : parseFrom sub words o = some o') (hcode : o'.code = [])
    (hsep : "--" ∉ words) : Taken sub words o o' := by
  fun_induction parseFrom sub words o with
  | case1 o =>
    cases h
    exact .nil _
  | case2 argument rest o hword =>
    rw [eq_of_word_separator hword] at hsep
    exact absurd List.mem_cons_self hsep
  | case3 argument rest o hword =>
    cases h
    exact nomatch hcode
  | case4 | case5 | case7 | case8 | case10 => exact nomatch h
  | case6 argument o items hword o₁ rest htake ih =>
    exact .plain hword htake (ih h fun hmem => hsep (List.mem_cons_of_mem argument hmem))
  | case9 argument o items hword o₁ p value rest htake hvalue o₂ hassign ih =>
    refine .valued hword htake hvalue hassign (ih h fun hmem => hsep ?_)
    exact List.mem_cons_of_mem argument (List.mem_cons_of_mem value hmem)

/-- All words behind the separator are code. -/
theorem parseFrom_separator (code : List String) (o : Options) :
    parseFrom sub ("--" :: code) o = some { o with code } := rfl

theorem parseFrom_code {first : String} (h : word sub first.toList = .code) (rest : List String)
    (o : Options) : parseFrom sub (first :: rest) o = some { o with code := first :: rest } := by
  rw [parseFrom, h]

/-!
Options that leave the file open can be taken up as well when it is given already. A file that was
given is never forgotten, so they leave it open from the first of them to the last.
-/

section File

variable (file : Option String)

theorem turnOn_with_file {s : Switch} (h : o.turnOn s = some o') :
    o'.file = o.file ∧ { o with file }.turnOn s = some { o' with file } := by
  cases s with
  | help =>
    simp only [turnOn, Option.ite_none_left_eq_some, Option.some.injEq] at h ⊢
    obtain ⟨hhelp, rfl⟩ := h
    exact ⟨rfl, hhelp, rfl⟩
  | bounded | growable =>
    simp only [turnOn, Option.ite_none_left_eq_some, Option.some.injEq] at h ⊢
    obtain ⟨hpolicy, rfl⟩ := h
    exact ⟨rfl, hpolicy, rfl⟩

theorem assign_with_file {p : Parameter} {value : List Char} (h : o.assign p value = some o')
    (hopen : o'.file = none) :
    o.file = none ∧ { o with file }.assign p value = some { o' with file } := by
  unfold assign at h ⊢
  split at h
  · exact nomatch h
  · next hvalue =>
    rw [if_neg hvalue]
    cases p with
    | file =>
      simp only [Option.ite_none_left_eq_some, Option.some.injEq] at h
      obtain ⟨-, rfl⟩ := h
      exact nomatch hopen
    | timeout | stepLimit | memory =>
      simp only [Option.ite_none_left_eq_some, Option.map_eq_some_iff] at h ⊢
      obtain ⟨hfirst, n, hn, rfl⟩ := h
      exact ⟨hopen, hfirst, n, hn, rfl⟩

theorem take_with_file {p? : Option Parameter} (h : o.take items = some (o', p?))
    (hopen : o'.file = none) :
    o.file = none ∧ { o with file }.take items = some ({ o' with file }, p?) := by
  induction items generalizing o with
  | nil =>
    cases h
    exact ⟨hopen, rfl⟩
  | cons item items ih =>
    cases item with
    | switch s =>
      obtain ⟨o₁, hon, hrest⟩ := Option.bind_eq_some_iff.mp h
      obtain ⟨hopen₁, hrest₁⟩ := ih hrest
      obtain ⟨hfile, hon₁⟩ := turnOn_with_file file hon
      refine ⟨hfile ▸ hopen₁, ?_⟩
      rw [take, hon₁, Option.bind_some, hrest₁]
    | assigned p value =>
      obtain ⟨o₁, hassign, hrest⟩ := Option.bind_eq_some_iff.mp h
      obtain ⟨hopen₁, hrest₁⟩ := ih hrest
      obtain ⟨hopen₀, hassign₁⟩ := assign_with_file file hassign hopen₁
      refine ⟨hopen₀, ?_⟩
      rw [take, hassign₁, Option.bind_some, hrest₁]
    | awaiting p =>
      cases h
      exact ⟨hopen, rfl⟩

theorem Taken.with_file (h : Taken sub words o o') (hopen : o'.file = none) :
    o.file = none ∧ Taken sub words { o with file } { o' with file } := by
  induction h with
  | nil => exact ⟨hopen, .nil _⟩
  | plain known taken _ ih =>
    obtain ⟨hopen₁, htail⟩ := ih hopen
    obtain ⟨hopen₀, htake⟩ := take_with_file file taken hopen₁
    exact ⟨hopen₀, .plain known htake htail⟩
  | valued known taken plain assigned _ ih =>
    obtain ⟨hopen₂, htail⟩ := ih hopen
    obtain ⟨hopen₁, hassign⟩ := assign_with_file file assigned hopen₂
    obtain ⟨hopen₀, htake⟩ := take_with_file file taken hopen₁
    exact ⟨hopen₀, .valued known htake plain hassign htail⟩

end File

/-- The ways in which a file is named: in a word of its own behind the option, or in the same word
as the option. -/
inductive NamesFile (sub : Subcommand) (path : String) : List String → Prop where
  | apart {option : String} (known : word sub option.toList = .items [.awaiting .file])
      (plain : word sub path.toList = .code) : NamesFile sub path [option, path]
  | attached {option : String}
      (known : word sub option.toList = .items [.assigned .file path.toList]) :
      NamesFile sub path [option]

theorem assign_file (hpath : path ≠ "") (hopen : o.file = none) :
    o.assign .file path.toList = some { o with file := some path } := by
  have hvalue : path.toList.isEmpty = false := by
    simpa [List.isEmpty_eq_false_iff] using hpath
  simp [assign, hvalue, hopen, String.ofList_toList]

theorem NamesFile.taken (h : NamesFile sub path words) (hpath : path ≠ "") (hopen : o.file = none) :
    Taken sub words o { o with file := some path } := by
  have hassign := assign_file hpath hopen
  cases h with
  | apart known plain => exact .valued known rfl plain hassign (.nil _)
  | attached known =>
    refine .plain known ?_ (.nil _)
    rw [take, hassign]
    rfl

theorem Taken.append {o'' : Options} (h : Taken sub words o o') (h' : Taken sub rest o' o'') :
    Taken sub (words ++ rest) o o'' := by
  induction h with
  | nil => exact h'
  | plain known taken _ ih => exact .plain known taken (ih h')
  | valued known taken plain assigned _ ih => exact .valued known taken plain assigned (ih h')

/-- A file can be named anywhere among options that leave it open. -/
theorem taken_with_file_among {before after file : List String} {o₁ : Options}
    (hbefore : Taken sub before o o₁) (hafter : Taken sub after o₁ o')
    (hfile : NamesFile sub path file) (hpath : path ≠ "") (hopen : o'.file = none) :
    Taken sub (before ++ file ++ after) o { o' with file := some path } := by
  obtain ⟨hopen₁, hafter₁⟩ := hafter.with_file (some path) hopen
  exact (hbefore.append (hfile.taken hpath hopen₁)).append hafter₁

end Options
end Brainfuck.Arguments

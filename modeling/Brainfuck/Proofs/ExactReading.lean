import Brainfuck.Proofs.Comments
import Mathlib.Data.List.Sort

/-!
# Reading a source exactly

A program that was read from a text holds the commands of the text in their order, each with the
number of its character. Its places are those of the command characters, each of them once, so that
the text leaves no choice: there is one such program. Written without comments and read again, it
has the same commands, now one next to the other from the first character on.
-/
namespace Brainfuck.Program

/-- The places in the source of all commands, in their order. -/
def offsets (p : Program) : List Nat := p.instructions.toList.map Instruction.offset

/-- The command that the character at a place stands for, if it stands for one. -/
def commandAt? (source : String) (k : Nat) : Option Command :=
  source.toList[k]?.bind Command.ofChar?

/-- A program holds the commands of a text, with their places and in their order: none is left out,
none comes twice, and nothing else is there. -/
structure Filters (source : String) (p : Program) : Prop where
  aligned : p.commands.length = p.offsets.length
  increasing : p.offsets.Pairwise (· < ·)
  within : ∀ k ∈ p.offsets, k < source.toList.length
  sound : ∀ i c k, p.command? i = some c → p.offset? i = some k → commandAt? source k = some c
  once : ∀ k, (commandAt? source k).isSome → p.offsets.count k = 1
  command?_isSome : ∀ i, (p.command? i).isSome ↔ i < p.size
  offset?_isSome : ∀ i, (p.offset? i).isSome ↔ i < p.size

variable {source : String} {p : Program} {x : Instruction} {k : Nat}

theorem lt_length_of_commandAt? {c : Command} (h : commandAt? source k = some c) :
    k < source.toList.length := by
  obtain ⟨a, ha, -⟩ := Option.bind_eq_some_iff.mp h
  exact (List.getElem?_eq_some_iff.mp ha).1

/-- The instructions of a text are its command characters with their numbers. -/
theorem mem_instructions_parse :
    x ∈ (parse source).instructions.toList ↔ commandAt? source x.offset = some x.command := by
  rw [parse, List.mem_filterMap, commandAt?, Option.bind_eq_some_iff]
  constructor
  · rintro ⟨⟨a, k⟩, hmem, hx⟩
    obtain ⟨c, hc, rfl⟩ := Option.map_eq_some_iff.mp hx
    exact ⟨a, List.mem_zipIdx_iff_getElem?.mp hmem, hc⟩
  · rintro ⟨a, ha, hc⟩
    refine ⟨(a, x.offset), List.mem_zipIdx_iff_getElem?.mpr ha, ?_⟩
    rw [instruction?, hc, Option.map_some]

theorem mem_offsets_parse : k ∈ (parse source).offsets ↔ (commandAt? source k).isSome := by
  rw [offsets, List.mem_map, Option.isSome_iff_exists]
  constructor
  · rintro ⟨x, hx, rfl⟩
    exact ⟨x.command, mem_instructions_parse.mp hx⟩
  · rintro ⟨c, hc⟩
    exact ⟨⟨c, k⟩, mem_instructions_parse.mpr hc, rfl⟩

/-- The characters are numbered upwards, and what is left of them stays in order. -/
theorem offsets_parse_increasing (source : String) :
    (parse source).offsets.Pairwise (· < ·) := by
  have hnumbers : source.toList.zipIdx.Pairwise fun a b => a.2 < b.2 := by
    rw [← List.pairwise_map (f := Prod.snd) (R := (· < ·)), List.zipIdx_map_snd]
    exact List.pairwise_lt_range'
  rw [offsets, List.pairwise_map, parse]
  refine hnumbers.filterMap _ fun a b hlt x hx y hy => ?_
  obtain ⟨c, -, rfl⟩ := Option.map_eq_some_iff.mp hx
  obtain ⟨d, -, rfl⟩ := Option.map_eq_some_iff.mp hy
  exact hlt

theorem offsets_getElem? (p : Program) (i : Nat) : p.offsets[i]? = p.offset? i := by
  simp [offsets, offset?]

@[simp] theorem length_offsets (p : Program) : p.offsets.length = p.size := by
  simp [offsets, size]

theorem offset?_eq_none_iff {i : Nat} : p.offset? i = none ↔ p.size ≤ i := by
  rw [← offsets_getElem?, List.getElem?_eq_none_iff, length_offsets]

theorem filters_parse (source : String) : Filters source (parse source) where
  aligned := by rw [length_commands, length_offsets]
  increasing := offsets_parse_increasing source
  within := by
    intro k hk
    obtain ⟨c, hc⟩ := Option.isSome_iff_exists.mp (mem_offsets_parse.mp hk)
    exact lt_length_of_commandAt? hc
  sound := by
    intro i c k hc hk
    obtain ⟨x, hx, rfl⟩ := Option.map_eq_some_iff.mp hc
    obtain ⟨y, hy, rfl⟩ := Option.map_eq_some_iff.mp hk
    cases hx.symm.trans hy
    exact mem_instructions_parse.mp (Array.mem_toList_iff.mpr (Array.mem_of_getElem? hx))
  once := by
    intro k hk
    have hnodup : (parse source).offsets.Nodup := (offsets_parse_increasing source).imp Nat.ne_of_lt
    exact List.count_eq_one_of_mem hnodup (mem_offsets_parse.mpr hk)
  command?_isSome := by
    intro i
    rw [← Option.ne_none_iff_isSome, Ne, command?_eq_none_iff, Nat.not_le]
  offset?_isSome := by
    intro i
    rw [← Option.ne_none_iff_isSome, Ne, offset?_eq_none_iff, Nat.not_le]

/-- The places determine the instructions. -/
theorem Filters.instructions_eq (h : Filters source p) :
    p.instructions.toList =
      p.offsets.filterMap fun k => (commandAt? source k).map fun c => ⟨c, k⟩ := by
  have hback : ∀ x ∈ p.instructions.toList,
      (commandAt? source x.offset).map (fun c => ⟨c, x.offset⟩) = some x := by
    intro x hx
    obtain ⟨i, hi⟩ := List.mem_iff_getElem?.mp hx
    rw [Array.getElem?_toList] at hi
    have hcommand : p.command? i = some x.command := by rw [command?, hi, Option.map_some]
    have hoffset : p.offset? i = some x.offset := by rw [offset?, hi, Option.map_some]
    rw [h.sound i _ _ hcommand hoffset, Option.map_some]
  calc p.instructions.toList
      = p.instructions.toList.filterMap some := List.filterMap_some.symm
    _ = p.instructions.toList.filterMap fun x => (commandAt? source x.offset).map (⟨·, x.offset⟩) :=
        List.filterMap_congr fun x hx => (hback x hx).symm
    _ = _ := by
        rw [offsets, List.filterMap_map]
        rfl

theorem Filters.mem_offsets (h : Filters source p) :
    k ∈ p.offsets ↔ (commandAt? source k).isSome := by
  constructor
  · intro hk
    obtain ⟨i, hi⟩ := List.mem_iff_getElem?.mp hk
    have hlt : i < p.size := by
      rw [← length_offsets]
      exact (List.getElem?_eq_some_iff.mp hi).1
    obtain ⟨c, hc⟩ := Option.isSome_iff_exists.mp ((h.command?_isSome i).mpr hlt)
    rw [h.sound i c k hc (offsets_getElem? p i ▸ hi)]
    rfl
  · intro hk
    rw [← List.count_pos_iff, h.once k hk]
    exact Nat.one_pos

/-- No other program holds the commands of the text in this way. -/
theorem Filters.eq_parse (h : Filters source p) : p = parse source := by
  have hplaces : p.offsets = (parse source).offsets :=
    h.increasing.eq_of_mem_iff (offsets_parse_increasing source) fun k =>
      h.mem_offsets.trans mem_offsets_parse.symm
  have hsame : p.instructions.toList = (parse source).instructions.toList := by
    rw [h.instructions_eq, (filters_parse source).instructions_eq, hplaces]
  cases p
  exact congrArg Program.mk (Array.toList_inj.mp hsame)

/-- A program is written with the command characters of its source. -/
theorem text_parse (source : String) :
    (parse source).text = String.ofList (uncommented source) := by
  rw [text, map_toChar_commands]

/-- A text of commands alone is read without gaps. -/
theorem instructions_parse_text (p : Program) :
    (parse p.text).instructions.toList =
      p.commands.zipIdx.map fun numbered => ⟨numbered.1, numbered.2⟩ := by
  have hread (numbered : Command × Nat) :
      instruction? (numbered.1.toChar, numbered.2) = some ⟨numbered.1, numbered.2⟩ := by
    rw [instruction?, Command.ofChar?_toChar, Option.map_some]
  rw [parse, text, String.toList_ofList, List.zipIdx_map, List.filterMap_map,
    ← List.filterMap_eq_map]
  exact List.filterMap_congr fun numbered _ => hread numbered

theorem commands_parse_text (p : Program) : (parse p.text).commands = p.commands := by
  rw [commands, instructions_parse_text, List.map_map]
  exact List.zipIdx_map_fst 0 p.commands

theorem offsets_parse_text (p : Program) : (parse p.text).offsets = List.range p.size := by
  rw [offsets, instructions_parse_text, List.map_map, ← length_commands, List.range_eq_range']
  exact List.zipIdx_map_snd 0 p.commands

/-- Reading a text finds its commands and their places, exactly and in order. What is written without
comments is the text without all other characters, and reading this again loses nothing. -/
theorem parse_is_exact_filter (source : String) :
    Filters source (parse source) ∧ (∀ p, Filters source p → p = parse source) ∧
      (parse source).text = String.ofList (uncommented source) ∧
      (parse (parse source).text).commands = (parse source).commands ∧
      (parse (parse source).text).offsets = List.range (parse source).size ∧
      (parse (parse source).text).text = (parse source).text := by
  have hcommands := commands_parse_text (parse source)
  refine ⟨filters_parse source, fun p h => h.eq_parse, text_parse source, hcommands,
    offsets_parse_text (parse source), ?_⟩
  rw [text, hcommands, ← text]

example : (parse "é+\n[λ\t-]").offsets = [1, 3, 6, 7] ∧ (parse "é+\n[λ\t-]").text = "+[-]" := by
  decide

end Brainfuck.Program

import Brainfuck.Program

/-!
# Places in the source

Every instruction of a program that was read from a source text stands in that text at its
offset, with as many command characters in front of it as its index says.
-/
namespace Brainfuck.Program

/-- The command with the given index stands at a place of a source text. -/
def StandsAt (source : String) (index : Nat) (c : Command) (offset : Nat) : Prop :=
  source.toList[offset]? = some c.toChar ∧
    ((source.toList.take offset).filterMap Command.ofChar?).length = index

/-- The instructions of the rest of a text, whose first character has number `k`. -/
theorem place_of_instruction {text : List Char} {k i : Nat} {x : Instruction}
    (h : ((text.zipIdx k).filterMap instruction?)[i]? = some x) :
    ∃ n, x.offset = k + n ∧ text[n]? = some x.command.toChar ∧
      ((text.take n).filterMap Command.ofChar?).length = i := by
  induction text generalizing k i with
  | nil => simp at h
  | cons a text ih =>
    rw [List.zipIdx_cons, List.filterMap_cons] at h
    cases ha : Command.ofChar? a with
    | none =>
      simp only [instruction?, ha, Option.map_none] at h
      obtain ⟨n, hoff, hchar, hcount⟩ := ih h
      refine ⟨n + 1, by omega, by simpa using hchar, ?_⟩
      simpa [ha] using hcount
    | some c =>
      simp only [instruction?, ha, Option.map_some] at h
      cases i with
      | zero =>
        simp only [List.getElem?_cons_zero, Option.some.injEq] at h
        subst h
        exact ⟨0, rfl, by simp [Command.toChar_of_ofChar? ha], rfl⟩
      | succ i =>
        rw [List.getElem?_cons_succ] at h
        obtain ⟨n, hoff, hchar, hcount⟩ := ih h
        refine ⟨n + 1, by omega, by simpa using hchar, ?_⟩
        simpa [ha] using hcount

/-- Every command of a program that was read has a place in the source. -/
theorem exists_place {source : String} {i : Nat} {c : Command}
    (h : (parse source).command? i = some c) :
    ∃ offset, (parse source).offset? i = some offset ∧ StandsAt source i c offset := by
  obtain ⟨x, hx, rfl⟩ := Option.map_eq_some_iff.mp h
  refine ⟨x.offset, Option.map_eq_some_iff.mpr ⟨x, hx, rfl⟩, ?_⟩
  rw [parse, List.getElem?_toArray] at hx
  obtain ⟨n, hoff, hchar, hcount⟩ := place_of_instruction hx
  rw [Nat.zero_add] at hoff
  rw [hoff]
  exact ⟨hchar, hcount⟩

/-- No two commands have one place. -/
theorem index_eq_of_offset? {source : String} {i j offset : Nat}
    (hi : (parse source).offset? i = some offset) (hj : (parse source).offset? j = some offset) :
    i = j := by
  have hcount {i : Nat} (h : (parse source).offset? i = some offset) :
      ((source.toList.take offset).filterMap Command.ofChar?).length = i := by
    obtain ⟨x, hx, rfl⟩ := Option.map_eq_some_iff.mp h
    rw [parse, List.getElem?_toArray] at hx
    obtain ⟨n, hoff, -, hlen⟩ := place_of_instruction hx
    rw [hoff, Nat.zero_add, hlen]
  rw [← hcount hi, hcount hj]

end Brainfuck.Program

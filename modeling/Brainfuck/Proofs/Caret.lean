import Brainfuck.Diagnostic
import Mathlib.Data.List.TakeWhile

/-!
# The caret of a diagnostic

The context of a place consists of a piece of its source line and of a caret that stands in the
column of the place.
-/
namespace Brainfuck.Diagnostic

/-- Two lines of text: a piece of a line of the source, with blanks for tabs, and a caret under
the character at the given offset. -/
def PointsAt (lines source : String) (offset : Nat) (c : Char) : Prop :=
  ∃ before piece after column, source.toList = before ++ (piece ++ after) ∧
    before.length + column = offset ∧ '\n' ∉ piece ∧ (piece.map untab)[column]? = some c ∧
    lines = String.ofList ([' ', ' '] ++ piece.map untab ++ ['\n', ' ', ' '] ++
      (List.replicate column ' ' ++ ['^']) ++ ['\n'])

theorem leftOf_suffix (text : List Char) (position : Nat) :
    leftOf text position <:+ text.take position := by
  rw [← List.reverse_prefix, leftOf, List.reverse_reverse]
  exact (List.take_prefix _ _).trans (List.takeWhile_prefix _)

theorem rightFrom_prefix (text : List Char) (position : Nat) :
    rightFrom text position <+: text.drop position :=
  (List.take_prefix _ _).trans (List.takeWhile_prefix _)

theorem newline_not_mem_leftOf (text : List Char) (position : Nat) :
    '\n' ∉ leftOf text position := by
  intro h
  rw [leftOf, List.mem_reverse] at h
  have := List.mem_takeWhile_imp (List.mem_of_mem_take h)
  exact absurd this (by decide)

theorem newline_not_mem_rightFrom (text : List Char) (position : Nat) :
    '\n' ∉ rightFrom text position := by
  intro h
  have := List.mem_takeWhile_imp (List.mem_of_mem_take h)
  exact absurd this (by decide)

/-- The part to the right begins with the character in question. -/
theorem head?_rightFrom {text : List Char} {position : Nat} {c : Char}
    (h : text[position]? = some c) (hc : c ≠ '\n') :
    (rightFrom text position).head? = some c := by
  have hd : text.drop position = c :: text.drop (position + 1) := by
    obtain ⟨hlt, rfl⟩ := List.getElem?_eq_some_iff.mp h
    exact List.drop_eq_getElem_cons hlt
  simp [rightFrom, hd, hc, reach]

theorem newline_not_mem_window (text : List Char) (position : Nat) :
    '\n' ∉ leftOf text position ++ rightFrom text position := by
  rw [List.mem_append]
  rintro (hl | hr)
  · exact newline_not_mem_leftOf _ _ hl
  · exact newline_not_mem_rightFrom _ _ hr

/-- What is shown in the column of the caret. -/
theorem getElem?_window {text : List Char} {position : Nat} {c : Char}
    (h : text[position]? = some c) (hc : c ≠ '\n') :
    ((leftOf text position ++ rightFrom text position).map untab)[(leftOf text position).length]? =
      some (untab c) := by
  rw [List.map_append, List.getElem?_append_right (by simp), List.length_map, Nat.sub_self,
    ← List.head?_eq_getElem?, List.head?_map, head?_rightFrom h hc, Option.map_some]

theorem context_pointsAt {source : String} {offset : Nat} {c : Char}
    (h : source.toList[offset]? = some c) (hc : c ≠ '\n') :
    PointsAt (context source offset) source offset (untab c) := by
  have hlt := (List.getElem?_eq_some_iff.mp h).1
  have hclamp : clamp source.toList offset = offset := Nat.min_eq_left (by omega)
  obtain ⟨before, hb⟩ := leftOf_suffix source.toList offset
  obtain ⟨after, ha⟩ := rightFrom_prefix source.toList offset
  refine ⟨before, leftOf source.toList offset ++ rightFrom source.toList offset, after,
    (leftOf source.toList offset).length, ?_, ?_, newline_not_mem_window _ _,
    getElem?_window h hc, ?_⟩
  · rw [List.append_assoc, ha, ← List.append_assoc, hb, List.take_append_drop]
  · rw [← List.length_append, hb, List.length_take, Nat.min_eq_left (Nat.le_of_lt hlt)]
  · simp only [context, hclamp, excerpt, caret]

end Brainfuck.Diagnostic

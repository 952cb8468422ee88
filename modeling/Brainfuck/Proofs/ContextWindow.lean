import Brainfuck.Proofs.Caret
import Brainfuck.Text.Decimal
import Mathlib.Algebra.Group.Nat.Defs

/-!
# The window of a context

The context of a place shows the characters of its line, as far as they are within reach of the
place, and a caret in its column. Here the window is found by its bounds: the line of the place goes
from one line feed to the next, the window is cut from it, and the piece between the bounds is taken
out of the text. Bounds that are out of order or out of range would have no piece, and a sum may not
pass the largest word; this never happens, whatever the text and the place.
-/
namespace Brainfuck.Diagnostic

/-- The line around a place: there is no line feed in it, and it goes on both sides as far as that
allows. A line feed ends its own line. -/
structure LineAround (text : List Char) (place first last : Nat) : Prop where
  first_le : first ≤ place
  le_last : place ≤ last
  last_le : last ≤ text.length
  clear : ∀ k, first ≤ k → k < last → text[k]? ≠ some '\n'
  begins : first = 0 ∨ text[first - 1]? = some '\n'
  ends : last = text.length ∨ text[last]? = some '\n'

/-- The first position behind the last line feed in front of a place. -/
def lineStart (before : List Char) : Nat :=
  (before.reverse.findIdx? (· == '\n')).elim 0 (before.length - ·)

/-- The position of the first line feed from a place on, or the end of the text. -/
def lineEnd (place : Nat) (behind : List Char) : Nat :=
  (behind.findIdx? (· == '\n')).elim (place + behind.length) (place + ·)

/-- The piece of a text between two positions. There is none if they are out of order or out of
range. -/
def piece? (text : List Char) (first last : Nat) : Option (List Char) :=
  if first ≤ last ∧ last ≤ text.length then some ((text.take last).drop first) else none

/-- A sum of two words, unless it is too large for a word. -/
def sum? (m n : Nat) : Option Nat := if m + n < Text.wordBound then some (m + n) else none

/-- A difference of two words, unless it is negative. -/
def difference? (m n : Nat) : Option Nat := if n ≤ m then some (m - n) else none

/-- The two lines of a context: a piece of the source and the caret in a column. -/
def twoLines (piece : List Char) (column : Nat) : String :=
  String.ofList ([' ', ' '] ++ piece.map untab ++ ['\n', ' ', ' '] ++
    (List.replicate column ' ' ++ ['^']) ++ ['\n'])

/-- The context of a position, found by the bounds of the line and of the window. There is none if
any bound is not as it should be. -/
def contextByBounds? (source : String) (position : Nat) : Option String := do
  let text := source.toList
  let place := clamp text position
  let before ← piece? text 0 place
  let behind ← piece? text place text.length
  let edge ← sum? place (reach + 1)
  let first := max (lineStart before) (place - reach)
  let piece ← piece? text first (min (lineEnd place behind) edge)
  let column ← difference? place first
  return twoLines piece column

variable {text : List Char} {place first last : Nat}

theorem clamp_le (text : List Char) (position : Nat) : clamp text position ≤ text.length :=
  (Nat.min_le_right _ _).trans (Nat.sub_le _ _)

theorem clear_of_findIdx? {part : List Char} {n : Nat} (h : part.findIdx? (· == '\n') = some n) :
    part[n]? = some '\n' ∧ ∀ k < n, part[k]? ≠ some '\n' := by
  obtain ⟨hlt, hfeed, hclear⟩ := List.findIdx?_eq_some_iff_getElem.mp h
  refine ⟨List.getElem?_eq_some_iff.mpr ⟨hlt, by simpa using hfeed⟩, fun k hk hfeed => ?_⟩
  obtain ⟨hlt', heq⟩ := List.getElem?_eq_some_iff.mp hfeed
  exact hclear k hk (by simpa using heq)

theorem clear_of_findIdx?_none {part : List Char} (h : part.findIdx? (· == '\n') = none) (k : Nat) :
    part[k]? ≠ some '\n' := fun hfeed =>
  nomatch List.findIdx?_eq_none_iff.mp h '\n' (List.mem_of_getElem? hfeed)

/-- The line begins where it is said to begin. -/
theorem lineStart_spec (h : place ≤ text.length) :
    lineStart (text.take place) ≤ place ∧
      (∀ k, lineStart (text.take place) ≤ k → k < place → text[k]? ≠ some '\n') ∧
      (lineStart (text.take place) = 0 ∨ text[lineStart (text.take place) - 1]? = some '\n') := by
  have hlength : (text.take place).length = place := List.length_take_of_le h
  -- Positions are counted backwards from the place.
  have hback (k : Nat) (hk : k < place) :
      (text.take place).reverse[place - 1 - k]? = text[k]? := by
    rw [List.getElem?_reverse (by omega), hlength, List.getElem?_take_of_lt (by omega)]
    congr 1
    omega
  cases hfind : (text.take place).reverse.findIdx? (· == '\n') with
  | none =>
    have hzero : lineStart (text.take place) = 0 := by rw [lineStart, hfind, Option.elim_none]
    rw [hzero]
    refine ⟨Nat.zero_le _, fun k _ hk => ?_, .inl rfl⟩
    rw [← hback k hk]
    exact clear_of_findIdx?_none hfind _
  | some n =>
    have hstart : lineStart (text.take place) = place - n := by
      rw [lineStart, hfind, hlength, Option.elim_some]
    obtain ⟨hfeed, hclear⟩ := clear_of_findIdx? hfind
    have hn : n < place := by
      simpa [hlength, h] using (List.getElem?_eq_some_iff.mp hfeed).1
    rw [hstart]
    refine ⟨Nat.sub_le _ _, fun k hlow hk => ?_, .inr ?_⟩
    · rw [← hback k hk]
      exact hclear _ (by omega)
    · rw [← hback (place - n - 1) (by omega)]
      have heq : place - 1 - (place - n - 1) = n := by omega
      rw [heq, hfeed]

/-- The line ends where it is said to end. -/
theorem lineEnd_spec (h : place ≤ text.length) :
    place ≤ lineEnd place (text.drop place) ∧ lineEnd place (text.drop place) ≤ text.length ∧
      (∀ k, place ≤ k → k < lineEnd place (text.drop place) → text[k]? ≠ some '\n') ∧
      (lineEnd place (text.drop place) = text.length ∨
        text[lineEnd place (text.drop place)]? = some '\n') := by
  have hahead (k : Nat) (hk : place ≤ k) : (text.drop place)[k - place]? = text[k]? := by
    rw [List.getElem?_drop, Nat.add_sub_cancel' hk]
  cases hfind : (text.drop place).findIdx? (· == '\n') with
  | none =>
    have hend : lineEnd place (text.drop place) = text.length := by
      rw [lineEnd, hfind, Option.elim_none, List.length_drop, Nat.add_sub_cancel' h]
    rw [hend]
    refine ⟨h, le_refl _, fun k hk _ => ?_, .inl rfl⟩
    rw [← hahead k hk]
    exact clear_of_findIdx?_none hfind _
  | some n =>
    have hend : lineEnd place (text.drop place) = place + n := by
      rw [lineEnd, hfind, Option.elim_some]
    obtain ⟨hfeed, hclear⟩ := clear_of_findIdx? hfind
    rw [List.getElem?_drop] at hfeed
    rw [hend]
    refine ⟨Nat.le_add_right _ _, (List.getElem?_eq_some_iff.mp hfeed).1.le, fun k hk hlt => ?_,
      .inr hfeed⟩
    rw [← hahead k hk]
    exact hclear _ (by omega)

theorem lineAround (h : place ≤ text.length) :
    LineAround text place (lineStart (text.take place)) (lineEnd place (text.drop place)) := by
  obtain ⟨hfirst, hbefore, hbegins⟩ := lineStart_spec h
  obtain ⟨hlast, hlength, hbehind, hends⟩ := lineEnd_spec h
  refine ⟨hfirst, hlast, hlength, fun k hlow hhigh => ?_, hbegins, hends⟩
  rcases Nat.lt_or_ge k place with hk | hk
  · exact hbefore k hlow hk
  · exact hbehind k hk hhigh

namespace LineAround

/-- A piece of the line has no line feed. -/
theorem clear_piece (h : LineAround text place first last) {low high : Nat} (hlow : first ≤ low)
    (hhigh : high ≤ last) : ∀ c ∈ (text.take high).drop low, (c != '\n') = true := by
  intro c hc
  obtain ⟨k, hk⟩ := List.mem_iff_getElem?.mp hc
  rw [List.getElem?_drop, List.getElem?_take] at hk
  split at hk
  · next hlt =>
    have hclear := h.clear (low + k) (by omega) (by omega)
    rw [hk] at hclear
    simpa using hclear
  · exact nomatch hk

theorem takeWhile_before (h : LineAround text place first last) :
    (text.take first).reverse.takeWhile (· != '\n') = [] := by
  cases first with
  | zero => rfl
  | succ n =>
    have hfeed : text[n]? = some '\n' := h.begins.resolve_left (Nat.succ_ne_zero n)
    rw [List.take_add_one, List.reverse_append]
    simp [hfeed]

theorem takeWhile_behind (h : LineAround text place first last) :
    (text.drop last).takeWhile (· != '\n') = [] := by
  rcases h.ends with hend | hfeed
  · rw [hend, List.drop_length]
    rfl
  · obtain ⟨hlt, heq⟩ := List.getElem?_eq_some_iff.mp hfeed
    rw [List.drop_eq_getElem_cons hlt, heq]
    rfl

/-- To the left of its place the line is shown from the lower bound on. -/
theorem leftOf_eq (h : LineAround text place first last) :
    leftOf text place = (text.take place).drop (max first (place - reach)) := by
  have hplace : place ≤ text.length := h.le_last.trans h.last_le
  have hclear : ∀ c ∈ ((text.take place).drop first).reverse, (c != '\n') = true := fun c hc =>
    h.clear_piece le_rfl h.le_last c (List.mem_reverse.mp hc)
  have hline : (text.take place).reverse.takeWhile (· != '\n') =
      ((text.take place).drop first).reverse := by
    calc (text.take place).reverse.takeWhile (· != '\n')
        = (((text.take place).take first ++ (text.take place).drop first).reverse).takeWhile
            (· != '\n') := by rw [List.take_append_drop]
      _ = ((text.take place).drop first).reverse := by
          rw [List.reverse_append, List.takeWhile_append_of_pos hclear, List.take_take,
            Nat.min_eq_left h.first_le, h.takeWhile_before, List.append_nil]
  rw [leftOf, hline, List.take_reverse, List.reverse_reverse, List.drop_drop]
  congr 1
  rw [List.length_drop, List.length_take_of_le hplace]
  omega

/-- From its place on the line is shown up to the upper bound. -/
theorem rightFrom_eq (h : LineAround text place first last) :
    rightFrom text place = (text.take (min last (place + (reach + 1)))).drop place := by
  have hsplit : text.drop place = (text.take last).drop place ++ text.drop last := by
    have hle : place ≤ (text.take last).length :=
      h.le_last.trans (List.length_take_of_le h.last_le).ge
    rw [← List.drop_append_of_le_length hle, List.take_append_drop]
  rw [rightFrom, hsplit, List.takeWhile_append_of_pos (h.clear_piece h.first_le le_rfl),
    h.takeWhile_behind, List.append_nil, List.take_drop, List.take_take, Nat.min_comm]

/-- The two parts are next to each other: together they are the piece between the bounds. -/
theorem window_eq (h : LineAround text place first last) :
    leftOf text place ++ rightFrom text place =
      (text.take (min last (place + (reach + 1)))).drop (max first (place - reach)) := by
  have hfirst := h.first_le
  have hlast := h.le_last
  have hlength := h.last_le
  rw [h.leftOf_eq, h.rightFrom_eq]
  generalize hhigh : min last (place + (reach + 1)) = high
  have hplace : place ≤ high := by omega
  have htake : text.take place = (text.take high).take place := by
    rw [List.take_take, Nat.min_eq_left hplace]
  have hle : max first (place - reach) ≤ ((text.take high).take place).length := by
    rw [← htake, List.length_take]
    omega
  rw [htake, ← List.drop_append_of_le_length hle, List.take_append_drop]

theorem length_leftOf (h : LineAround text place first last) :
    (leftOf text place).length = place - max first (place - reach) := by
  rw [h.leftOf_eq, List.length_drop, List.length_take_of_le (h.le_last.trans h.last_le)]

/-- The context of a place shows the window and the caret below it. -/
theorem context_eq {source : String} {position : Nat}
    (h : LineAround source.toList (clamp source.toList position) first last) :
    context source position =
      twoLines
        ((source.toList.take (min last (clamp source.toList position + (reach + 1)))).drop
          (max first (clamp source.toList position - reach)))
        (clamp source.toList position - max first (clamp source.toList position - reach)) := by
  rw [← h.window_eq, ← h.length_leftOf]
  rfl

end LineAround

/-- Every bound is as it should be, provided that the text has room in memory. -/
theorem contextByBounds?_eq {source : String} (hsize : source.toList.length < 2 ^ 63)
    (position : Nat) : contextByBounds? source position = some (context source position) := by
  have hplace := clamp_le source.toList position
  have h := lineAround hplace
  have hfirst := h.first_le
  have hlast := h.le_last
  have hlength := h.last_le
  have hbefore : piece? source.toList 0 (clamp source.toList position) = some _ :=
    if_pos ⟨Nat.zero_le _, hplace⟩
  have hbehind : piece? source.toList (clamp source.toList position) source.toList.length = some _ :=
    if_pos ⟨hplace, le_rfl⟩
  have hedge : sum? (clamp source.toList position) (reach + 1) = some _ :=
    if_pos (by rw [reach, Text.wordBound]; omega)
  rw [h.context_eq]
  simp only [contextByBounds?, hbefore, hbehind, hedge, Option.bind_eq_bind, Option.bind_some,
    List.drop_zero, List.take_length]
  rw [piece?, if_pos ⟨by omega, by omega⟩, Option.bind_some, difference?, if_pos (by omega)]
  rfl

theorem rightFrom_eq_nil {text : List Char} {place : Nat}
    (h : text[place]? = some '\n' ∨ text = []) : rightFrom text place = [] := by
  rcases h with hfeed | rfl
  · obtain ⟨hlt, heq⟩ := List.getElem?_eq_some_iff.mp hfeed
    rw [rightFrom, List.drop_eq_getElem_cons hlt, heq]
    rfl
  · simp [rightFrom]

theorem newline_not_mem_map_untab {piece : List Char} (h : '\n' ∉ piece) :
    '\n' ∉ piece.map untab := by
  intro hmem
  obtain ⟨c, hc, heq⟩ := List.mem_map.mp hmem
  rw [untab] at heq
  split at heq
  · exact absurd heq (by decide)
  · exact h (heq ▸ hc)

/-- The context of a position can always be had: no text in memory is so long that a bound could
fail. It consists of two lines: the part of the line of its place that is within reach, with blanks
for tabs, and a caret in the column of the place. A caret for a line feed, or in an empty text,
stands behind all that is shown. -/
theorem context_is_exact (source : String) (position : Nat) :
    let text := source.toList
    let place := min position (text.length - 1)
    (text.length < 2 ^ 63 → contextByBounds? source position = some (context source position)) ∧
      ∃ first last, LineAround text place first last ∧
        let low := max first (place - 32)
        let high := min last (place + 33)
        let shown := ((text.take high).drop low).map untab
        low ≤ place ∧ place ≤ high ∧ high ≤ text.length ∧
          context source position = String.ofList ([' ', ' '] ++ shown ++ ['\n'] ++
            [' ', ' '] ++ List.replicate (place - low) ' ' ++ ['^', '\n']) ∧
          shown.length ≤ 65 ∧ '\n' ∉ shown ∧
          (∀ c, text[place]? = some c → c ≠ '\n' → shown[place - low]? = some (untab c)) ∧
          (text[place]? = some '\n' ∨ text = [] → shown.length = place - low) := by
  intro text place
  obtain ⟨first, last, hline⟩ : ∃ first last, LineAround text place first last :=
    ⟨_, _, lineAround (clamp_le text position)⟩
  refine ⟨fun hsize => contextByBounds?_eq hsize position, first, last, hline, ?_⟩
  intro low high shown
  have hfirst := hline.first_le
  have hlast := hline.le_last
  have hlength := hline.last_le
  have hshown : shown = (leftOf text place ++ rightFrom text place).map untab :=
    congrArg (List.map untab) hline.window_eq.symm
  have hcolumn : place - low = (leftOf text place).length := hline.length_leftOf.symm
  refine ⟨by omega, by omega, by omega, ?_, ?_, ?_, fun c hc hne => ?_, fun hfeed => ?_⟩
  · rw [hshown, hcolumn]
    simp [context, excerpt, caret, place, text, clamp]
  · rw [List.length_map, List.length_drop, List.length_take]
    omega
  · rw [hshown]
    exact newline_not_mem_map_untab (newline_not_mem_window text place)
  · rw [hshown, hcolumn, getElem?_window hc hne]
  · rw [hshown, rightFrom_eq_nil hfeed, hcolumn, List.append_nil, List.length_map]

/-- A position past the end stands for the last character. Here this is a line feed, and the caret
comes behind the line that it ends. -/
theorem context_past_the_end :
    contextByBounds? "+\n[\t.\n" 99 = some "  [ .\n     ^\n" :=
  ((context_is_exact "+\n[\t.\n" 99).1 (by decide)).trans (by decide)

end Brainfuck.Diagnostic

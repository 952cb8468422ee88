import Brainfuck.Policy
import Brainfuck.Text.Decimal
import Brainfuck.Text.Lines
import Mathlib.Data.List.Induction
import Mathlib.Data.Nat.Digits.Defs

/-!
# What texts say

A text is a word when it is a row of decimal digits, with at most one plus sign in front, whose
value fits 64 bits. It names a policy when it is one of five names, apart from blanks around it and
from the case of its letters. And the lines of a text, once they are trimmed, are what stands
between its line feeds: a carriage return in front of a line feed is blank like others.
-/
namespace Brainfuck
namespace Text

/-- The value of a row of decimal digits, the most significant one first. -/
def value (digits : List Char) : Nat :=
  Nat.ofDigits 10 (digits.reverse.map fun c => c.toNat - '0'.toNat)

/-- A text writes a number as a 64-bit word. -/
def WritesWord (text : List Char) (n : Nat) : Prop :=
  ∃ digits, (text = digits ∨ text = '+' :: digits) ∧ digits ≠ [] ∧ (∀ c ∈ digits, c.isDigit) ∧
    n = value digits ∧ n < 2 ^ 64

theorem value_concat (digits : List Char) (c : Char) :
    value (digits ++ [c]) = 10 * value digits + (c.toNat - '0'.toNat) := by
  rw [value, List.reverse_append, List.map_append]
  simp [Nat.ofDigits_cons, value]
  omega

theorem ofDigits?_concat (digits : List Char) (c : Char) :
    ofDigits? (digits ++ [c]) =
      (ofDigits? digits).bind fun n =>
        if c.isDigit then some (10 * n + (c.toNat - '0'.toNat)) else none := by
  simp only [ofDigits?, List.foldlM_append, List.foldlM_cons, List.foldlM_nil, bind_pure]
  rfl

theorem ofDigits?_eq_some_iff {digits : List Char} {n : Nat} :
    ofDigits? digits = some n ↔ (∀ c ∈ digits, c.isDigit) ∧ n = value digits := by
  induction digits using List.reverseRecOn generalizing n with
  | nil =>
    constructor
    · intro h
      exact ⟨nofun, (Option.some.inj h).symm⟩
    · rintro ⟨-, rfl⟩
      rfl
  | append_singleton digits c ih =>
    rw [ofDigits?_concat, value_concat, Option.bind_eq_some_iff]
    constructor
    · rintro ⟨front, hfront, hn⟩
      obtain ⟨hall, rfl⟩ := ih.mp hfront
      split at hn
      · next hc =>
        cases hn
        refine ⟨fun a ha => ?_, rfl⟩
        rcases List.mem_append.mp ha with ha | ha
        · exact hall a ha
        · rw [List.mem_singleton.mp ha]
          exact hc
      · exact nomatch hn
    · rintro ⟨hall, rfl⟩
      have hfront : ∀ a ∈ digits, a.isDigit := fun a ha => hall a (List.mem_append_left [c] ha)
      have hc : c.isDigit := hall c (List.mem_append_right digits List.mem_cons_self)
      refine ⟨value digits, ih.mpr ⟨hfront, rfl⟩, ?_⟩
      rw [if_pos hc]

theorem dropPlus_of_isDigit {text : List Char} (h : ∀ c ∈ text, c.isDigit) :
    dropPlus text = text := by
  unfold dropPlus
  split
  · exact absurd (h '+' List.mem_cons_self) (by decide)
  · rfl

/-- Reading a word finds exactly what is written. -/
theorem word?_eq_some_iff {text : List Char} {n : Nat} :
    word? text = some n ↔ WritesWord text n := by
  have hread {digits : List Char} (hdrop : dropPlus text = digits) :
      word? text = some n ↔ digits ≠ [] ∧ ofDigits? digits = some n ∧ n < 2 ^ 64 := by
    rw [word?, hdrop]
    cases digits with
    | nil => simp
    | cons c rest =>
      rw [Option.filter_eq_some_iff, decide_eq_true_iff]
      exact ⟨fun h => ⟨List.cons_ne_nil c rest, h⟩, fun h => h.2⟩
  constructor
  · intro h
    obtain ⟨hne, hdigits, hlt⟩ := (hread rfl).mp h
    obtain ⟨hall, hvalue⟩ := ofDigits?_eq_some_iff.mp hdigits
    refine ⟨dropPlus text, ?_, hne, hall, hvalue, hlt⟩
    unfold dropPlus
    split
    · exact .inr rfl
    · exact .inl rfl
  · rintro ⟨digits, htext, hne, hall, hvalue, hlt⟩
    have hdrop : dropPlus text = digits := by
      rcases htext with rfl | rfl
      · exact dropPlus_of_isDigit hall
      · rfl
    exact (hread hdrop).mpr ⟨hne, ofDigits?_eq_some_iff.mpr ⟨hall, hvalue⟩, hlt⟩

/-- A blank at the end is trimmed. -/
theorem trim_append_blank {c : Char} (h : isBlank c) (text : List Char) :
    trim (text ++ [c]) = trim text := by
  rw [trim, trim, trimLeft, trimLeft, List.dropWhile_append]
  split
  · next hempty =>
    have hnil : text.dropWhile isBlank = [] := List.isEmpty_iff.mp hempty
    simp [hnil, h]
  · simp [trimRight, h]

/-- The carriage return at the end of a line does not show when the line is trimmed. -/
theorem trim_closeLine (reversed : List Char) :
    trim (closeLine reversed) = trim reversed.reverse := by
  unfold closeLine
  split
  · rw [List.reverse_cons, trim_append_blank (by decide)]
  · rfl

theorem trim_linesFrom (done : List (List Char)) (current text : List Char) :
    ∃ idle : List (List Char), (idle = [] ∨ idle = [[]]) ∧
      (linesFrom done current text).map trim ++ idle =
        done.reverse.map trim ++ (text.splitOnPPrepend (· == '\n') current).map trim := by
  induction text generalizing done current with
  | nil =>
    rw [linesFrom, List.splitOnPPrepend_nil]
    cases current with
    | nil => exact ⟨[[]], .inr rfl, rfl⟩
    | cons c current => exact ⟨[], .inl rfl, by simp⟩
  | cons c text ih =>
    by_cases hc : c = '\n'
    · subst hc
      obtain ⟨idle, hidle, heq⟩ := ih (closeLine current :: done) []
      refine ⟨idle, hidle, ?_⟩
      rw [linesFrom, heq, List.splitOnPPrepend_cons_pos (by decide)]
      simp [trim_closeLine]
    · obtain ⟨idle, hidle, heq⟩ := ih done (c :: current)
      refine ⟨idle, hidle, ?_⟩
      rw [linesFrom, heq, List.splitOnPPrepend_cons_neg (by simpa using hc)]
      exact hc

/-- The trimmed lines of a text stand between its line feeds. Only a last line without a character
may be left out. -/
theorem trim_lines (text : List Char) :
    ∃ idle : List (List Char), (idle = [] ∨ idle = [[]]) ∧
      (lines text).map trim ++ idle = (text.splitOn '\n').map trim :=
  trim_linesFrom [] [] text

end Text

namespace Policy

/-- The names of a policy. -/
def names : Policy → List String
  | .growable => ["growable", "grow", "unbounded"]
  | .bounded => ["bounded", "fixed"]

theorem ofName?_eq_some_iff {name : String} {p : Policy} :
    ofName? name = some p ↔ name ∈ p.names := by
  unfold ofName?
  constructor
  · intro h
    split at h
    · next hname =>
      cases h
      simpa [names] using hname
    · split at h
      · next hname =>
        cases h
        simpa [names] using hname
      · exact nomatch h
  · intro h
    cases p with
    | growable =>
      simp only [names, List.mem_cons, List.not_mem_nil, or_false] at h
      rw [if_pos h]
    | bounded =>
      simp only [names, List.mem_cons, List.not_mem_nil, or_false] at h
      rcases h with rfl | rfl <;> decide

/-- Reading a policy finds the one whose name it is. -/
theorem ofText?_eq_some_iff {text : List Char} {p : Policy} :
    ofText? text = some p ↔ String.ofList ((Text.trim text).map Char.toLower) ∈ p.names :=
  ofName?_eq_some_iff

end Policy
end Brainfuck

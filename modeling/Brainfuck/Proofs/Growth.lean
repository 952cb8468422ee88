import Brainfuck.Proofs.TapeOperations
import Mathlib.Order.Bounds.Defs
import Mathlib.Tactic.IntervalCases

/-!
# The growth of a tape

A growable tape gets twice as many cells whenever the pointer moves off its last one. Its size is
therefore settled by the furthest place of the pointer, whatever way it took: it is the first of the
sizes reached by doubling that has a cell there. More cells may be refused at any time, and then the
tape is as before.

The pointer and the size are words of 64 bits. Words wrap around, but no tape has more than
`capacity` cells, so a tape that counts in words does what a tape does that counts in numbers: no
sum or difference wraps, and twice the size is always a word.
-/
namespace Brainfuck.Tape

/-- The largest pointer on the way through a row of attempts, both ends included. -/
def furthest (t : Tape) : List Attempt → Nat
  | [] => t.pointer
  | a :: tries => max t.pointer ((t.attempt a).1.furthest tries)

/-- The pointer and the number of cells, as words. -/
structure Words where
  pointer : UInt64
  size : UInt64

def words (t : Tape) : Words := ⟨.ofNat t.pointer, .ofNat t.size⟩

namespace Words

def next (w : Words) : UInt64 := w.pointer + 1

/-- Twice the size, or the largest word if that is too much for a word. -/
def doubled (w : Words) : UInt64 :=
  if 2 * w.size.toNat ≤ maxWord then 2 * w.size else .ofNat maxWord

/-- The size after growth: twice as many cells, or else as many as the next index needs. -/
def grown (w : Words) : UInt64 := if w.next + 1 ≤ w.doubled then w.doubled else w.next + 1

/-- The number of cells that growth asks for. -/
def added (w : Words) : UInt64 := w.grown - w.size

/-- Try an operation, with words in place of numbers. Only moves concern the pointer and the size.
-/
def attempt (w : Words) (policy : Policy) (a : Attempt) : Words × Option Obstacle :=
  match a.operation with
  | .right =>
    if w.next < w.size then ({ w with pointer := w.next }, none)
    else
      match policy with
      | .bounded => (w, some (.overflow w.pointer.toNat w.size.toNat))
      | .growable =>
        if a.granted ∧ w.size.toNat + w.added.toNat ≤ capacity then (⟨w.next, w.grown⟩, none)
        else (w, some (.refused w.grown.toNat))
  | .left =>
    if w.pointer = 0 then (w, some .underflow) else ({ w with pointer := w.pointer - 1 }, none)
  | _ => (w, none)

def attempts (w : Words) (policy : Policy) (tries : List Attempt) : Words :=
  tries.foldl (fun w a => (w.attempt policy a).1) w

@[simp] theorem attempts_cons (w : Words) (policy : Policy) (a : Attempt) (tries : List Attempt) :
    w.attempts policy (a :: tries) = (w.attempt policy a).1.attempts policy tries := rfl

end Words

/-- All that a move to the right computes in words has its exact value. -/
structure Exact (t : Tape) : Prop where
  pointer : t.words.pointer.toNat = t.pointer
  size : t.words.size.toNat = t.size
  next : t.words.next.toNat = t.pointer + 1
  room : (t.words.next + 1).toNat = t.pointer + 1 + 1
  doubled : t.words.doubled.toNat = 2 * t.size
  /-- Twice the size has room for the next index anyway. -/
  grown : t.words.grown = t.words.doubled
  added : t.words.added.toNat + t.size = t.words.grown.toNat

/-- A tape that began with `least` cells and whose pointer went as far as `reached`. -/
structure Measured (policy : Policy) (least reached : Nat) (t : Tape) : Prop where
  policy_eq : t.policy = policy
  pointer_le : t.pointer ≤ reached
  reached_lt : reached < t.size
  size_le : t.size ≤ capacity
  bounded : policy = .bounded → t.size = least
  /-- No smaller number of doublings would do. -/
  doublings : ∃ k, t.size = least * 2 ^ k ∧ ∀ j < k, least * 2 ^ j ≤ reached

variable {t t' : Tape} {policy : Policy} {least reached : Nat}

/-- Where nothing is refused for want of cells, attempts are operations. -/
theorem attempts_granted (t : Tape) (ops : List Operation) :
    t.attempts (ops.map fun op => ⟨op, true⟩) = t.operate ops := by
  induction ops generalizing t with
  | nil => rfl
  | cons op ops ih => exact ih (t.apply op).1

section Doubling

/-- Neither the limit of words nor the room for the next index has a say in the size after growth.
-/
theorem grownSize_eq_double (h : t.size ≤ capacity) :
    grownSize t.size (t.pointer + 1) = 2 * t.size := by
  have hlt := t.pointer_lt_size
  simp only [grownSize, capacity, maxWord] at h ⊢
  omega

theorem size_le_of_blank {size : Nat} (h : blank size policy = .ok t) : t.size ≤ capacity := by
  rw [(blank_eq_ok h).2.1]
  by_contra hlarge
  rw [blank, if_neg fun hfits => hlarge hfits.2] at h
  cases h

theorem measured_blank {size : Nat} (h : blank size policy = .ok t) :
    t.Measured policy (max 1 size) 0 := by
  obtain ⟨hpointer, hsize, hpolicy⟩ := blank_eq_ok h
  refine ⟨hpolicy, hpointer.le, ?_, size_le_of_blank h, fun _ => hsize, 0, ?_, nofun⟩
  · rw [hsize]
    exact Nat.lt_of_lt_of_le Nat.one_pos (Nat.le_max_left 1 size)
  · rw [hsize, Nat.pow_zero, Nat.mul_one]

theorem Measured.of_same_size (h : t.Measured policy least reached) (hsize : t'.size = t.size)
    (hpolicy : t'.policy = t.policy) : t'.Measured policy least (max reached t'.pointer) where
  policy_eq := hpolicy.trans h.policy_eq
  pointer_le := Nat.le_max_right _ _
  reached_lt := Nat.max_lt.mpr ⟨hsize ▸ h.reached_lt, t'.pointer_lt_size⟩
  size_le := hsize ▸ h.size_le
  bounded hb := hsize.trans (h.bounded hb)
  doublings := by
    obtain ⟨k, hk, hleast⟩ := h.doublings
    exact ⟨k, hsize.trans hk, fun j hj => (hleast j hj).trans (Nat.le_max_left _ _)⟩

/-- Growth is one more doubling, and the pointer is on the first of the new cells. -/
theorem Measured.of_grown (h : t.Measured policy least reached) (growable : t.policy = .growable)
    (hpointer : t'.pointer = t.size) (hsize : t'.size = 2 * t.size) (hfits : t'.size ≤ capacity)
    (hpolicy : t'.policy = t.policy) : t'.Measured policy least (max reached t'.pointer) where
  policy_eq := hpolicy.trans h.policy_eq
  pointer_le := Nat.le_max_right _ _
  reached_lt := by
    have hlt := h.reached_lt
    omega
  size_le := hfits
  bounded hb := nomatch growable.symm.trans (h.policy_eq.trans hb)
  doublings := by
    obtain ⟨k, hk, -⟩ := h.doublings
    refine ⟨k + 1, ?_, fun j hj => ?_⟩
    · rw [hsize, hk, Nat.pow_succ, Nat.mul_comm 2, Nat.mul_assoc]
    · calc least * 2 ^ j ≤ least * 2 ^ k :=
            Nat.mul_le_mul_left _ (Nat.pow_le_pow_right Nat.two_pos (Nat.le_of_lt_succ hj))
        _ = t'.pointer := hk.symm.trans hpointer.symm
        _ ≤ max reached t'.pointer := Nat.le_max_right _ _

/-- One attempt keeps the measure. -/
theorem Measured.attempt (h : t.Measured policy least reached) (a : Attempt) :
    (t.attempt a).1.Measured policy least (max reached (t.attempt a).1.pointer) := by
  have hv := t.attempt_view a
  generalize t.attempt a = result at hv
  cases hv with
  | inPlace _ _ size policy => exact h.of_same_size size policy
  | left _ size policy => exact h.of_same_size size policy
  | right _ _ size policy => exact h.of_same_size size policy
  | grown edge growable fits pointer size policy =>
    rw [grownSize_eq_double h.size_le] at size fits
    exact h.of_grown growable (pointer.trans edge) size (size ▸ fits) policy
  | underflow _ => exact h.of_same_size rfl rfl
  | overflow _ _ => exact h.of_same_size rfl rfl
  | refused _ _ _ => exact h.of_same_size rfl rfl

theorem pointer_le_furthest (t : Tape) (tries : List Attempt) : t.pointer ≤ t.furthest tries := by
  cases tries with
  | nil => exact Nat.le_refl _
  | cons a tries => exact Nat.le_max_left _ _

/-- So do attempts one after the other. -/
theorem Measured.attempts (h : t.Measured policy least reached) (tries : List Attempt) :
    (t.attempts tries).Measured policy least (max reached (t.furthest tries)) := by
  induction tries generalizing t reached with
  | nil =>
    rw [furthest, Nat.max_eq_left h.pointer_le]
    exact h
  | cons a tries ih =>
    have hreached : max reached (t.furthest (a :: tries)) =
        max (max reached (t.attempt a).1.pointer) ((t.attempt a).1.furthest tries) := by
      -- Each tape on the way is counted as the end of one attempt and the start of the next.
      have hhere := h.pointer_le
      have hthere := (t.attempt a).1.pointer_le_furthest tries
      simp only [furthest]
      omega
    rw [hreached, attempts_cons]
    exact ih (h.attempt a)

theorem Measured.exists_isLeast (h : t.Measured policy least reached) :
    ∃ k, t.size = least * 2 ^ k ∧ IsLeast {k | reached < least * 2 ^ k} k := by
  obtain ⟨k, hk, hleast⟩ := h.doublings
  refine ⟨k, hk, Nat.lt_of_lt_of_eq h.reached_lt hk, fun j hj => ?_⟩
  by_contra hlt
  exact Nat.not_lt.mpr (hleast j (Nat.lt_of_not_le hlt)) hj

end Doubling

section Words

theorem toNat_add_one {w : UInt64} (h : w.toNat < maxWord) : (w + 1).toNat = w.toNat + 1 := by
  rw [UInt64.toNat_add, UInt64.toNat_one]
  exact Nat.mod_eq_of_lt (Nat.succ_lt_succ h)

/-- A tape within the capacity is well within the words. -/
theorem exact_of_size_le (h : t.size ≤ capacity) : t.Exact := by
  have hlt := t.pointer_lt_size
  have hword : 2 * t.size < maxWord := by
    rw [capacity] at h
    rw [maxWord]
    omega
  have hpointer : t.words.pointer.toNat = t.pointer :=
    UInt64.toNat_ofNat_of_lt (show t.pointer < maxWord + 1 by omega)
  have hsize : t.words.size.toNat = t.size :=
    UInt64.toNat_ofNat_of_lt (show t.size < maxWord + 1 by omega)
  have hnext : t.words.next.toNat = t.pointer + 1 := by
    rw [Words.next, toNat_add_one, hpointer]
    omega
  have hroom : (t.words.next + 1).toNat = t.pointer + 1 + 1 := by
    rw [toNat_add_one, hnext]
    omega
  have hdoubled : t.words.doubled.toNat = 2 * t.size := by
    rw [Words.doubled, hsize, if_pos hword.le, UInt64.toNat_mul, hsize]
    exact Nat.mod_eq_of_lt (Nat.lt_succ_of_lt hword)
  -- There is at least one cell, so one more cell is not more than twice as many.
  have hgrown : t.words.grown = t.words.doubled := by
    rw [Words.grown, if_pos]
    rw [UInt64.le_iff_toNat_le]
    omega
  refine ⟨hpointer, hsize, hnext, hroom, hdoubled, hgrown, ?_⟩
  have hle : t.words.size ≤ t.words.grown := by
    rw [UInt64.le_iff_toNat_le, hgrown]
    omega
  rw [Words.added, UInt64.toNat_sub_of_le _ _ hle, hgrown]
  omega

theorem words_eq {w : Words} (h : t.size ≤ capacity) (hpointer : w.pointer.toNat = t.pointer)
    (hsize : w.size.toNat = t.size) : w = t.words := by
  have hexact := exact_of_size_le h
  obtain ⟨pointer, size⟩ := w
  congr 1
  · exact UInt64.toNat_inj.mp (hpointer.trans hexact.pointer.symm)
  · exact UInt64.toNat_inj.mp (hsize.trans hexact.size.symm)

theorem Exact.next_lt_iff (h : t.Exact) :
    t.words.next < t.words.size ↔ t.pointer + 1 < t.size := by
  rw [UInt64.lt_iff_toNat_lt, h.next, h.size]

theorem Exact.pointer_eq_zero_iff (h : t.Exact) : t.words.pointer = 0 ↔ t.pointer = 0 := by
  rw [← UInt64.toNat_inj, h.pointer, UInt64.toNat_zero]

theorem toNat_grown (h : t.size ≤ capacity) :
    t.words.grown.toNat = grownSize t.size (t.pointer + 1) := by
  have hexact := exact_of_size_le h
  rw [hexact.grown, hexact.doubled, grownSize_eq_double h]

/-- The cells that are there and those asked for make up the size after growth. -/
theorem toNat_size_add_added (h : t.size ≤ capacity) :
    t.words.size.toNat + t.words.added.toNat = grownSize t.size (t.pointer + 1) := by
  have hexact := exact_of_size_le h
  rw [hexact.size, Nat.add_comm, hexact.added, toNat_grown h]

/-- An attempt in words is the attempt on the tape. -/
theorem words_attempt (h : t.size ≤ capacity) (a : Attempt) :
    t.words.attempt t.policy a = ((t.attempt a).1.words, (t.attempt a).2) := by
  have hexact := exact_of_size_le h
  have hv := t.attempt_view a
  generalize t.attempt a = result at hv
  cases hv with
  | @inPlace _ t' inPlace pointer size _ =>
    have hsame : t'.words = t.words := by rw [words, words, pointer, size]
    obtain ⟨op, granted⟩ := a
    cases op with
    | right => exact nomatch inPlace
    | left => exact nomatch inPlace
    | _ =>
      rw [hsame]
      rfl
  | @left _ t' pointer size _ =>
    have hne : t.pointer ≠ 0 := by omega
    have hone : (1 : UInt64) ≤ t.words.pointer := by
      rw [UInt64.le_iff_toNat_le, hexact.pointer]
      exact Nat.one_le_iff_ne_zero.mpr hne
    have hwords : ⟨t.words.pointer - 1, t.words.size⟩ = t'.words := by
      refine words_eq (size ▸ h) ?_ (hexact.size.trans size.symm)
      rw [UInt64.toNat_sub_of_le _ _ hone, hexact.pointer, ← pointer, UInt64.toNat_one,
        Nat.add_sub_cancel]
    simp only [Words.attempt, hexact.pointer_eq_zero_iff, if_neg hne, hwords]
  | underflow edge => simp only [Words.attempt, hexact.pointer_eq_zero_iff, if_pos edge]
  | @right _ t' room pointer size _ =>
    have hwords : ⟨t.words.next, t.words.size⟩ = t'.words :=
      words_eq (size ▸ h) (hexact.next.trans pointer.symm) (hexact.size.trans size.symm)
    simp only [Words.attempt, hexact.next_lt_iff, if_pos room, hwords]
  | @grown t' edge growable fits pointer size _ =>
    have hwords : ⟨t.words.next, t.words.grown⟩ = t'.words :=
      words_eq (size ▸ fits) (hexact.next.trans pointer.symm) ((toNat_grown h).trans size.symm)
    simp only [Words.attempt, hexact.next_lt_iff, if_neg edge.not_lt, growable,
      toNat_size_add_added h, fits, and_self, if_true, hwords]
  | overflow edge bounded =>
    simp only [Words.attempt, hexact.next_lt_iff, if_neg edge.not_lt, bounded, hexact.pointer,
      hexact.size]
  | @refused granted edge growable reason =>
    have hrefused : ¬(granted = true ∧ grownSize t.size (t.pointer + 1) ≤ capacity) := by
      rcases reason with rfl | excess
      · exact fun hboth => nomatch hboth.1
      · exact fun hboth => Nat.not_le.mpr excess hboth.2
    simp only [Words.attempt, hexact.next_lt_iff, if_neg edge.not_lt, growable,
      toNat_size_add_added h, if_neg hrefused, toNat_grown h]

/-- Attempts in words lead to the words of the tape to which the same attempts lead. -/
theorem words_attempts (h : t.Measured policy least reached) (tries : List Attempt) :
    (t.attempts tries).words = t.words.attempts policy tries := by
  induction tries generalizing t reached with
  | nil => rfl
  | cons a tries ih =>
    rw [attempts_cons, ih (h.attempt a), Words.attempts_cons, ← h.policy_eq,
      words_attempt h.size_le]

end Words

/-- A request for cells that is refused was a request for twice as many as there are. -/
theorem refused_eq_double (h : t.size ≤ capacity) {a : Attempt} {cells : Nat}
    (hrefused : (t.attempt a).2 = some (.refused cells)) : cells = 2 * t.size := by
  have hv := t.attempt_view a
  generalize t.attempt a = result at hv hrefused
  cases hv with
  | refused _ _ _ =>
    cases hrefused
    exact grownSize_eq_double h
  | _ => exact nomatch hrefused

/-- Whatever operations are tried on a tape, and whatever requests for cells are refused on the way,
its size is the first one by doubling that has a cell at the furthest place of the pointer, or the
first size if the tape is bounded. All that is computed in words is exact, so a tape in words is
that tape, and a refused request was for twice as many cells. Operations that are tried without any
such refusal are attempts too. -/
theorem growth_is_exact_doubling {size : Nat} {policy : Policy} {t : Tape}
    (h : blank size policy = .ok t) (tries : List Attempt) :
    (policy = .bounded → (t.attempts tries).size = max 1 size) ∧
      (policy = .growable → ∃ k, (t.attempts tries).size = max 1 size * 2 ^ k ∧
        IsLeast {k | t.furthest tries < max 1 size * 2 ^ k} k) ∧
      (t.attempts tries).Exact ∧
      (t.attempts tries).words = t.words.attempts policy tries ∧
      (∀ a, (t.attempts tries).words.attempt policy a =
        (((t.attempts tries).attempt a).1.words, ((t.attempts tries).attempt a).2)) ∧
      (∀ a cells, ((t.attempts tries).attempt a).2 = some (.refused cells) →
        cells = 2 * (t.attempts tries).size) ∧
      ∀ ops, t.attempts (ops.map fun op => ⟨op, true⟩) = t.operate ops := by
  have hstart := measured_blank h
  have hmeasured := hstart.attempts tries
  rw [Nat.zero_max] at hmeasured
  refine ⟨hmeasured.bounded, fun _ => hmeasured.exists_isLeast,
    exact_of_size_le hmeasured.size_le, words_attempts hstart tries, fun a => ?_,
    fun a cells => refused_eq_double hmeasured.size_le, t.attempts_granted⟩
  rw [← hmeasured.policy_eq]
  exact words_attempt hmeasured.size_le a

/-- The first request for cells is refused and the second one is granted. Then the pointer returns
to the last cell, and a third request is refused again. -/
theorem one_cell_doubled_once :
    ∃ t tries, blank 0 .growable = .ok t ∧
      tries = [⟨.right, false⟩, ⟨.right, true⟩, ⟨.left, true⟩, ⟨.right, true⟩] ∧
      t.furthest tries = 1 ∧ (t.attempts tries).size = 2 ∧ (t.attempts tries).Exact ∧
      ∃ cells, ((t.attempts tries).attempt ⟨.right, false⟩).2 = some (.refused cells) ∧
        cells = 4 := by
  obtain ⟨t, ht⟩ : ∃ t, blank 0 .growable = .ok t := ⟨_, rfl⟩
  obtain ⟨tries, htries⟩ : ∃ tries : List Attempt,
    tries = [⟨.right, false⟩, ⟨.right, true⟩, ⟨.left, true⟩, ⟨.right, true⟩] := ⟨_, rfl⟩
  obtain ⟨-, hdouble, hexact, -, -, hcells, -⟩ := growth_is_exact_doubling ht tries
  obtain ⟨k, hk, hleast⟩ := hdouble rfl
  have hfurthest : t.furthest tries = 1 := by
    cases ht
    rw [htries]
    rfl
  have hsize : (t.attempts tries).size = 2 := by
    rw [hfurthest] at hleast
    have hle : k ≤ 1 := hleast.2 (show 1 < max 1 0 * 2 ^ 1 by decide)
    interval_cases k
    · exact absurd hleast.1 (show ¬1 < max 1 0 * 2 ^ 0 by decide)
    · exact hk
  have hrefused : ((t.attempts tries).attempt ⟨.right, false⟩).2 = some (.refused 4) := by
    cases ht
    rw [htries]
    rfl
  exact ⟨t, tries, ht, htries, hfurthest, hsize, hexact, 4, hrefused,
    (hcells _ _ hrefused).trans (congrArg (2 * ·) hsize)⟩

end Brainfuck.Tape

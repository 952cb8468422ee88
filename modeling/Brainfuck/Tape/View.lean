import Brainfuck.Tape

/-!
# The view of a tape

What every operation does to the cells, the pointer, the size and the policy. Only the cell
under the pointer is ever written, moves change nothing but the pointer and the size, and cells
that were never visited read as zero.
-/
namespace Brainfuck.Tape

theorem current_eq_cell (t : Tape) : t.current = t.cell t.pointer := by
  obtain ⟨visited, size, pointer, policy, pointer_lt, visited_le⟩ := t
  simp only [current, cell, Array.getD, pointer_lt, dif_pos, Array.getInternal_eq_getElem]

@[simp] theorem pointer_set (t : Tape) (v : UInt8) : (t.set v).pointer = t.pointer := rfl

@[simp] theorem size_set (t : Tape) (v : UInt8) : (t.set v).size = t.size := rfl

@[simp] theorem policy_set (t : Tape) (v : UInt8) : (t.set v).policy = t.policy := rfl

theorem cell_set (t : Tape) (v : UInt8) (i : Nat) :
    (t.set v).cell i = if i = t.pointer then v else t.cell i := by
  obtain ⟨visited, size, pointer, policy, pointer_lt, visited_le⟩ := t
  simp only [set, cell, Array.getD_eq_getD_getElem?, Array.getElem?_set]
  by_cases h : pointer = i
  · subst h
    simp
  · simp [h, Ne.symm h]

@[simp] theorem pointer_modify (t : Tape) (f : UInt8 → UInt8) :
    (t.modify f).pointer = t.pointer := rfl

@[simp] theorem size_modify (t : Tape) (f : UInt8 → UInt8) : (t.modify f).size = t.size := rfl

@[simp] theorem policy_modify (t : Tape) (f : UInt8 → UInt8) :
    (t.modify f).policy = t.policy := rfl

theorem cell_modify (t : Tape) (f : UInt8 → UInt8) (i : Nat) :
    (t.modify f).cell i = if i = t.pointer then f (t.cell i) else t.cell i := by
  obtain ⟨visited, size, pointer, policy, pointer_lt, visited_le⟩ := t
  simp only [modify, cell, Array.getD_eq_getD_getElem?, Array.getElem?_modify]
  by_cases h : pointer = i
  · subst h
    simp [pointer_lt]
  · simp [h, Ne.symm h]

@[simp] theorem pointer_advance (t : Tape) (size : Nat) (fits : t.size ≤ size)
    (room : t.pointer + 1 < size) : (t.advance size fits room).pointer = t.pointer + 1 := by
  obtain ⟨visited, _, pointer, policy, pointer_lt, visited_le⟩ := t
  simp only [advance]
  split <;> rfl

@[simp] theorem size_advance (t : Tape) (size : Nat) (fits : t.size ≤ size)
    (room : t.pointer + 1 < size) : (t.advance size fits room).size = size := by
  obtain ⟨visited, _, pointer, policy, pointer_lt, visited_le⟩ := t
  simp only [advance]
  split <;> rfl

@[simp] theorem policy_advance (t : Tape) (size : Nat) (fits : t.size ≤ size)
    (room : t.pointer + 1 < size) : (t.advance size fits room).policy = t.policy := by
  obtain ⟨visited, _, pointer, policy, pointer_lt, visited_le⟩ := t
  simp only [advance]
  split <;> rfl

@[simp] theorem cell_advance (t : Tape) (size : Nat) (fits : t.size ≤ size)
    (room : t.pointer + 1 < size) (i : Nat) : (t.advance size fits room).cell i = t.cell i := by
  obtain ⟨visited, _, pointer, policy, pointer_lt, visited_le⟩ := t
  simp only [advance]
  split
  · rfl
  · simp only [cell, Array.getD_eq_getD_getElem?, Array.getElem?_push]
    split
    · next h => simp [h]
    · rfl

/-- A move to the right leaves every cell as it is, whether it succeeds or not. -/
@[simp] theorem cell_moveRight (t : Tape) (granted : Bool) (i : Nat) :
    (t.moveRight granted).1.cell i = t.cell i := by
  unfold moveRight
  split
  · simp only [cell_advance]
  · split
    · rfl
    · split
      · simp only [cell_advance]
      · rfl

/-- A move to the left leaves every cell as it is, whether it succeeds or not. -/
@[simp] theorem cell_moveLeft (t : Tape) (i : Nat) : t.moveLeft.1.cell i = t.cell i := by
  unfold moveLeft
  split <;> rfl

theorem cell_blank {size : Nat} {policy : Policy} {t : Tape} (h : blank size policy = .ok t)
    (i : Nat) : t.cell i = 0 := by
  unfold blank at h
  split at h
  · injection h with h
    subst h
    cases i with
    | zero => rfl
    | succ i => rfl
  · exact nomatch h

theorem blank_eq_ok {size : Nat} {policy : Policy} {t : Tape} (h : blank size policy = .ok t) :
    t.pointer = 0 ∧ t.size = max 1 size ∧ t.policy = policy := by
  unfold blank at h
  split at h
  · injection h with h
    subst h
    exact ⟨rfl, rfl, rfl⟩
  · exact nomatch h

theorem pointer_lt_size (t : Tape) : t.pointer < t.size :=
  Nat.lt_of_lt_of_le t.pointer_lt t.visited_le

/-- Nothing is asked for as long as there is room. -/
theorem moveRight_of_room (t : Tape) (granted : Bool) (room : t.pointer + 1 < t.size) :
    t.moveRight granted = (t.advance t.size (Nat.le_refl _) room, none) :=
  dif_pos room

/-- The ways in which a move to the right can go. -/
inductive RightView (t : Tape) (granted : Bool) : Tape × Option Obstacle → Prop where
  | within {t' : Tape} (room : t.pointer + 1 < t.size) (pointer : t'.pointer = t.pointer + 1)
      (size : t'.size = t.size) (policy : t'.policy = t.policy) : RightView t granted (t', none)
  | grown {t' : Tape} (edge : t.pointer + 1 = t.size) (growable : t.policy = .growable)
      (given : granted) (fits : grownSize t.size (t.pointer + 1) ≤ capacity)
      (pointer : t'.pointer = t.pointer + 1) (size : t'.size = grownSize t.size (t.pointer + 1))
      (policy : t'.policy = t.policy) : RightView t granted (t', none)
  | overflow (edge : t.pointer + 1 = t.size) (bounded : t.policy = .bounded) :
      RightView t granted (t, some (.overflow t.pointer t.size))
  | refused (edge : t.pointer + 1 = t.size) (growable : t.policy = .growable)
      (reason : granted = false ∨ capacity < grownSize t.size (t.pointer + 1)) :
      RightView t granted (t, some (.refused (grownSize t.size (t.pointer + 1))))

theorem moveRight_view (t : Tape) (granted : Bool) : RightView t granted (t.moveRight granted) := by
  have hlt := t.pointer_lt_size
  unfold moveRight
  split
  · next room => exact .within room (by simp) (by simp) (by simp)
  · next room =>
    have edge : t.pointer + 1 = t.size := by omega
    split
    · next bounded => exact .overflow edge bounded
    · next growable =>
      split
      · next more => exact .grown edge growable more.1 more.2 (by simp) (by simp) (by simp)
      · next excess =>
        refine .refused edge growable ?_
        cases granted with
        | true => exact .inr (Nat.lt_of_not_le fun fits => excess ⟨rfl, fits⟩)
        | false => exact .inl rfl

/-- The ways in which a move to the left can go. -/
inductive LeftView (t : Tape) : Tape × Option Obstacle → Prop where
  | within {t' : Tape} (pointer : t'.pointer + 1 = t.pointer) (size : t'.size = t.size)
      (policy : t'.policy = t.policy) : LeftView t (t', none)
  | underflow (edge : t.pointer = 0) : LeftView t (t, some .underflow)

theorem moveLeft_view (t : Tape) : LeftView t t.moveLeft := by
  unfold moveLeft
  split
  · exact .underflow rfl
  · exact .within rfl rfl rfl

def Operation.isMove : Operation → Bool
  | .right | .left => true
  | _ => false

/-- The ways in which an attempt can go. -/
inductive AttemptView (t : Tape) : Attempt → Tape × Option Obstacle → Prop where
  | inPlace {a : Attempt} {t' : Tape} (inPlace : a.operation.isMove = false)
      (pointer : t'.pointer = t.pointer) (size : t'.size = t.size)
      (policy : t'.policy = t.policy) : AttemptView t a (t', none)
  | left {granted : Bool} {t' : Tape} (pointer : t'.pointer + 1 = t.pointer)
      (size : t'.size = t.size) (policy : t'.policy = t.policy) :
      AttemptView t ⟨.left, granted⟩ (t', none)
  | underflow {granted : Bool} (edge : t.pointer = 0) :
      AttemptView t ⟨.left, granted⟩ (t, some .underflow)
  | right {granted : Bool} {t' : Tape} (room : t.pointer + 1 < t.size)
      (pointer : t'.pointer = t.pointer + 1) (size : t'.size = t.size)
      (policy : t'.policy = t.policy) : AttemptView t ⟨.right, granted⟩ (t', none)
  | grown {t' : Tape} (edge : t.pointer + 1 = t.size) (growable : t.policy = .growable)
      (fits : grownSize t.size (t.pointer + 1) ≤ capacity) (pointer : t'.pointer = t.pointer + 1)
      (size : t'.size = grownSize t.size (t.pointer + 1)) (policy : t'.policy = t.policy) :
      AttemptView t ⟨.right, true⟩ (t', none)
  | overflow {granted : Bool} (edge : t.pointer + 1 = t.size) (bounded : t.policy = .bounded) :
      AttemptView t ⟨.right, granted⟩ (t, some (.overflow t.pointer t.size))
  | refused {granted : Bool} (edge : t.pointer + 1 = t.size) (growable : t.policy = .growable)
      (reason : granted = false ∨ capacity < grownSize t.size (t.pointer + 1)) :
      AttemptView t ⟨.right, granted⟩
        (t, some (.refused (grownSize t.size (t.pointer + 1))))

theorem attempt_view (t : Tape) (a : Attempt) : AttemptView t a (t.attempt a) := by
  obtain ⟨op, granted⟩ := a
  cases op with
  | right =>
    have hv : RightView t granted (t.attempt ⟨.right, granted⟩) := t.moveRight_view granted
    generalize t.attempt ⟨.right, granted⟩ = result at hv
    cases hv with
    | within room pointer size policy => exact .right room pointer size policy
    | grown edge growable given fits pointer size policy =>
      cases given
      exact .grown edge growable fits pointer size policy
    | overflow edge bounded => exact .overflow edge bounded
    | refused edge growable reason => exact .refused edge growable reason
  | left =>
    have hv : LeftView t (t.attempt ⟨.left, granted⟩) := t.moveLeft_view
    generalize t.attempt ⟨.left, granted⟩ = result at hv
    cases hv with
    | within pointer size policy => exact .left pointer size policy
    | underflow edge => exact .underflow edge
  | _ => exact .inPlace rfl rfl rfl rfl

section Attempt

variable {t t' : Tape} {a : Attempt} {obstacle : Option Obstacle}

/-- A tape is as it was after an attempt that meets an obstacle. -/
theorem eq_of_obstacle {obstacle : Obstacle} (h : t.attempt a = (t', some obstacle)) : t' = t := by
  have hv := t.attempt_view a
  rw [h] at hv
  cases hv <;> rfl

/-- No attempt changes the policy, and none the size of a bounded tape. -/
theorem policy_attempt (h : t.attempt a = (t', obstacle)) :
    t'.policy = t.policy ∧ (t.policy = .bounded → t'.size = t.size) := by
  have hv := t.attempt_view a
  rw [h] at hv
  cases hv with
  | inPlace _ _ size policy => exact ⟨policy, fun _ => size⟩
  | left _ size policy => exact ⟨policy, fun _ => size⟩
  | right _ _ size policy => exact ⟨policy, fun _ => size⟩
  | grown _ growable _ _ _ policy => exact ⟨policy, fun hb => nomatch growable.symm.trans hb⟩
  | _ => exact ⟨rfl, fun _ => rfl⟩

/-- A tape never gets smaller. -/
theorem size_le_attempt (h : t.attempt a = (t', obstacle)) : t.size ≤ t'.size := by
  have hv := t.attempt_view a
  rw [h] at hv
  cases hv with
  | inPlace _ _ size _ => exact Nat.le_of_eq size.symm
  | left _ size _ => exact Nat.le_of_eq size.symm
  | right _ _ size _ => exact Nat.le_of_eq size.symm
  | grown edge _ _ _ size _ =>
    rw [size, grownSize]
    omega
  | _ => exact Nat.le_refl _

/-- Only the cell under the pointer is ever written. -/
theorem cell_attempt (h : t.attempt a = (t', obstacle)) {i : Nat} (hi : i ≠ t.pointer) :
    t'.cell i = t.cell i := by
  obtain ⟨op, granted⟩ := a
  cases op with
  | right =>
    rw [← t.cell_moveRight granted, show t.moveRight granted = _ from h]
  | left =>
    rw [← t.cell_moveLeft, show t.moveLeft = _ from h]
  | increment =>
    cases h
    rw [increment, cell_modify, if_neg hi]
  | decrement =>
    cases h
    rw [decrement, cell_modify, if_neg hi]
  | set value =>
    cases h
    rw [cell_set, if_neg hi]

end Attempt

end Brainfuck.Tape

import Brainfuck.Tape.View
import Mathlib.Data.ZMod.Basic

/-!
# Operations on a tape

Operations are tried on a tape in any order, and more cells may be refused at any time and granted
later. Seen from outside a tape is a row with a value for every index, counted modulo 256, and a
pointer: a move changes the pointer only, and everything else changes the value under the pointer
only. An attempt that meets an obstacle leaves the tape as it is, so a tape on which operations were
tried is the tape on which those were done that met none.
-/
namespace Brainfuck.Tape

/-- All the cells of a tape, in order. -/
def cells (t : Tape) : List UInt8 := (List.range t.size).map t.cell

/-- Try one operation after the other, with all the cells they ask for. -/
def operate (t : Tape) (ops : List Operation) : Tape := ops.foldl (fun t op => (t.apply op).1) t

/-- The operations of a row of attempts that meet no obstacle. -/
def done (t : Tape) : List Attempt → List Operation
  | [] => []
  | a :: tries =>
    match t.attempt a with
    | (t, none) => a.operation :: done t tries
    | (t, some _) => done t tries

/-- A value for every index, and a pointer. -/
@[ext] structure Row where
  value : Nat → ZMod 256
  pointer : Nat

namespace Row

def blank : Row := ⟨fun _ => 0, 0⟩

/-- Write at the pointer. -/
def put (r : Row) (v : ZMod 256) : Row := { r with value := Function.update r.value r.pointer v }

def apply (r : Row) : Operation → Row
  | .right => { r with pointer := r.pointer + 1 }
  | .left => { r with pointer := r.pointer - 1 }
  | .increment => r.put (r.value r.pointer + 1)
  | .decrement => r.put (r.value r.pointer - 1)
  | .set v => r.put v.toNat

end Row

/-- The values and the pointer of a tape, without its size. -/
def row (t : Tape) : Row := ⟨fun i => (t.cell i).toNat, t.pointer⟩

/-- An obstacle stands in the way of an attempt. -/
inductive Hinders (t : Tape) : Attempt → Obstacle → Prop where
  | underflow {granted : Bool} (edge : t.pointer = 0) : Hinders t ⟨.left, granted⟩ .underflow
  | overflow {granted : Bool} (bounded : t.policy = .bounded) (edge : t.pointer + 1 = t.size) :
      Hinders t ⟨.right, granted⟩ (.overflow t.pointer t.size)
  | refused {granted : Bool} (growable : t.policy = .growable) (edge : t.pointer + 1 = t.size)
      (reason : granted = false ∨ capacity < grownSize t.size (t.pointer + 1)) :
      Hinders t ⟨.right, granted⟩ (.refused (grownSize t.size (t.pointer + 1)))

variable {t t' : Tape} {a : Attempt} {op : Operation}

section Cells

@[simp] theorem length_cells (t : Tape) : t.cells.length = t.size := by
  simp [cells]

theorem cell_of_size_le {i : Nat} (h : t.size ≤ i) : t.cell i = 0 := by
  have hout : t.visited.size ≤ i := Nat.le_trans t.visited_le h
  simp [cell, Array.getD, Nat.not_lt.mpr hout]

/-- More cells, and nothing else: zeros are added at the end. -/
theorem cells_of_size_le (hsize : t.size ≤ t'.size) (hcell : ∀ i, t'.cell i = t.cell i) :
    t'.cells = t.cells ++ List.replicate (t'.size - t.size) 0 := by
  obtain ⟨d, hd⟩ := Nat.exists_eq_add_of_le hsize
  have hnew : ∀ i ∈ List.range d, t'.cell (t.size + i) = 0 := fun i _ => by
    rw [hcell, cell_of_size_le (Nat.le_add_right t.size i)]
  have hold : (List.range t.size).map t'.cell = t.cells := List.map_congr_left fun i _ => hcell i
  rw [cells, hd, List.range_add, List.map_append, hold, List.map_map, Nat.add_sub_cancel_left]
  congr 1
  rw [List.eq_replicate_iff]
  simpa using hnew

end Cells

section Row

theorem natCast_toNat_add_one (v : UInt8) : ((v + 1).toNat : ZMod 256) = v.toNat + 1 := by
  rw [UInt8.toNat_add]
  exact (ZMod.natCast_mod _ 256).trans (Nat.cast_succ _)

theorem natCast_toNat_sub_one (v : UInt8) : ((v - 1).toNat : ZMod 256) = v.toNat - 1 := by
  have h := natCast_toNat_add_one (v - 1)
  rw [UInt8.sub_add_cancel] at h
  rw [h, add_sub_cancel_right]

/-- A row has the bytes of its tape. -/
theorem val_value_row (t : Tape) (i : Nat) : (t.row.value i).val = (t.cell i).toNat :=
  ZMod.val_natCast_of_lt (t.cell i).toNat_lt

theorem row_blank {size : Nat} {policy : Policy} (h : blank size policy = .ok t) :
    t.row = Row.blank := by
  apply Row.ext
  · funext i
    simp [row, cell_blank h, Row.blank]
  · exact (blank_eq_ok h).1

theorem row_set (t : Tape) (v : UInt8) : (t.set v).row = t.row.put v.toNat := by
  apply Row.ext
  · funext i
    simp only [row, Row.put, cell_set, Function.update_apply]
    split <;> rfl
  · rfl

theorem row_modify (t : Tape) (f : UInt8 → UInt8) :
    (t.modify f).row = t.row.put (f (t.cell t.pointer)).toNat := by
  apply Row.ext
  · funext i
    simp only [row, Row.put, cell_modify, Function.update_apply]
    split
    · next hi => rw [hi]
    · rfl
  · rfl

theorem row_of_moved {pointer : Nat} (hcell : ∀ i, t'.cell i = t.cell i)
    (hpointer : t'.pointer = pointer) : t'.row = { t.row with pointer } := by
  apply Row.ext
  · funext i
    simp only [row, hcell]
  · exact hpointer

end Row

/-- An attempt meets the obstacle that stands in its way, if there is one. -/
theorem attempt_snd_eq_some_iff {obstacle : Obstacle} :
    (t.attempt a).2 = some obstacle ↔ Hinders t a obstacle := by
  have hv := t.attempt_view a
  generalize t.attempt a = result at hv
  cases hv with
  | inPlace inPlace _ _ _ =>
    refine ⟨nofun, fun h => ?_⟩
    cases h <;> cases inPlace
  | left _ _ _ =>
    refine ⟨nofun, fun h => ?_⟩
    cases h
    omega
  | right room _ _ _ =>
    refine ⟨nofun, fun h => ?_⟩
    cases h <;> omega
  | grown edge growable fits _ _ _ =>
    refine ⟨nofun, fun h => ?_⟩
    cases h with
    | overflow bounded _ => exact nomatch growable.symm.trans bounded
    | refused _ _ reason => exact absurd (reason.resolve_left nofun) (Nat.not_lt.mpr fits)
  | underflow edge =>
    constructor
    · rintro ⟨⟩
      exact .underflow edge
    · intro h
      cases h
      rfl
  | overflow edge bounded =>
    constructor
    · rintro ⟨⟩
      exact .overflow bounded edge
    · intro h
      cases h with
      | overflow _ _ => rfl
      | refused growable _ _ => exact nomatch bounded.symm.trans growable
  | refused edge growable reason =>
    constructor
    · rintro ⟨⟩
      exact .refused growable edge reason
    · intro h
      cases h with
      | overflow bounded _ => exact nomatch growable.symm.trans bounded
      | refused _ _ _ => rfl

theorem cell_move (t : Tape) (h : a.operation.isMove) (i : Nat) :
    (t.attempt a).1.cell i = t.cell i := by
  obtain ⟨op, granted⟩ := a
  cases op with
  | right => exact t.cell_moveRight granted i
  | left => exact t.cell_moveLeft i
  | _ => exact nomatch h

/-- An operation that is done changes the row as it says. -/
theorem row_attempt (h : t.attempt a = (t', none)) : t'.row = t.row.apply a.operation := by
  have hv := t.attempt_view a
  have hmove : a.operation.isMove → ∀ i, t'.cell i = t.cell i := fun hmove i => by
    rw [← t.cell_move hmove i, h]
  rw [h] at hv
  cases hv with
  | inPlace inPlace _ _ _ =>
    obtain ⟨op, granted⟩ := a
    cases op with
    | right => cases inPlace
    | left => cases inPlace
    | increment =>
      cases h
      rw [increment, row_modify, natCast_toNat_add_one]
      rfl
    | decrement =>
      cases h
      rw [decrement, row_modify, natCast_toNat_sub_one]
      rfl
    | set v =>
      cases h
      exact row_set t v
  | left pointer _ _ => exact row_of_moved (hmove rfl) (Nat.eq_sub_of_add_eq pointer)
  | right _ pointer _ _ => exact row_of_moved (hmove rfl) pointer
  | grown _ _ _ pointer _ _ => exact row_of_moved (hmove rfl) pointer

/-- The laws of one attempt on a tape. -/
structure Lawful (t : Tape) (a : Attempt) : Prop where
  hindered_iff : ∀ obstacle, (t.attempt a).2 = some obstacle ↔ Hinders t a obstacle
  hindered : ∀ obstacle, (t.attempt a).2 = some obstacle → (t.attempt a).1 = t
  done : (t.attempt a).2 = none → (t.attempt a).1.row = t.row.apply a.operation
  in_place : a.operation.isMove = false →
    (t.attempt a).2 = none ∧ (t.attempt a).1.pointer = t.pointer ∧
      (t.attempt a).1.size = t.size ∧ ∀ i ≠ t.pointer, (t.attempt a).1.cell i = t.cell i
  moved : a.operation.isMove →
    (t.attempt a).1.cells = t.cells ++ List.replicate ((t.attempt a).1.size - t.size) 0
  policy_kept : (t.attempt a).1.policy = t.policy

theorem lawful (t : Tape) (a : Attempt) : t.Lawful a where
  hindered_iff _ := attempt_snd_eq_some_iff
  hindered _ h := eq_of_obstacle (Prod.ext rfl h)
  done h := row_attempt (Prod.ext rfl h)
  in_place h := by
    have hcell : ∀ i ≠ t.pointer, (t.attempt a).1.cell i = t.cell i :=
      fun i hi => cell_attempt rfl hi
    have hv := t.attempt_view a
    generalize t.attempt a = result at hv hcell
    cases hv with
    | inPlace _ pointer size _ => exact ⟨rfl, pointer, size, hcell⟩
    | _ => cases h
  moved h := cells_of_size_le (size_le_attempt rfl) (t.cell_move h)
  policy_kept := (policy_attempt rfl).1

section Sequences

@[simp] theorem operate_cons (t : Tape) (op : Operation) (ops : List Operation) :
    t.operate (op :: ops) = (t.apply op).1.operate ops := rfl

@[simp] theorem attempts_cons (t : Tape) (a : Attempt) (tries : List Attempt) :
    t.attempts (a :: tries) = (t.attempt a).1.attempts tries := rfl

theorem attempts_append (t : Tape) (tries later : List Attempt) :
    t.attempts (tries ++ later) = (t.attempts tries).attempts later :=
  List.foldl_append

theorem done_cons_of_none (h : t.attempt a = (t', none)) (tries : List Attempt) :
    t.done (a :: tries) = a.operation :: t'.done tries := by
  rw [done, h]

theorem done_cons_of_some {obstacle : Obstacle} (h : t.attempt a = (t', some obstacle))
    (tries : List Attempt) : t.done (a :: tries) = t'.done tries := by
  rw [done, h]

/-- What is done without a grant of cells is done with one. -/
theorem apply_of_attempt (h : t.attempt a = (t', none)) : t.apply a.operation = (t', none) := by
  obtain ⟨op, granted⟩ := a
  cases op with
  | right =>
    have hmove : t.moveRight granted = (t', none) := h
    have hv := t.moveRight_view granted
    rw [hmove] at hv
    cases hv with
    | within room _ _ _ =>
      rw [t.moveRight_of_room granted room] at hmove
      exact (t.moveRight_of_room true room).trans hmove
    | grown _ _ given _ _ _ _ =>
      cases given
      exact h
  | _ => exact h

/-- The row knows nothing of operations that were tried in vain. -/
theorem row_attempts (t : Tape) (tries : List Attempt) :
    (t.attempts tries).row = (t.done tries).foldl Row.apply t.row := by
  induction tries generalizing t with
  | nil => rfl
  | cons a tries ih =>
    rw [attempts_cons, ih]
    rcases h : t.attempt a with ⟨t', _ | obstacle⟩
    · rw [done_cons_of_none h, List.foldl_cons, row_attempt h]
    · rw [done_cons_of_some h, eq_of_obstacle h]

/-- Nor does the tape. -/
theorem operate_done (t : Tape) (tries : List Attempt) :
    t.operate (t.done tries) = t.attempts tries := by
  induction tries generalizing t with
  | nil => rfl
  | cons a tries ih =>
    rcases h : t.attempt a with ⟨t', _ | obstacle⟩
    · rw [done_cons_of_none h, operate_cons, attempts_cons, apply_of_attempt h, h, ih]
    · obtain rfl := eq_of_obstacle h
      rw [done_cons_of_some h, attempts_cons, h, ih]

theorem policy_attempts (t : Tape) (tries : List Attempt) :
    (t.attempts tries).policy = t.policy ∧
      (t.policy = .bounded → (t.attempts tries).size = t.size) := by
  induction tries generalizing t with
  | nil => exact ⟨rfl, fun _ => rfl⟩
  | cons a tries ih =>
    have hone : t.attempt a = ((t.attempt a).1, (t.attempt a).2) := rfl
    obtain ⟨hpolicy, hsize⟩ := policy_attempt hone
    obtain ⟨hpolicy', hsize'⟩ := ih (t.attempt a).1
    refine ⟨hpolicy'.trans hpolicy, fun hbounded => ?_⟩
    exact (hsize' (hpolicy.trans hbounded)).trans (hsize hbounded)

end Sequences

/-- A tape on which operations were tried, in any order and whatever requests for cells were refused
on the way, is the row on which those were done that met no obstacle. Each further attempt obeys the
laws, and one that meets an obstacle might as well not have been made. -/
theorem operations_act_on_row {size : Nat} {policy : Policy} {t : Tape}
    (h : blank size policy = .ok t) (tries : List Attempt) :
    t.cells = List.replicate (max 1 size) 0 ∧
      (t.attempts tries).row = (t.done tries).foldl Row.apply .blank ∧
      (∀ i, ((t.attempts tries).cell i).toNat =
        (((t.done tries).foldl Row.apply .blank).value i).val) ∧
      (t.attempts tries).policy = policy ∧
      (policy = .bounded → (t.attempts tries).size = max 1 size) ∧
      (∀ a, (t.attempts tries).Lawful a) ∧
      t.operate (t.done tries) = t.attempts tries ∧
      ∀ a obstacle, ((t.attempts tries).attempt a).2 = some obstacle →
        ∀ later, t.attempts (tries ++ a :: later) = t.attempts (tries ++ later) := by
  obtain ⟨-, hsize, hpolicy⟩ := blank_eq_ok h
  obtain ⟨hpolicy', hsize'⟩ := t.policy_attempts tries
  have hrow : (t.attempts tries).row = (t.done tries).foldl Row.apply .blank := by
    rw [row_attempts, row_blank h]
  refine ⟨?_, hrow, fun i => ?_, hpolicy'.trans hpolicy, fun hbounded => ?_, lawful _,
    operate_done t tries, fun a obstacle hobstacle later => ?_⟩
  · rw [List.eq_replicate_iff, length_cells, hsize]
    simp [cells, cell_blank h]
  · rw [← hrow, val_value_row]
  · rw [hsize' (hpolicy.trans hbounded), hsize]
  · rw [attempts_append, attempts_append, attempts_cons, (lawful _ a).hindered obstacle hobstacle]

/-- One cell is counted down past zero and the other one is set. A third cell is refused at first
and granted later, and at last a move off the left end is tried. -/
theorem row_of_two_cells :
    ∃ t tries, blank 2 .growable = .ok t ∧
      tries = [⟨.decrement, true⟩, ⟨.right, false⟩, ⟨.right, false⟩, ⟨.set 7, true⟩, ⟨.right, true⟩,
        ⟨.left, true⟩, ⟨.left, false⟩, ⟨.left, true⟩] ∧
      t.done tries = [.decrement, .right, .set 7, .right, .left, .left] ∧
      ((t.attempts tries).cell 0).toNat = 255 ∧ ((t.attempts tries).cell 1).toNat = 7 ∧
      (t.attempts tries).pointer = 0 := by
  obtain ⟨t, ht⟩ : ∃ t, blank 2 .growable = .ok t := ⟨_, rfl⟩
  obtain ⟨tries, htries⟩ : ∃ tries : List Attempt,
    tries = [⟨.decrement, true⟩, ⟨.right, false⟩, ⟨.right, false⟩, ⟨.set 7, true⟩, ⟨.right, true⟩,
      ⟨.left, true⟩, ⟨.left, false⟩, ⟨.left, true⟩] := ⟨_, rfl⟩
  obtain ⟨-, hrow, hcell, -⟩ := operations_act_on_row ht tries
  have hdone : t.done tries = [.decrement, .right, .set 7, .right, .left, .left] := by
    cases ht
    rw [htries]
    rfl
  rw [hdone] at hrow hcell
  refine ⟨t, tries, ht, htries, hdone, (hcell 0).trans ?_, (hcell 1).trans ?_,
    congrArg Row.pointer hrow⟩
  · decide
  · decide

end Brainfuck.Tape

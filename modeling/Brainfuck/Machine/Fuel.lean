import Brainfuck.Machine

/-!
# Fuel

A run that stopped before its fuel was used up stops the same way with any more of it, so the
amount of fuel never shows in a result.
-/
namespace Brainfuck.Machine

variable {m : Machine} {control : Control} {s : State}

/-- Whether the commands stopped before the fuel was used up. -/
def Stop.isSettled : Stop → Bool
  | .running _ => false
  | _ => true

theorem Stop.isSettled_of_outcome {x : Stop} {result : Option Fault}
    (h : x.outcome = .ended result s) : x.isSettled = true := by
  cases x with
  | ended fault t => rfl
  | waiting t => rfl
  | running t => exact nomatch h

@[simp] theorem execute_zero : m.execute control 0 s = .running s := rfl

theorem execute_succ_of_next {t : State} (h : m.step control s = .next t) (n : Nat) :
    m.execute control (n + 1) s = m.execute control n t := by
  rw [execute, h]

/-- Repeat a step, of whatever kind, for as long as there is fuel. -/
def repeating (step : State → Progress) : Nat → State → Stop
  | 0, s => .running s
  | fuel + 1, s =>
    match step s with
    | .next s => repeating step fuel s
    | .halted s => .ended none s
    | .failed fault s => .ended (some fault) s
    | .waiting s => .waiting s

theorem execute_eq_repeating (m : Machine) (control : Control) (n : Nat) (s : State) :
    m.execute control n s = repeating (m.step control) n s := by
  induction n generalizing s with
  | zero => rfl
  | succ n ih =>
    rw [execute, repeating]
    cases m.step control s with
    | next t => exact ih t
    | halted t => rfl
    | failed fault t => rfl
    | waiting t => rfl

theorem repeating_succ_of_next {step : State → Progress} {t : State} (h : step s = .next t)
    (n : Nat) : repeating step (n + 1) s = repeating step n t := by
  rw [repeating, h]

theorem repeating_add_of_settled {step : State → Progress} {n : Nat}
    (h : (repeating step n s).isSettled = true) (k : Nat) :
    repeating step (n + k) s = repeating step n s := by
  induction n generalizing s with
  | zero => exact absurd h Bool.false_ne_true
  | succ n ih =>
    rw [Nat.add_right_comm]
    rw [repeating] at h
    rw [repeating, repeating]
    cases hs : step s with
    | next t =>
      rw [hs] at h
      exact ih h
    | halted t => rfl
    | failed fault t => rfl
    | waiting t => rfl

theorem execute_add_of_settled {n : Nat} (h : (m.execute control n s).isSettled = true) (k : Nat) :
    m.execute control (n + k) s = m.execute control n s := by
  rw [execute_eq_repeating] at h
  rw [execute_eq_repeating, execute_eq_repeating, repeating_add_of_settled h]

/-- A settled run does not depend on its fuel. -/
theorem execute_eq_of_settled {n k : Nat} (hn : (m.execute control n s).isSettled = true)
    (hk : (m.execute control k s).isSettled = true) :
    m.execute control n s = m.execute control k s := by
  rcases Nat.le_total n k with h | h
  · obtain ⟨d, rfl⟩ := Nat.le.dest h
    exact (execute_add_of_settled hn d).symm
  · obtain ⟨d, rfl⟩ := Nat.le.dest h
    exact execute_add_of_settled hk d

end Brainfuck.Machine

import Brainfuck.Command
import Mathlib.Data.Nat.Find

/-!
# Balanced words of commands

A word is balanced when no prefix closes more loops than it opens and the whole word closes all
of them. The height of a position counts the loops that are open in front of it. A `[` and a
`]` enclose a balanced word exactly when the height returns for the first time behind the `]`,
so partners are unique, pairs never cross, and in a balanced word every bracket has a partner.
-/
namespace Brainfuck.Brackets

/-- No prefix closes more loops than it opens, and the whole word closes all of them. -/
def Balanced (w : List Command) : Prop :=
  (∀ n ≤ w.length, (w.take n).count .loopEnd ≤ (w.take n).count .loopStart) ∧
    w.count .loopEnd = w.count .loopStart

instance (w : List Command) : Decidable (Balanced w) :=
  inferInstanceAs (Decidable (_ ∧ _))

/-- What a command adds to the number of open loops. -/
def rise : Command → Int
  | .loopStart => 1
  | .loopEnd => -1
  | _ => 0

theorem rise_eq_zero {c : Command} (h : c.isBracket = false) : rise c = 0 := by
  revert h
  cases c <;> decide

theorem rise_eq_one_iff {c : Command} : rise c = 1 ↔ c = .loopStart := by
  cases c <;> decide

theorem rise_eq_neg_one_iff {c : Command} : rise c = -1 ↔ c = .loopEnd := by
  cases c <;> decide

theorem neg_one_le_rise (c : Command) : -1 ≤ rise c := by
  cases c <;> decide

theorem rise_le_one (c : Command) : rise c ≤ 1 := by
  cases c <;> decide

/-- How many more loops a word opens than it closes. -/
def depth (w : List Command) : Int := w.count .loopStart - w.count .loopEnd

@[simp] theorem depth_nil : depth [] = 0 := rfl

@[simp] theorem depth_cons (c : Command) (w : List Command) :
    depth (c :: w) = rise c + depth w := by
  cases c <;> simp [depth, rise] <;> omega

@[simp] theorem depth_append (u v : List Command) : depth (u ++ v) = depth u + depth v := by
  simp only [depth, List.count_append]
  omega

/-- The number of loops that are open in front of a position. -/
def height (w : List Command) (k : Nat) : Int := depth (w.take k)

@[simp] theorem height_zero (w : List Command) : height w 0 = 0 := rfl

theorem height_of_length_le {w : List Command} {k : Nat} (h : w.length ≤ k) :
    height w k = depth w := by
  rw [height, List.take_of_length_le h]

theorem height_add (w : List Command) (i n : Nat) :
    height w (i + n) = height w i + height (w.drop i) n := by
  simp only [height, List.take_add, depth_append]

theorem height_succ {w : List Command} {k : Nat} {c : Command} (h : w[k]? = some c) :
    height w (k + 1) = height w k + rise c := by
  simp [height, List.take_add_one, h]

/-- Behind the end of a word the height does not change any more. -/
theorem exists_command_of_height_ne {w : List Command} {k : Nat}
    (h : height w (k + 1) ≠ height w k) : ∃ c, w[k]? = some c := by
  cases hc : w[k]? with
  | none =>
    have hl := List.getElem?_eq_none_iff.mp hc
    rw [height_of_length_le hl, height_of_length_le (by omega)] at h
    exact absurd rfl h
  | some c => exact ⟨c, rfl⟩

theorem height_append_of_le {u v : List Command} {k : Nat} (h : k ≤ u.length) :
    height (u ++ v) k = height u k := by
  rw [height, List.take_append_of_le_length h, height]

theorem height_append_add (u v : List Command) (n : Nat) :
    height (u ++ v) (u.length + n) = depth u + height v n := by
  rw [height_add, height_append_of_le (Nat.le_refl _), height_of_length_le (Nat.le_refl _),
    List.drop_left]

theorem height_nonneg_append {u v : List Command} (hu : ∀ k, 0 ≤ height u k)
    (hv : ∀ k, 0 ≤ height v k) (k : Nat) : 0 ≤ height (u ++ v) k := by
  rcases Nat.le_total k u.length with hk | hk
  · rw [height_append_of_le hk]
    exact hu k
  · obtain ⟨n, rfl⟩ := Nat.exists_eq_add_of_le hk
    have hdepth := hu u.length
    rw [height_of_length_le (Nat.le_refl _)] at hdepth
    rw [height_append_add]
    have := hv n
    omega

theorem height_nonneg_loopStart {w : List Command} (h : ∀ k, 0 ≤ height w k) (k : Nat) :
    0 ≤ height (.loopStart :: w) k := by
  cases k with
  | zero => simp
  | succ k =>
    have := h k
    simp only [height, List.take_succ_cons, depth_cons, rise] at this ⊢
    omega

/-- The heights within a part of a word. -/
theorem height_segment {w : List Command} {i j n : Nat} (h : i + n ≤ j) :
    height ((w.take j).drop i) n = height w (i + n) - height w i := by
  rw [height_add, height, height, List.drop_take, List.take_take, Nat.min_eq_left (by omega),
    height]
  omega

theorem depth_segment {w : List Command} {i j : Nat} (h : i ≤ j) :
    depth ((w.take j).drop i) = height w j - height w i := by
  obtain ⟨n, rfl⟩ := Nat.exists_eq_add_of_le h
  rw [← height_segment (Nat.le_refl (i + n))]
  exact (height_of_length_le (by simp; omega)).symm

theorem balanced_iff_height {w : List Command} :
    Balanced w ↔ (∀ k, 0 ≤ height w k) ∧ depth w = 0 := by
  constructor
  · rintro ⟨hle, heq⟩
    have hd : depth w = 0 := by
      simp only [depth]
      omega
    refine ⟨fun k => ?_, hd⟩
    rcases Nat.le_total k w.length with hk | hk
    · have := hle k hk
      simp only [height, depth]
      omega
    · have := height_of_length_le hk
      omega
  · rintro ⟨hle, heq⟩
    refine ⟨fun n _ => ?_, ?_⟩
    · have := hle n
      simp only [height, depth] at this
      omega
    · simp only [depth] at heq
      omega

theorem Balanced.depth_eq_zero {w : List Command} (h : Balanced w) : depth w = 0 :=
  (balanced_iff_height.mp h).2

theorem balanced_nil : Balanced [] := by decide

theorem Balanced.append {u v : List Command} (hu : Balanced u) (hv : Balanced v) :
    Balanced (u ++ v) := by
  rw [balanced_iff_height] at *
  exact ⟨height_nonneg_append hu.1 hv.1, by simp [hu.2, hv.2]⟩

theorem balanced_singleton {c : Command} (h : c.isBracket = false) : Balanced [c] := by
  revert h
  cases c <;> decide

theorem Balanced.wrap {w : List Command} (h : Balanced w) :
    Balanced (.loopStart :: w ++ [.loopEnd]) := by
  rw [balanced_iff_height] at *
  refine ⟨fun k => ?_, by simp [h.2, rise]⟩
  cases k with
  | zero => simp
  | succ k =>
    rcases Nat.le_total k w.length with hk | hk
    · have := h.1 k
      simp only [height, List.cons_append, List.take_succ_cons, depth_cons, rise,
        List.take_append_of_le_length hk] at this ⊢
      omega
    · rcases Nat.eq_or_lt_of_le hk with rfl | hk
      · simp [height, h.2, rise]
      · rw [height_of_length_le (by simp; omega)]
        simp [h.2, rise]

/-- A `[` at `i` and a `]` at `j` with a balanced word between them. -/
structure Encloses (w : List Command) (i j : Nat) : Prop where
  lt : i < j
  opening : w[i]? = some .loopStart
  closing : w[j]? = some .loopEnd
  inside : Balanced ((w.take j).drop (i + 1))

/-- The `]` of a pair is the first place behind the `[` at which the height returns. -/
theorem encloses_iff_height {w : List Command} {i j : Nat} :
    Encloses w i j ↔ i < j ∧ w[i]? = some .loopStart ∧ w[j]? = some .loopEnd ∧
      (∀ k, i < k → k ≤ j → height w i < height w k) ∧ height w (j + 1) = height w i := by
  constructor
  · rintro ⟨hlt, hi, hj, hb⟩
    rw [balanced_iff_height, depth_segment (by omega)] at hb
    have hs := height_succ hi
    have ht := height_succ hj
    simp only [rise] at hs ht
    refine ⟨hlt, hi, hj, fun k hik hkj => ?_, by omega⟩
    have := hb.1 (k - (i + 1))
    rw [height_segment (by omega), Nat.add_sub_of_le hik] at this
    omega
  · rintro ⟨hlt, hi, hj, hab, hret⟩
    have hs := height_succ hi
    have ht := height_succ hj
    simp only [rise] at hs ht
    refine ⟨hlt, hi, hj, ?_⟩
    rw [balanced_iff_height, depth_segment (by omega)]
    refine ⟨fun k => ?_, by omega⟩
    rcases Nat.le_total (i + 1 + k) j with hk | hk
    · rw [height_segment hk]
      have := hab (i + 1 + k) (by omega) hk
      omega
    · rw [height_of_length_le (by simp; omega), depth_segment (by omega)]
      omega

namespace Encloses

variable {w : List Command} {i j : Nat}

theorem right_unique {j' : Nat} (h : Encloses w i j) (h' : Encloses w i j') : j = j' := by
  obtain ⟨-, -, -, hab, hret⟩ := encloses_iff_height.mp h
  obtain ⟨-, -, -, hab', hret'⟩ := encloses_iff_height.mp h'
  have hlt := h.lt
  have hlt' := h'.lt
  rcases Nat.lt_trichotomy j j' with hj | hj | hj
  · have := hab' (j + 1) (by omega) hj
    omega
  · exact hj
  · have := hab (j' + 1) (by omega) hj
    omega

theorem left_unique {i' : Nat} (h : Encloses w i j) (h' : Encloses w i' j) : i = i' := by
  obtain ⟨hlt, -, -, hab, hret⟩ := encloses_iff_height.mp h
  obtain ⟨hlt', -, -, hab', hret'⟩ := encloses_iff_height.mp h'
  rcases Nat.lt_trichotomy i i' with hi | hi | hi
  · have := hab i' hi (by omega)
    omega
  · exact hi
  · have := hab' i hi (by omega)
    omega

/-- Two pairs lie side by side or one within the other. -/
theorem not_cross {a b c d : Nat} (h : Encloses w a b) (h' : Encloses w c d) :
    ¬ (a < c ∧ c < b ∧ b < d) := by
  rintro ⟨hac, hcb, hbd⟩
  obtain ⟨-, -, -, hab, hret⟩ := encloses_iff_height.mp h
  obtain ⟨-, -, -, hcd, -⟩ := encloses_iff_height.mp h'
  have hc := hab c hac (by omega)
  have hb := hcd (b + 1) (by omega) hbd
  omega

theorem lt_length (h : Encloses w i j) : j < w.length :=
  (List.getElem?_eq_some_iff.mp h.closing).1

/-- Pairs are not affected by what follows. -/
theorem append_iff {v : List Command} (hj : j < w.length) :
    Encloses (w ++ v) i j ↔ Encloses w i j := by
  have hsame (hij : i < j) :
      (w ++ v)[i]? = w[i]? ∧ (w ++ v)[j]? = w[j]? ∧ (w ++ v).take j = w.take j :=
    ⟨List.getElem?_append_left (by omega), List.getElem?_append_left hj,
      List.take_append_of_le_length (Nat.le_of_lt hj)⟩
  constructor
  · rintro ⟨hlt, hopen, hclose, hin⟩
    obtain ⟨h₁, h₂, h₃⟩ := hsame hlt
    exact ⟨hlt, h₁ ▸ hopen, h₂ ▸ hclose, h₃ ▸ hin⟩
  · rintro ⟨hlt, hopen, hclose, hin⟩
    obtain ⟨h₁, h₂, h₃⟩ := hsame hlt
    exact ⟨hlt, h₁.trans hopen, h₂.trans hclose, h₃.symm ▸ hin⟩

end Encloses

theorem encloses_of_append {before inside after : List Command} (h : Balanced inside) :
    Encloses (before ++ .loopStart :: (inside ++ .loopEnd :: after)) before.length
      (before.length + inside.length + 1) := by
  refine ⟨by omega, by simp, ?_, ?_⟩
  · rw [List.getElem?_append_right (by omega)]
    simp [Nat.add_assoc]
  · have hd : ((before ++ Command.loopStart :: (inside ++ .loopEnd :: after)).take
        (before.length + inside.length + 1)).drop (before.length + 1) = inside := by
      simp [List.take_append, List.drop_append, Nat.add_assoc]
    rw [hd]
    exact h

theorem Balanced.exists_closing {w : List Command} (h : Balanced w) {i : Nat}
    (hi : w[i]? = some .loopStart) : ∃ j, Encloses w i j := by
  obtain ⟨hnn, hz⟩ := balanced_iff_height.mp h
  have hil := (List.getElem?_eq_some_iff.mp hi).1
  have hex : ∃ k, i < k ∧ height w k ≤ height w i :=
    ⟨w.length, hil, by rw [height_of_length_le (Nat.le_refl _), hz]; exact hnn i⟩
  -- The first return is behind the partner.
  obtain ⟨hik, hret⟩ := Nat.find_spec hex
  have hmin : ∀ k, i < k → k < Nat.find hex → height w i < height w k := by
    intro k hk hlt
    have := Nat.find_min hex hlt
    omega
  obtain ⟨j, hj⟩ : ∃ j, Nat.find hex = j + 1 := ⟨Nat.find hex - 1, by omega⟩
  rw [hj] at hik hret hmin
  have hs := height_succ hi
  simp only [rise] at hs
  have hij : i < j := by
    rcases Nat.eq_or_lt_of_le (Nat.le_of_lt_succ hik) with rfl | hlt
    · omega
    · exact hlt
  have hup := hmin j hij (by omega)
  obtain ⟨c, hc⟩ := exists_command_of_height_ne (w := w) (k := j) (by omega)
  have hdown := height_succ hc
  have hc1 := neg_one_le_rise c
  have hend : c = .loopEnd := rise_eq_neg_one_iff.mp (by omega)
  subst hend
  exact ⟨j, encloses_iff_height.mpr
    ⟨hij, hi, hc, fun k hk hkj => hmin k hk (by omega), by omega⟩⟩

theorem Balanced.exists_opening {w : List Command} (h : Balanced w) {j : Nat}
    (hj : w[j]? = some .loopEnd) : ∃ i, Encloses w i j := by
  obtain ⟨hnn, -⟩ := balanced_iff_height.mp h
  have hs := height_succ hj
  simp only [rise] at hs
  -- The partner is the last position in front of which the height was that low.
  let P := fun k => height w k ≤ height w (j + 1)
  have hP : P (Nat.findGreatest P j) := by
    apply Nat.findGreatest_spec (m := 0) (Nat.zero_le j)
    simpa [P] using hnn (j + 1)
  have hmax : ∀ k, Nat.findGreatest P j < k → k ≤ j → height w (j + 1) < height w k := by
    intro k hk hkj
    have := Nat.findGreatest_is_greatest hk hkj
    simp only [P] at this
    omega
  have hle : Nat.findGreatest P j ≤ j := Nat.findGreatest_le j
  generalize Nat.findGreatest P j = i at hP hmax hle
  simp only [P] at hP
  have hij : i < j := by
    rcases Nat.eq_or_lt_of_le hle with rfl | hlt
    · omega
    · exact hlt
  have hup := hmax (i + 1) (by omega) hij
  obtain ⟨c, hc⟩ := exists_command_of_height_ne (w := w) (k := i) (by omega)
  have hrise := height_succ hc
  have hc1 := rise_le_one c
  have hstart : c = .loopStart := rise_eq_one_iff.mp (by omega)
  subst hstart
  refine ⟨i, encloses_iff_height.mpr ⟨hij, hc, hj, fun k hk hkj => ?_, by omega⟩⟩
  have := hmax k hk hkj
  omega

end Brainfuck.Brackets

import Brainfuck.Proofs.Comments
import Brainfuck.Proofs.Culprit
import Mathlib.Data.List.Infix
import Mathlib.Order.Bounds.Basic

/-!
# Stray brackets

A program that cannot be paired is refused because of one bracket: the first `]` in front of which
nothing is open, and if there is none, the last `[` that is never closed. A scan that goes on behind
a `]` with nothing open finds all brackets without partner, and a source text without these can be
paired.
-/
namespace Brainfuck

namespace Brackets

variable {w : List Command} {i j n : Nat}

/-- Pairs of a part of a word that reaches to its end are pairs of the word. -/
theorem Encloses.of_drop (h : Encloses (w.drop n) i j) : Encloses w (n + i) (n + j) := by
  obtain ⟨hlt, hopen, hclose, habove, hreturn⟩ := encloses_iff_height.mp h
  rw [List.getElem?_drop] at hopen hclose
  refine encloses_iff_height.mpr ⟨by omega, hopen, hclose, fun k hik hkj => ?_, ?_⟩
  · obtain ⟨d, rfl⟩ := Nat.exists_eq_add_of_le (show n ≤ k by omega)
    have := habove d (by omega) (by omega)
    rw [height_add, height_add]
    omega
  · rw [Nat.add_assoc, height_add w n (j + 1), height_add w n i, hreturn]

/-- No pair reaches across a `[` above which everything behind it stays. -/
theorem not_encloses_of_highest (hopen : w[n]? = some .loopStart)
    (hbehind : ∀ k, 0 ≤ height (w.drop (n + 1)) k) (hi : i ≤ n) (hj : n ≤ j) :
    ¬Encloses w i j := by
  intro h
  obtain ⟨-, -, -, habove, hreturn⟩ := encloses_iff_height.mp h
  have hup := height_succ hopen
  simp only [rise] at hup
  have hrest := height_add w (n + 1) (j - n)
  rw [show n + 1 + (j - n) = j + 1 by omega] at hrest
  have hnonneg := hbehind (j - n)
  rcases Nat.eq_or_lt_of_le hi with rfl | hlt
  · omega
  · have := habove n hlt hj
    omega

/-- No pair reaches across a `]` in front of which nothing is lower. -/
theorem not_encloses_of_lowest (hclose : w[n]? = some .loopEnd)
    (hbefore : ∀ k ≤ n, height w n ≤ height w k) (hi : i ≤ n) (hj : n ≤ j) :
    ¬Encloses w i j := by
  intro h
  obtain ⟨-, -, -, habove, hreturn⟩ := encloses_iff_height.mp h
  have hdown := height_succ hclose
  simp only [rise] at hdown
  have hlow := hbefore i hi
  rcases Nat.eq_or_lt_of_le hj with rfl | hlt
  · omega
  · have := habove (n + 1) (by omega) hlt
    omega

/-- A word that closes more loops than it opens. -/
def Overclosed (u : List Command) : Prop := u.count .loopStart < u.count .loopEnd

instance (u : List Command) : Decidable (Overclosed u) :=
  inferInstanceAs (Decidable (_ < _))

theorem overclosed_take_iff : Overclosed (w.take n) ↔ height w n < 0 := by
  rw [Overclosed, height, depth]
  omega

theorem exists_overclosed_iff : (∃ u, u <+: w ∧ Overclosed u) ↔ ∃ n, height w n < 0 := by
  constructor
  · rintro ⟨u, hu, hover⟩
    rw [List.prefix_iff_eq_take.mp hu] at hover
    exact ⟨u.length, overclosed_take_iff.mp hover⟩
  · rintro ⟨n, hn⟩
    exact ⟨w.take n, List.take_prefix n w, overclosed_take_iff.mpr hn⟩

end Brackets

namespace Pairing
open Brackets Program

variable {w inside rest : List Command} {closed opened : List Nat} {c : Command} {i k : Nat}

/-- A bracket without partner. -/
def Stray (w : List Command) (i : Nat) : Prop :=
  (∃ c, w[i]? = some c ∧ c.isBracket) ∧ ∀ j, ¬Partners w i j

theorem Stray.lt_length (h : Stray w i) : i < w.length := by
  obtain ⟨⟨c, hc, -⟩, -⟩ := h
  exact (List.getElem?_eq_some_iff.mp hc).1

/-- A `[` is a stray one if the word behind it is balanced. -/
theorem stray_of_balanced_behind (hopen : w[i]? = some .loopStart)
    (h : Balanced (w.drop (i + 1))) : Stray w i := by
  have hbehind := (balanced_iff_height.mp h).1
  refine ⟨⟨_, hopen, rfl⟩, fun j hp => ?_⟩
  rcases hp with he | he
  · exact not_encloses_of_highest hopen hbehind (Nat.le_refl i) (Nat.le_of_lt he.lt) he
  · cases hopen.symm.trans he.closing

/-- Behind the beginning of a balanced end of the word all brackets have partners. -/
theorem Stray.lt_of_balanced (h : Stray w i) (hb : Balanced (w.drop k)) : i < k := by
  by_contra hle
  obtain ⟨d, rfl⟩ := Nat.exists_eq_add_of_le (Nat.le_of_not_lt hle)
  obtain ⟨⟨c, hc, hbracket⟩, hnone⟩ := h
  rw [← List.getElem?_drop] at hc
  obtain ⟨e, he | he⟩ := (exists_partners_iff hb).mpr ⟨c, hc, hbracket⟩
  · exact hnone (k + e) (.inl he.of_drop)
  · exact hnone (k + e) (.inr he.of_drop)

/-- A bracket that no pair reaches across, with a balanced word behind it, is one stray bracket
more. -/
theorem stray_append_iff (hc : c.isBracket) (hin : Balanced inside)
    (hacross : ∀ i j, i ≤ w.length → w.length ≤ j → ¬Encloses (w ++ c :: inside) i j) :
    Stray (w ++ c :: inside) i ↔ i = w.length ∨ Stray w i := by
  rcases Nat.lt_trichotomy i w.length with hlt | rfl | hgt
  · have hpairs (j : Nat) : Partners (w ++ c :: inside) i j ↔ Partners w i j := by
      rw [Partners, Partners, Encloses.append_iff hlt]
      rcases Nat.lt_or_ge j w.length with hj | hj
      · rw [Encloses.append_iff hj]
      · refine or_congr_left ⟨fun he => absurd he (hacross i j (Nat.le_of_lt hlt) hj), fun he => ?_⟩
        exact absurd he.lt_length (Nat.not_lt.mpr hj)
    rw [Stray, Stray, List.getElem?_append_left hlt]
    simp only [hpairs, Nat.ne_of_lt hlt, false_or]
  · refine ⟨fun _ => .inl rfl, fun _ => ⟨⟨c, by simp, hc⟩, fun j hp => ?_⟩⟩
    rcases hp with he | he
    · exact hacross _ _ (Nat.le_refl _) (Nat.le_of_lt he.lt) he
    · exact hacross _ _ (Nat.le_of_lt he.lt) (Nat.le_refl _) he
  · have hdrop : (w ++ c :: inside).drop (w.length + 1) = inside := by simp
    constructor
    · intro h
      exact absurd (h.lt_of_balanced (hdrop.symm ▸ hin)) (by omega)
    · rintro (rfl | h)
      · omega
      · exact absurd h.lt_length (by omega)

namespace Unmatched

/-- Without an open `[` the end of the word is its lowest place. -/
theorem depth_le_height (h : Unmatched w closed opened) (ho : opened = []) (k : Nat) :
    depth w ≤ height w k := by
  induction h generalizing k with
  | none h =>
    rw [h.depth_eq_zero]
    exact (balanced_iff_height.mp h).1 k
  | @closing w inside _ _ h ih =>
    have hdepth : depth (w ++ .loopEnd :: inside) = depth w - 1 := by
      simp [h.depth_eq_zero, rise]
      omega
    rcases Nat.le_total k w.length with hk | hk
    · rw [hdepth, height_append_of_le hk]
      have := ih rfl k
      omega
    · obtain ⟨n, rfl⟩ := Nat.exists_eq_add_of_le hk
      rw [hdepth, height_append_add]
      cases n with
      | zero =>
        rw [height_zero]
        omega
      | succ n =>
        have hin := (balanced_iff_height.mp h).1 n
        rw [height] at hin ⊢
        simp only [List.take_succ_cons, depth_cons, rise]
        omega
  | opening _ _ _ => cases ho

/-- The brackets that are left over are those without partner. -/
theorem mem_iff_stray (h : Unmatched w closed opened) (i : Nat) :
    i ∈ opened ++ closed ↔ Stray w i := by
  induction h with
  | none h =>
    refine ⟨fun hmem => absurd hmem (by simp), fun hs => ?_⟩
    exact absurd (hs.lt_of_balanced (k := 0) h) (Nat.not_lt_zero i)
  | @closing w inside _ before h ih =>
    rw [stray_append_iff rfl h, ← ih]
    · simp
    · intro i j hi hj
      refine not_encloses_of_lowest (n := w.length) (by simp) (fun k hk => ?_) hi hj
      rw [height_append_of_le hk, height_append_of_le (Nat.le_refl _),
        height_of_length_le (Nat.le_refl _)]
      exact before.depth_le_height rfl k
  | @opening w inside _ _ outer h ih =>
    rw [stray_append_iff rfl h, ← ih]
    · simp
    · intro i j hi hj
      refine not_encloses_of_highest (n := w.length) (by simp) ?_ hi hj
      simpa using (balanced_iff_height.mp h).1

end Unmatched

/-- Scan the commands from index `i` on, like the scan for partners, but go on behind a `]` that
finds nothing open. The brackets without partner are kept, the last one first. -/
def unmatchedFrom : List Command → (i : Nat) → (closed opened : List Nat) → List Nat × List Nat
  | [], _, closed, opened => (closed, opened)
  | .loopStart :: rest, i, closed, opened => unmatchedFrom rest (i + 1) closed (i :: opened)
  | .loopEnd :: rest, i, closed, [] => unmatchedFrom rest (i + 1) (i :: closed) []
  | .loopEnd :: rest, i, closed, _ :: opened => unmatchedFrom rest (i + 1) closed opened
  | _ :: rest, i, closed, opened => unmatchedFrom rest (i + 1) closed opened

/-- The brackets of a word without partner: each `[` that is left open, and each `]` that finds
nothing open. -/
def strays (w : List Command) : List Nat :=
  let (closed, opened) := unmatchedFrom w 0 [] []
  opened ++ closed

theorem unmatchedFrom_plain (h : c.isBracket = false) (rest : List Command) (i : Nat)
    (closed opened : List Nat) :
    unmatchedFrom (c :: rest) i closed opened = unmatchedFrom rest (i + 1) closed opened := by
  cases c with
  | loopStart => exact nomatch h
  | loopEnd => exact nomatch h
  | _ => cases opened <;> rfl

theorem unmatched_unmatchedFrom (h : Unmatched w closed opened) :
    Unmatched (w ++ rest) (unmatchedFrom rest w.length closed opened).1
      (unmatchedFrom rest w.length closed opened).2 := by
  induction rest generalizing w closed opened with
  | nil => simpa [unmatchedFrom] using h
  | cons c rest ih =>
    -- As in the scan for partners, the command moves to the word that was read.
    have hnext : w ++ c :: rest = (w ++ [c]) ++ rest := by simp
    have hlen : (w ++ [c]).length = w.length + 1 := by simp
    cases hc : c.isBracket with
    | false =>
      rw [unmatchedFrom_plain hc, hnext, ← hlen]
      exact ih (h.append (balanced_singleton hc))
    | true =>
      cases c with
      | loopStart =>
        rw [unmatchedFrom, hnext, ← hlen]
        exact ih h.open_bracket
      | loopEnd =>
        cases opened with
        | nil =>
          rw [unmatchedFrom, hnext, ← hlen]
          exact ih (.closing h balanced_nil)
        | cons start opened =>
          rw [unmatchedFrom, hnext, ← hlen]
          exact ih h.close_bracket.1
      | _ => exact nomatch hc

theorem exists_unmatched (w : List Command) :
    ∃ closed opened, Unmatched w closed opened ∧ strays w = opened ++ closed :=
  ⟨_, _, unmatched_unmatchedFrom (.none balanced_nil), rfl⟩

theorem mem_strays_iff : i ∈ strays w ↔ Stray w i := by
  obtain ⟨closed, opened, h, heq⟩ := exists_unmatched w
  rw [heq]
  exact h.mem_iff_stray i

/-- The elements of a list from index `k` on, apart from those at some indices. -/
def withoutFrom {α : Type} (indices : List Nat) (k : Nat) (l : List α) : List α :=
  ((l.zipIdx k).filter fun x => x.2 ∉ indices).map Prod.fst

/-- A source text without the characters of its stray brackets. -/
def repaired (source : String) : String :=
  String.ofList (withoutFrom ((strays (parse source).commands).filterMap (parse source).offset?) 0
    source.toList)

section Lists

variable {α : Type} {indices : List Nat} {l : List α}

theorem withoutFrom_cons (indices : List Nat) (k : Nat) (a : α) (l : List α) :
    withoutFrom indices k (a :: l) =
      if k ∈ indices then withoutFrom indices (k + 1) l
      else a :: withoutFrom indices (k + 1) l := by
  by_cases h : k ∈ indices <;> simp [withoutFrom, h]

theorem withoutFrom_append (indices : List Nat) (k : Nat) (u v : List α) :
    withoutFrom indices k (u ++ v) =
      withoutFrom indices k u ++ withoutFrom indices (k + u.length) v := by
  simp [withoutFrom, List.zipIdx_append]

theorem withoutFrom_of_forall_lt (h : ∀ i ∈ indices, i < k) : withoutFrom indices k l = l := by
  have hall : (l.zipIdx k).filter (fun x => x.2 ∉ indices) = l.zipIdx k := by
    rw [List.filter_eq_self]
    intro x hx
    have hle := List.le_snd_of_mem_zipIdx hx
    simpa using fun hmem => absurd (h x.2 hmem) (by omega)
  rw [withoutFrom, hall, List.zipIdx_map_fst]

theorem withoutFrom_cons_of_length_le {n : Nat} (h : k + l.length ≤ n) :
    withoutFrom (n :: indices) k l = withoutFrom indices k l := by
  rw [withoutFrom, withoutFrom]
  congr 1
  apply List.filter_congr
  intro x hx
  have hlt := List.snd_lt_add_of_mem_zipIdx hx
  have hne : x.2 ≠ n := by omega
  simp [hne]

theorem withoutFrom_append_cons {u v : List α} (a : α) (h : ∀ i ∈ indices, i < u.length) :
    withoutFrom (u.length :: indices) 0 (u ++ a :: v) = withoutFrom indices 0 u ++ v := by
  have hrest : withoutFrom (u.length :: indices) (u.length + 1) v = v := by
    apply withoutFrom_of_forall_lt
    intro i hi
    rcases List.mem_cons.mp hi with rfl | hi
    · omega
    · exact Nat.lt_succ_of_lt (h i hi)
  rw [withoutFrom_append, withoutFrom_cons_of_length_le (by omega), withoutFrom_cons, Nat.zero_add,
    if_pos List.mem_cons_self, hrest]

end Lists

theorem Unmatched.balanced_without (h : Unmatched w closed opened) :
    Balanced (withoutFrom (opened ++ closed) 0 w) := by
  have hlt {w : List Command} {closed opened : List Nat} (h : Unmatched w closed opened) :
      ∀ i ∈ opened ++ closed, i < w.length :=
    fun i hi => ((h.mem_iff_stray i).mp hi).lt_length
  induction h with
  | none h => simpa [withoutFrom_of_forall_lt] using h
  | closing before h ih =>
    have hbefore := hlt before
    rw [List.nil_append] at hbefore ih ⊢
    rw [withoutFrom_append_cons _ hbefore]
    exact ih.append h
  | opening outer h ih =>
    rw [List.cons_append, withoutFrom_append_cons _ (hlt outer)]
    exact ih.append h

/-- Characters taken out of a text are commands taken out of its program, if they are told by the
places of the instructions. -/
theorem filterMap_withoutFrom {text : List Char} {offsets indices : List Nat} {k m : Nat}
    (h : ∀ i x, ((text.zipIdx k).filterMap instruction?)[i]? = some x →
      (x.offset ∈ offsets ↔ m + i ∈ indices)) :
    (withoutFrom offsets k text).filterMap Command.ofChar? =
      withoutFrom indices m (text.filterMap Command.ofChar?) := by
  induction text generalizing k m with
  | nil => rfl
  | cons a text ih =>
    rw [List.zipIdx_cons, List.filterMap_cons] at h
    cases ha : Command.ofChar? a with
    | none =>
      simp only [instruction?, ha, Option.map_none] at h
      rw [withoutFrom_cons, List.filterMap_cons_none ha, ← ih h]
      split
      · rfl
      · rw [List.filterMap_cons_none ha]
    | some c =>
      simp only [instruction?, ha, Option.map_some] at h
      have hfirst : k ∈ offsets ↔ m ∈ indices := h 0 _ rfl
      have hrest := ih (m := m + 1) fun i x hx => by
        rw [h (i + 1) x hx, Nat.add_right_comm, Nat.add_assoc]
      rw [withoutFrom_cons, List.filterMap_cons_some ha, withoutFrom_cons, ← hrest]
      by_cases hk : k ∈ offsets
      · rw [if_pos hk, if_pos (hfirst.mp hk)]
      · rw [if_neg hk, if_neg (mt hfirst.mpr hk), List.filterMap_cons_some ha]

theorem commands_repaired (source : String) :
    (parse (repaired source)).commands =
      withoutFrom (strays (parse source).commands) 0 (parse source).commands := by
  rw [repaired]
  generalize strays (parse source).commands = indices
  rw [commands_parse, commands_parse, String.toList_ofList]
  apply filterMap_withoutFrom
  intro i x hx
  have hoff : (parse source).offset? i = some x.offset := by
    rw [offset?, parse, List.getElem?_toArray, hx, Option.map_some]
  rw [Nat.zero_add, List.mem_filterMap]
  constructor
  · rintro ⟨j, hj, hsame⟩
    exact index_eq_of_offset? hsame hoff ▸ hj
  · intro hi
    exact ⟨i, hi, hoff⟩

theorem balanced_repaired (source : String) : Balanced (parse (repaired source)).commands := by
  obtain ⟨closed, opened, h, heq⟩ := exists_unmatched (parse source).commands
  rw [commands_repaired, heq]
  exact h.balanced_without

/-- The first `]` with a balanced word in front of it ends the first beginning that closes too
much. -/
theorem isLeast_overclosed (hclose : w[i]? = some .loopEnd) (h : Balanced (w.take i)) :
    IsLeast {i | Overclosed (w.take (i + 1))} i := by
  obtain ⟨hnonneg, hdepth⟩ := balanced_iff_height.mp h
  refine ⟨overclosed_take_iff.mpr ?_, fun k hk => ?_⟩
  · rw [height_succ hclose, height, hdepth]
    decide
  · have hneg := overclosed_take_iff.mp hk
    by_contra hlt
    have := hnonneg (k + 1)
    rw [height, List.take_take, Nat.min_eq_left (by omega), ← height] at this
    omega

/-- The last stray `[` is the one with a balanced word behind it. -/
theorem isGreatest_stray (hopen : w[i]? = some .loopStart) (h : Balanced (w.drop (i + 1))) :
    IsGreatest {i | w[i]? = some .loopStart ∧ Stray w i} i :=
  ⟨⟨hopen, stray_of_balanced_behind hopen h⟩, fun _ hk => Nat.le_of_lt_succ (hk.2.lt_of_balanced h)⟩

theorem balanced_behind_iff (hopen : w[i]? = some .loopStart) (h : Balanced (w.drop (i + 1))) :
    w[k]? = some .loopStart ∧ Balanced (w.drop (k + 1)) ↔ k = i := by
  constructor
  · rintro ⟨hk, hbal⟩
    exact (isGreatest_stray hk hbal).unique (isGreatest_stray hopen h)
  · rintro rfl
    exact ⟨hopen, h⟩

/-- A source text with unbalanced brackets is refused because of the first `]` that closes too much,
whatever follows it, and if there is none, because of the last `[` without partner; the fault tells
where the bracket stands. Without its stray brackets the text is accepted. -/
theorem unpaired_brackets_blamed (source : String) (h : ¬Balanced (parse source).commands) :
    let w := (parse source).commands
    ((∃ u, u <+: w ∧ Overclosed u) →
      ∃ i offset, ofProgram (parse source) = .error (.unopenedLoop i offset) ∧
        w[i]? = some .loopEnd ∧ IsLeast {i | Overclosed (w.take (i + 1))} i ∧
        StandsAt source i .loopEnd offset) ∧
    ((¬∃ u, u <+: w ∧ Overclosed u) →
      ∃ i offset, ofProgram (parse source) = .error (.unclosedLoop i offset) ∧
        IsGreatest {i | w[i]? = some .loopStart ∧ Stray w i} i ∧
        (∀ k, w[k]? = some .loopStart ∧ Balanced (w.drop (k + 1)) ↔ k = i) ∧
        StandsAt source i .loopStart offset) ∧
    (∀ i, i ∈ strays w ↔ Stray w i) ∧ ∃ t, ofProgram (parse (repaired source)) = .ok t := by
  intro w
  have hrepaired : ∃ t, ofProgram (parse (repaired source)) = .ok t := by
    simp only [ofProgram_eq_ok_iff]
    exact ofCommands_eq_ok_iff.mpr (balanced_repaired source)
  obtain ⟨fault, hfault⟩ : ∃ fault, ofProgram (parse source) = .error fault := by
    cases hp : ofProgram (parse source) with
    | ok t => exact absurd (balanced_of_ofCommands (ofProgram_eq_ok_iff.mp hp)) h
    | error fault => exact ⟨fault, rfl⟩
  obtain ⟨u, rfl, hv⟩ := ofProgram_eq_error hfault
  rw [hfault, exists_overclosed_iff]
  refine ⟨fun hover => ?_, fun hnone => ?_, fun _ => mem_strays_iff, hrepaired⟩
  · cases hv with
    | unopened closing before =>
      exact ⟨_, _, rfl, closing, isLeast_overclosed closing before, (unpaired_place closing).2⟩
    | unclosed _ _ nonneg =>
      obtain ⟨n, hn⟩ := hover
      exact absurd (nonneg n) (Int.not_le.mpr hn)
  · cases hv with
    | @unopened i closing before =>
      have hover := (isLeast_overclosed closing before).1
      exact absurd ⟨i + 1, overclosed_take_iff.mp hover⟩ hnone
    | unclosed opening after _ =>
      exact ⟨_, _, rfl, isGreatest_stray opening after, fun k => balanced_behind_iff opening after,
        (unpaired_place opening).2⟩

/-- One text with a `]` too many in front of two loops that are never closed, and one in which only
loops are left open, both between comments. -/
theorem strays_between_comments :
    (ofProgram (parse "é[ ]]x[[") = .error (.unopenedLoop 2 4) ∧
      StandsAt "é[ ]]x[[" 2 .loopEnd 4 ∧ repaired "é[ ]]x[[" = "é[ ]x" ∧
      ∃ t, ofProgram (parse (repaired "é[ ]]x[[")) = .ok t) ∧
    ofProgram (parse "é[[]λ[.") = .error (.unclosedLoop 3 5) ∧
      StandsAt "é[[]λ[." 3 .loopStart 5 ∧ repaired "é[[]λ[." = "é[]λ." ∧
      ∃ t, ofProgram (parse (repaired "é[[]λ[.")) = .ok t := by
  constructor
  · obtain ⟨hover, -, -, hok⟩ := unpaired_brackets_blamed "é[ ]]x[[" (by decide)
    obtain ⟨i, offset, hfault, -, -, hstands⟩ :=
      hover ⟨[.loopStart, .loopEnd, .loopEnd], by decide, by decide⟩
    have hblamed : ofProgram (parse "é[ ]]x[[") = .error (.unopenedLoop 2 4) := rfl
    cases hblamed.symm.trans hfault
    exact ⟨hblamed, hstands, by decide, hok⟩
  · obtain ⟨-, hopen, -, hok⟩ := unpaired_brackets_blamed "é[[]λ[." (by decide)
    have hnone : ∀ u ∈ (parse "é[[]λ[.").commands.inits, ¬Overclosed u := by decide
    obtain ⟨i, offset, hfault, -, -, hstands⟩ :=
      hopen fun ⟨u, hu, hover⟩ => hnone u ((List.mem_inits u _).mpr hu) hover
    have hblamed : ofProgram (parse "é[[]λ[.") = .error (.unclosedLoop 3 5) := rfl
    cases hblamed.symm.trans hfault
    exact ⟨hblamed, hstands, by decide, hok⟩

end Pairing
end Brainfuck

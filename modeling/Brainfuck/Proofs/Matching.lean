import Brainfuck.Pairing
import Brainfuck.Proofs.Balance

/-!
# The pairing of a program

The scan for partners carries the brackets that are open, with balanced words before, between
and behind them, and a table with the pairs that are complete. From this invariant it follows
what the scan can end with: the table of a balanced word, the first `]` with nothing open, or
the innermost `[` that is never closed. The table of a balanced word is its only matching.
-/
namespace Brainfuck.Pairing
open Brackets

/-- The brackets of a word that have no partner, the last one first: each `]` with nothing open in
front of it, and behind them each `[` that is still open. All other brackets stand in balanced words
before, between and behind them. -/
inductive Unmatched : List Command → (closed opened : List Nat) → Prop where
  | none {w} (h : Balanced w) : Unmatched w [] []
  | closing {w inside closed} (before : Unmatched w closed []) (h : Balanced inside) :
      Unmatched (w ++ .loopEnd :: inside) (w.length :: closed) []
  | opening {w inside closed opened} (outer : Unmatched w closed opened) (h : Balanced inside) :
      Unmatched (w ++ .loopStart :: inside) closed (w.length :: opened)

namespace Unmatched

variable {w : List Command} {closed opened : List Nat}

theorem balanced (h : Unmatched w [] []) : Balanced w := by
  cases h with
  | none h => exact h

theorem append {v : List Command} (h : Unmatched w closed opened) (hv : Balanced v) :
    Unmatched (w ++ v) closed opened := by
  cases h with
  | none h => exact .none (h.append hv)
  | closing before h => simpa using closing before (h.append hv)
  | opening outer h => simpa using opening outer (h.append hv)

theorem open_bracket (h : Unmatched w closed opened) :
    Unmatched (w ++ [.loopStart]) closed (w.length :: opened) :=
  .opening h balanced_nil

/-- A `]` closes the innermost open bracket. -/
theorem close_bracket {start : Nat} (h : Unmatched w closed (start :: opened)) :
    Unmatched (w ++ [.loopEnd]) closed opened ∧
      Encloses (w ++ [.loopEnd]) start w.length := by
  cases h with
  | @opening w inside _ _ outer h =>
    constructor
    · simpa using outer.append h.wrap
    · have he : Encloses (w ++ .loopStart :: (inside ++ [.loopEnd])) w.length _ :=
        encloses_of_append h
      simpa [Nat.add_assoc] using he

/-- Without a `]` too many the height is never negative. -/
theorem height_nonneg (h : Unmatched w closed opened) (hc : closed = []) (k : Nat) :
    0 ≤ height w k := by
  induction h generalizing k with
  | none h => exact (balanced_iff_height.mp h).1 k
  | closing _ _ _ => exact nomatch hc
  | opening _ h ih =>
    exact height_nonneg_append (ih hc)
      (height_nonneg_loopStart (balanced_iff_height.mp h).1) k

end Unmatched

/-- Two brackets that enclose a balanced word, in either order. -/
def Partners (w : List Command) (i j : Nat) : Prop := Encloses w i j ∨ Encloses w j i

theorem Partners.symm {w : List Command} {i j : Nat} (h : Partners w i j) : Partners w j i :=
  Or.symm h

theorem Partners.unique {w : List Command} {i j k : Nat} (h : Partners w i j)
    (h' : Partners w i k) : j = k := by
  rcases h with h | h <;> rcases h' with h' | h'
  · exact h.right_unique h'
  · cases h.opening.symm.trans h'.closing
  · cases h.closing.symm.trans h'.opening
  · exact h.left_unique h'

theorem Partners.lt_length {w : List Command} {i j : Nat} (h : Partners w i j) :
    i < w.length := by
  rcases h with h | h
  · exact Nat.lt_trans h.lt h.lt_length
  · exact h.lt_length

/-- A table with the pairs of a word and no other. -/
def Tabulates (partners : Array (Option Nat)) (w : List Command) : Prop :=
  ∀ i j, partners[i]?.join = some j ↔ Partners w i j

/-- A command at the end of a word adds the pair that it closes, if it closes one. -/
theorem encloses_snoc_iff {w : List Command} {c : Command} {i j : Nat} :
    Encloses (w ++ [c]) i j ↔ Encloses w i j ∨ j = w.length ∧ Encloses (w ++ [c]) i j := by
  constructor
  · intro h
    have hj := h.lt_length
    rw [List.length_append, List.length_singleton] at hj
    rcases Nat.eq_or_lt_of_le (Nat.le_of_lt_succ hj) with hj | hj
    · exact .inr ⟨hj, h⟩
    · exact .inl ((Encloses.append_iff hj).mp h)
  · rintro (h | ⟨-, h⟩)
    · exact (Encloses.append_iff h.lt_length).mpr h
    · exact h

theorem Tabulates.snoc {partners : Array (Option Nat)} {w : List Command} {c : Command}
    (h : Tabulates partners w) (hc : c ≠ .loopEnd) : Tabulates partners (w ++ [c]) := by
  have hnew (i j : Nat) : Encloses (w ++ [c]) i j ↔ Encloses w i j := by
    rw [encloses_snoc_iff]
    refine or_iff_left ?_
    rintro ⟨rfl, he⟩
    have := he.closing
    rw [List.getElem?_append_right (Nat.le_refl _)] at this
    simp [hc] at this
  intro i j
  rw [h i j, Partners, Partners, hnew, hnew]

theorem join_getElem? {partners : Array (Option Nat)} {start stop : Nat}
    (hstart : start < partners.size) (hstop : stop < partners.size) (i : Nat) :
    (join partners start stop)[i]?.join =
      if i = stop then some start else if i = start then some stop else partners[i]?.join := by
  by_cases h : i = stop
  · subst h
    simp [join, hstop]
  · by_cases h' : i = start
    · subst h'
      simp [join, hstart, h, Ne.symm h]
    · simp [join, h, h', Ne.symm h, Ne.symm h']

theorem Tabulates.snoc_loopEnd {partners : Array (Option Nat)} {w : List Command} {start : Nat}
    (h : Tabulates partners w) (he : Encloses (w ++ [.loopEnd]) start w.length)
    (hsize : w.length < partners.size) :
    Tabulates (join partners start w.length) (w ++ [.loopEnd]) := by
  intro i j
  rw [join_getElem? (Nat.lt_trans he.lt hsize) hsize]
  split
  · next hi =>
    subst hi
    exact ⟨fun hj => Option.some.inj hj ▸ .inr he,
      fun hp => congrArg some (Partners.unique (.inr he) hp)⟩
  · split
    · next hi =>
      subst hi
      exact ⟨fun hj => Option.some.inj hj ▸ .inl he,
        fun hp => congrArg some (Partners.unique (.inl he) hp)⟩
    · next hstop hstart =>
      have hij : Encloses (w ++ [.loopEnd]) i j ↔ Encloses w i j := by
        rw [encloses_snoc_iff]
        refine or_iff_left ?_
        rintro ⟨rfl, h'⟩
        exact hstart (h'.left_unique he)
      have hji : Encloses (w ++ [.loopEnd]) j i ↔ Encloses w j i := by
        rw [encloses_snoc_iff]
        exact or_iff_left (fun h' => hstop h'.1)
      rw [h i j, Partners, Partners, hij, hji]

/-- What the scan of a word can end with. -/
inductive Verdict (w : List Command) (size : Nat) :
    Except Unpaired (Array (Option Nat)) → Prop where
  | paired {partners} (balanced : Balanced w) (size_eq : partners.size = size)
      (table : Tabulates partners w) : Verdict w size (.ok partners)
  /-- Nothing is open in front of the `]`. -/
  | unopened {i} (closing : w[i]? = some .loopEnd) (before : Balanced (w.take i)) :
      Verdict w size (.error (.closing i))
  /-- What follows the `[` is balanced, and no `]` of the word finds nothing open. -/
  | unclosed {i} (opening : w[i]? = some .loopStart) (after : Balanced (w.drop (i + 1)))
      (nonneg : ∀ k, 0 ≤ height w k) : Verdict w size (.error (.opening i))

theorem scan_plain {c : Command} (h : c.isBracket = false) (rest : List Command) (i : Nat)
    (opened : List Nat) (partners : Array (Option Nat)) :
    scan (c :: rest) i opened partners = scan rest (i + 1) opened partners := by
  cases c with
  | loopStart => exact nomatch h
  | loopEnd => exact nomatch h
  | _ => cases opened <;> rfl

theorem scan_verdict {w rest : List Command} {opened : List Nat}
    {partners : Array (Option Nat)} (ho : Unmatched w [] opened) (ht : Tabulates partners w)
    (hsize : w.length + rest.length ≤ partners.size) :
    Verdict (w ++ rest) partners.size (scan rest w.length opened partners) := by
  induction rest generalizing w opened partners with
  | nil =>
    rw [List.append_nil]
    cases ho with
    | none h => exact .paired h rfl ht
    | opening outer h =>
      refine .unclosed (by simp) ?_ (Unmatched.height_nonneg (.opening outer h) rfl)
      simpa [List.drop_append, List.drop_of_length_le] using h
  | cons c rest ih =>
    -- Every case moves the command from the rest to the word that was read.
    have hnext : w ++ c :: rest = (w ++ [c]) ++ rest := by simp
    have hlen : (w ++ [c]).length = w.length + 1 := by simp
    rw [List.length_cons] at hsize
    cases hc : c.isBracket with
    | false =>
      have hne : c ≠ .loopEnd := by
        rintro rfl
        exact nomatch hc
      rw [scan_plain hc, hnext, ← hlen]
      exact ih (ho.append (balanced_singleton hc)) (ht.snoc hne) (by omega)
    | true =>
      cases c with
      | loopStart =>
        rw [scan, hnext, ← hlen]
        exact ih ho.open_bracket (ht.snoc (by decide)) (by omega)
      | loopEnd =>
        cases opened with
        | nil => exact .unopened (by simp) (by simpa using ho.balanced)
        | cons start opened =>
          obtain ⟨hopen, hpair⟩ := ho.close_bracket
          have := ih hopen (ht.snoc_loopEnd hpair (by omega)) (by simp [join]; omega)
          rw [scan, hnext, ← hlen]
          simpa [join] using this
      | _ => exact nomatch hc

theorem scan_commands_verdict (w : List Command) :
    Verdict w w.length (scan w 0 [] (Array.replicate w.length none)) := by
  have ht : Tabulates (Array.replicate w.length none) [] := by
    intro i j
    refine ⟨fun h => ?_, fun h => ?_⟩
    · by_cases hi : i < w.length <;> simp [hi] at h
    · exact absurd h.lt_length (Nat.not_lt_zero i)
  simpa using scan_verdict (.none balanced_nil) ht (by simp)

theorem Verdict.eq_error_of_not_balanced {w : List Command} {size : Nat}
    {result : Except Unpaired (Array (Option Nat))} (h : Verdict w size result)
    (hw : ¬ Balanced w) : ∃ u, result = .error u := by
  cases h with
  | paired balanced _ _ => exact absurd balanced hw
  | unopened _ _ => exact ⟨_, rfl⟩
  | unclosed _ _ _ => exact ⟨_, rfl⟩

theorem Verdict.eq_ok_of_balanced {w : List Command} {size : Nat}
    {result : Except Unpaired (Array (Option Nat))} (h : Verdict w size result)
    (hw : Balanced w) : ∃ partners, result = .ok partners := by
  obtain ⟨hnn, hz⟩ := balanced_iff_height.mp hw
  cases h with
  | paired _ _ _ => exact ⟨_, rfl⟩
  | @unopened i closing before =>
    have h₁ := hnn (i + 1)
    have h₂ : height w i = 0 := before.depth_eq_zero
    rw [height_succ closing, h₂] at h₁
    exact absurd h₁ (by decide)
  | @unclosed i opening after nonneg =>
    have h₁ := hnn i
    have h₂ := height_add w (i + 1) (w.length - (i + 1))
    have hi := (List.getElem?_eq_some_iff.mp opening).1
    rw [height_succ opening, Nat.add_sub_of_le hi, height_of_length_le (Nat.le_refl _), hz,
      height_of_length_le (w := w.drop (i + 1)) (by simp), after.depth_eq_zero, rise] at h₂
    omega

/-- Exactly the balanced words can be paired. -/
theorem ofCommands_eq_ok_iff {w : List Command} :
    (∃ t, ofCommands w = .ok t) ↔ Balanced w := by
  have hv := scan_commands_verdict w
  constructor
  · rintro ⟨t, h⟩
    by_contra hw
    obtain ⟨u, hu⟩ := hv.eq_error_of_not_balanced hw
    rw [ofCommands, hu] at h
    exact nomatch h
  · intro hw
    obtain ⟨partners, hp⟩ := hv.eq_ok_of_balanced hw
    exact ⟨⟨partners⟩, by rw [ofCommands, hp]; rfl⟩

theorem verdict_of_ofCommands {w : List Command} {t : Pairing} (h : ofCommands w = .ok t) :
    Verdict w w.length (.ok t.partners) := by
  have hv := scan_commands_verdict w
  rw [ofCommands] at h
  cases hs : scan w 0 [] (Array.replicate w.length none) with
  | ok partners =>
    rw [hs] at h hv
    cases h
    exact hv
  | error u =>
    rw [hs] at h
    exact nomatch h

/-- The table holds exactly the pairs that enclose a balanced word. -/
theorem partner?_eq_some_iff {w : List Command} {t : Pairing} (h : ofCommands w = .ok t)
    {i j : Nat} : t.partner? i = some j ↔ Partners w i j := by
  cases verdict_of_ofCommands h with
  | paired _ _ table => exact table i j

theorem size_of_ofCommands {w : List Command} {t : Pairing} (h : ofCommands w = .ok t) :
    t.partners.size = w.length := by
  cases verdict_of_ofCommands h with
  | paired _ size_eq _ => exact size_eq

theorem balanced_of_ofCommands {w : List Command} {t : Pairing} (h : ofCommands w = .ok t) :
    Balanced w :=
  ofCommands_eq_ok_iff.mp ⟨t, h⟩

theorem ofProgram_eq_ok_iff {p : Program} {t : Pairing} :
    ofProgram p = .ok t ↔ ofCommands p.commands = .ok t := by
  rw [ofProgram]
  cases ofCommands p.commands <;> simp [Except.mapError]

/-- A program that cannot be paired has a bracket without partner. -/
theorem ofProgram_eq_error {p : Program} {fault : Fault} (h : ofProgram p = .error fault) :
    ∃ u, fault = u.fault p ∧ Verdict p.commands p.commands.length (.error u) := by
  have hv := scan_commands_verdict p.commands
  rw [ofProgram, ofCommands] at h
  cases hs : scan p.commands 0 [] (Array.replicate p.commands.length none) with
  | ok partners =>
    rw [hs] at h
    exact nomatch h
  | error u =>
    rw [hs] at h hv
    cases h
    exact ⟨u, rfl, hv⟩

/-- The laws of a proper matching of the brackets of a word. -/
structure IsMatching (w : List Command) (partner? : Nat → Option Nat) : Prop where
  isSome_iff : ∀ i, (partner? i).isSome ↔ ∃ c, w[i]? = some c ∧ c.isBracket
  opening : ∀ i j, w[i]? = some .loopStart → partner? i = some j →
    i < j ∧ w[j]? = some .loopEnd ∧ Balanced ((w.take j).drop (i + 1))
  closing : ∀ i j, w[j]? = some .loopEnd → partner? j = some i →
    i < j ∧ w[i]? = some .loopStart ∧ Balanced ((w.take j).drop (i + 1))
  involutive : ∀ i j, partner? i = some j → partner? j = some i
  nested : ∀ a b c d, partner? a = some b → partner? c = some d → ¬ (a < c ∧ c < b ∧ b < d)

theorem isBracket_iff {c : Command} : c.isBracket ↔ c = .loopStart ∨ c = .loopEnd := by
  cases c <;> decide

theorem exists_partners_iff {w : List Command} (h : Balanced w) {i : Nat} :
    (∃ j, Partners w i j) ↔ ∃ c, w[i]? = some c ∧ c.isBracket := by
  constructor
  · rintro ⟨j, he | he⟩
    · exact ⟨_, he.opening, rfl⟩
    · exact ⟨_, he.closing, rfl⟩
  · rintro ⟨c, hc, hb⟩
    rcases isBracket_iff.mp hb with rfl | rfl
    · obtain ⟨j, hj⟩ := h.exists_closing hc
      exact ⟨j, .inl hj⟩
    · obtain ⟨j, hj⟩ := h.exists_opening hc
      exact ⟨j, .inr hj⟩

theorem Partners.encloses_of_lt {w : List Command} {i j : Nat} (h : Partners w i j)
    (hij : i < j) : Encloses w i j := by
  rcases h with h | h
  · exact h
  · exact absurd h.lt (Nat.lt_asymm hij)

theorem isMatching_partner? {w : List Command} {t : Pairing} (h : ofCommands w = .ok t) :
    IsMatching w t.partner? where
  isSome_iff i := by
    rw [← exists_partners_iff (balanced_of_ofCommands h), Option.isSome_iff_exists]
    exact exists_congr fun j => partner?_eq_some_iff h
  opening i j hi hj := by
    rcases (partner?_eq_some_iff h).mp hj with he | he
    · exact ⟨he.lt, he.closing, he.inside⟩
    · cases hi.symm.trans he.closing
  closing i j hj hi := by
    rcases (partner?_eq_some_iff h).mp hi with he | he
    · cases hj.symm.trans he.opening
    · exact ⟨he.lt, he.opening, he.inside⟩
  involutive i j hj := by
    rw [partner?_eq_some_iff h] at hj ⊢
    exact hj.symm
  nested a b c d hab hcd hcross := by
    rw [partner?_eq_some_iff h] at hab hcd
    obtain ⟨hac, hcb, hbd⟩ := hcross
    exact (hab.encloses_of_lt (by omega)).not_cross (hcd.encloses_of_lt (by omega))
      ⟨hac, hcb, hbd⟩

/-- The laws leave no choice. -/
theorem IsMatching.partners_iff {w : List Command} {f : Nat → Option Nat} (h : IsMatching w f)
    {i j : Nat} : f i = some j ↔ Partners w i j := by
  have hp (i j : Nat) (hij : f i = some j) : Partners w i j := by
    obtain ⟨c, hc, hb⟩ := (h.isSome_iff i).mp (Option.isSome_iff_exists.mpr ⟨j, hij⟩)
    rcases isBracket_iff.mp hb with rfl | rfl
    · obtain ⟨hlt, hj, hin⟩ := h.opening i j hc hij
      exact .inl ⟨hlt, hc, hj, hin⟩
    · obtain ⟨hlt, hj, hin⟩ := h.closing j i hc hij
      exact .inr ⟨hlt, hj, hc, hin⟩
  refine ⟨hp i j, fun hij => ?_⟩
  have hb : ∃ c, w[i]? = some c ∧ c.isBracket := by
    rcases hij with he | he
    · exact ⟨_, he.opening, rfl⟩
    · exact ⟨_, he.closing, rfl⟩
  obtain ⟨k, hk⟩ := Option.isSome_iff_exists.mp ((h.isSome_iff i).mpr hb)
  rw [hk, (hp i k hk).unique hij]

theorem IsMatching.eq_partner? {w : List Command} {t : Pairing} {f : Nat → Option Nat}
    (h : ofCommands w = .ok t) (hf : IsMatching w f) : f = t.partner? := by
  funext i
  apply Option.ext
  intro j
  rw [hf.partners_iff, partner?_eq_some_iff h]

/-- A table of the right size is known by its partners. -/
theorem eq_of_partner?_eq {t u : Pairing} (hsize : t.partners.size = u.partners.size)
    (h : t.partner? = u.partner?) : t = u := by
  have hp : t.partners = u.partners := by
    apply Array.ext hsize
    intro i ht hu
    have hi := congrFun h i
    simpa [partner?, ht, hu] using hi
  cases t
  cases u
  exact congrArg mk hp

theorem countP_isBracket (w : List Command) :
    w.countP Command.isBracket = w.count .loopStart + w.count .loopEnd := by
  induction w with
  | nil => rfl
  | cons c w ih =>
    rw [List.countP_cons, ih]
    cases c <;> simp [Command.isBracket] <;> omega

theorem count_eq {w : List Command} {t : Pairing} (h : ofCommands w = .ok t) :
    t.count = w.count .loopStart := by
  have hmap : t.partners.toList.map Option.isSome = w.map Command.isBracket := by
    apply List.ext_getElem
    · simp [size_of_ofCommands h]
    · intro i hi hw
      rw [List.length_map] at hi hw
      have hs := (isMatching_partner? h).isSome_iff i
      simp only [partner?, Array.getElem?_eq_getElem hi, Option.join_some,
        List.getElem?_eq_getElem hw, Option.some.injEq, exists_eq_left'] at hs
      rw [List.getElem_map, List.getElem_map]
      exact Bool.eq_iff_iff.mpr hs
  have hcount := congrArg (List.countP id) hmap
  rw [List.countP_map, List.countP_map, Function.id_comp, Function.id_comp,
    countP_isBracket, (balanced_of_ofCommands h).2] at hcount
  rw [count, ← Array.countP_toList, hcount]
  omega

/-- Exactly the programs with balanced brackets are paired, and their pairing is the one proper
matching of their brackets. -/
theorem ofProgram_unique_matching (p : Program) :
    ((∃ t, ofProgram p = .ok t) ↔ Balanced p.commands) ∧
      ∀ t, ofProgram p = .ok t →
        IsMatching p.commands t.partner? ∧
        (∀ i j, t.partner? i = some j → i < j →
          (∀ k, i < k → k ≤ j → height p.commands i < height p.commands k) ∧
            height p.commands (j + 1) = height p.commands i) ∧
        (∀ f, IsMatching p.commands f → f = t.partner?) ∧
        (∀ u : Pairing, u.partners.size = p.size → IsMatching p.commands u.partner? → u = t) ∧
        t.count = p.commands.count .loopStart ∧ t.count = p.commands.count .loopEnd := by
  refine ⟨?_, fun t ht => ?_⟩
  · simp only [ofProgram_eq_ok_iff]
    exact ofCommands_eq_ok_iff
  · rw [ofProgram_eq_ok_iff] at ht
    have hcount := count_eq ht
    have hbal := (balanced_of_ofCommands ht).2
    refine ⟨isMatching_partner? ht, fun i j hij hlt => ?_, fun f hf => hf.eq_partner? ht,
      fun u hu hf => ?_, hcount, by omega⟩
    · have he := ((partner?_eq_some_iff ht).mp hij).encloses_of_lt hlt
      exact (encloses_iff_height.mp he).2.2.2
    · apply eq_of_partner?_eq
      · rw [hu, size_of_ofCommands ht, Program.commands]
        simp [Program.size]
      · exact hf.eq_partner? ht

/-- Two loops side by side, the first one with a loop and a comment within. -/
theorem matching_of_nested_loops :
    ∃ t, ofProgram (Program.parse "[[]é+][.]") = .ok t ∧
      IsMatching (Program.parse "[[]é+][.]").commands t.partner? ∧
      (∀ f, IsMatching (Program.parse "[[]é+][.]").commands f → f = t.partner?) ∧
      t.partner? 0 = some 4 ∧ t.count = 3 := by
  have ht : ofProgram (Program.parse "[[]é+][.]") =
      .ok ⟨#[some 4, some 2, some 1, none, some 0, some 7, none, some 5]⟩ := by decide
  obtain ⟨hm, -, hu, -, hc, -⟩ := (ofProgram_unique_matching _).2 _ ht
  exact ⟨_, ht, hm, hu, rfl, hc.trans (by decide)⟩

end Brainfuck.Pairing

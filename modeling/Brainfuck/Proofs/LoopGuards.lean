import Brainfuck.Proofs.Safety

/-!
# Guards of loops

Whenever a run stands right behind a `[`, the current cell is not zero, and right behind a `]` it
is zero, whichever way the run came there. A step goes to the next command or, from a bracket,
behind its partner. Since pairs do not cross, no step goes into the middle of a loop: a loop is
entered through its `[` and left right behind its `]`.
-/
namespace Brainfuck
open Brackets Pairing

/-- A pair with one bracket within a loop has both of them there. -/
theorem Pairing.Partners.within {w : List Command} {a b c d : Nat} (hp : Partners w c d)
    (h : Encloses w a b) (hac : a < c) (hcb : c < b) : a < d ∧ d < b := by
  rcases hp with hcd | hdc
  · have hlt := hcd.lt
    refine ⟨by omega, ?_⟩
    rcases Nat.lt_trichotomy d b with hd | rfl | hd
    · exact hd
    · exact absurd (h.left_unique hcd) (Nat.ne_of_lt hac)
    · exact absurd ⟨hac, hcb, hd⟩ (h.not_cross hcd)
  · have hlt := hdc.lt
    refine ⟨?_, by omega⟩
    rcases Nat.lt_trichotomy d a with hd | rfl | hd
    · exact absurd ⟨hd, hac, hcb⟩ (hdc.not_cross h)
    · exact absurd (hdc.right_unique h) (Nat.ne_of_lt hcb)
    · exact hd

theorem Brackets.Encloses.command?_opening {p : Program} {a b : Nat}
    (h : Encloses p.commands a b) : p.command? a = some .loopStart := by
  rw [← Program.commands_getElem?]
  exact h.opening

theorem Brackets.Encloses.command?_closing {p : Program} {a b : Nat}
    (h : Encloses p.commands a b) : p.command? b = some .loopEnd := by
  rw [← Program.commands_getElem?]
  exact h.closing

namespace Machine

/-- What the bracket in front of a state says about the current cell: it is not zero right behind a
`[`, and zero right behind a `]`. -/
structure Guarded (program : Program) (s : State) : Prop where
  entered : ∀ k, s.position = k + 1 → program.command? k = some .loopStart → s.tape.current ≠ 0
  left : ∀ k, s.position = k + 1 → program.command? k = some .loopEnd → s.tape.current = 0

variable {m : Machine} {control : Control} {console : Console} {past : List State} {s t : State}
  {program : Program} {a b : Nat}

/-- The partner of a `[` is the `]` of its pair. -/
theorem encloses_of_opening (ha : m.program.command? a = some .loopStart)
    (hp : m.pairing.partner? a = some b) : Encloses m.program.commands a b := by
  rw [← Program.commands_getElem?] at ha
  rcases partner?_iff.mp hp with he | he
  · exact he
  · cases ha.symm.trans he.closing

/-- The partner of a `]` is the `[` of its pair. -/
theorem encloses_of_closing (hb : m.program.command? b = some .loopEnd)
    (hp : m.pairing.partner? b = some a) : Encloses m.program.commands a b := by
  rw [← Program.commands_getElem?] at hb
  rcases partner?_iff.mp hp with he | he
  · cases hb.symm.trans he.opening
  · exact he

/-- A jump that is taken leads behind the partner. -/
theorem step_of_takesJump (hj : m.TakesJump s) (ho : control.objection? s = none) :
    ∃ target, m.pairing.partner? s.position = some target ∧
      m.step control s = .next ⟨s.tape, target + 1, s.steps + 1, s.console⟩ := by
  obtain ⟨target, hp⟩ := Option.isSome_iff_exists.mp (exists_partner_of_takesJump hj)
  refine ⟨target, hp, ?_⟩
  rcases hj with ⟨hc, hzero⟩ | ⟨hc, hnonzero⟩
  · rw [step_eq_perform hc ho, perform_loopStart hp, if_pos hzero]
  · rw [step_eq_perform hc ho, perform_loopEnd hp, if_neg hnonzero]

/-- Without a jump a step leads to the next command. -/
theorem position_of_not_takesJump (hj : ¬m.TakesJump s) (h : m.step control s = .next t) :
    t.position = s.position + 1 := by
  have hv := m.step_view control s
  rw [h] at hv
  cases hv with
  | done _ _ _ _ => rfl
  | opening found _ _ _ =>
    have hnonzero : s.tape.current ≠ 0 := fun hzero => hj (.inl ⟨found, hzero⟩)
    simp [hnonzero]
  | closing found _ _ _ =>
    have hzero : s.tape.current = 0 := not_not.mp fun hnonzero => hj (.inr ⟨found, hnonzero⟩)
    simp [hzero]

theorem position_of_next (h : m.step control s = .next t) :
    t.position = s.position + 1 ∨ m.TakesJump s ∧
      ∃ target, m.pairing.partner? s.position = some target ∧ t.position = target + 1 := by
  by_cases hj : m.TakesJump s
  · obtain ⟨target, hp, hs⟩ := step_of_takesJump hj (objection?_of_next h)
    cases h.symm.trans hs
    exact .inr ⟨hj, target, hp, rfl⟩
  · exact .inl (position_of_not_takesJump hj h)

/-- Only the command right in front of a state matters for the guards. -/
theorem Guarded.of_command {k : Nat} {c : Command} (hpos : s.position = k + 1)
    (hc : program.command? k = some c) (hopen : c = .loopStart → s.tape.current ≠ 0)
    (hclose : c = .loopEnd → s.tape.current = 0) : Guarded program s where
  entered j hj h := by
    obtain rfl : k = j := by omega
    exact hopen (Option.some.inj (hc.symm.trans h))
  left j hj h := by
    obtain rfl : k = j := by omega
    exact hclose (Option.some.inj (hc.symm.trans h))

/-- A step leaves the guards behind it, wherever it comes from. -/
theorem guarded_of_next (h : m.step control s = .next t) : Guarded m.program t := by
  have hv := m.step_view control s
  rw [h] at hv
  cases hv with
  | done found _ plain _ =>
    refine .of_command rfl found ?_ ?_
    · rintro rfl
      exact nomatch plain
    · rintro rfl
      exact nomatch plain
  | opening found _ partner _ =>
    by_cases hz : s.tape.current = 0
    · rw [if_pos hz]
      exact .of_command rfl (encloses_of_opening found partner).command?_closing nofun fun _ => hz
    · rw [if_neg hz]
      exact .of_command rfl found (fun _ => hz) nofun
  | closing found _ partner _ =>
    by_cases hz : s.tape.current = 0
    · rw [if_pos hz]
      exact .of_command rfl found nofun fun _ => hz
    · rw [if_neg hz]
      exact .of_command rfl (encloses_of_closing found partner).command?_opening (fun _ => hz) nofun

/-- The guards are a matter of position and tape. -/
theorem Guarded.of_same_place (h : Guarded program s) (hp : t.position = s.position)
    (ht : t.tape = s.tape) : Guarded program t where
  entered k hk := ht ▸ h.entered k (hp ▸ hk)
  left k hk := ht ▸ h.left k (hp ▸ hk)

theorem Course.guarded (h : m.Course control console past s) : Guarded m.program s := by
  induction h with
  | start h =>
    have hzero := (start_eq_ok h).1
    refine ⟨fun k hk _ => ?_, fun k hk _ => ?_⟩
    · omega
    · omega
  | flag raised _ ih => exact ih.of_same_place rfl rfl
  | step _ hs _ => exact guarded_of_next hs

/-- Within a loop a step stays there or leads right behind its `]`. -/
theorem stays_within (h : m.step control s = .next t) (he : Encloses m.program.commands a b)
    (hlow : a < s.position) (hhigh : s.position ≤ b) : a < t.position ∧ t.position ≤ b + 1 := by
  rcases position_of_next h with hnext | ⟨-, target, hp, hjump⟩
  · omega
  · have hpartners := partner?_iff.mp hp
    rcases Nat.lt_or_eq_of_le hhigh with hlt | rfl
    · have hwithin := hpartners.within he hlow hlt
      omega
    · have hback : target = a := hpartners.unique (.inr he)
      have hlt := he.lt
      omega

/-- From outside of a loop a step leads into it only at its `[`. -/
theorem enters_at_opening (h : m.step control s = .next t) (he : Encloses m.program.commands a b)
    (hout : s.position ≤ a ∨ b < s.position) (hlow : a < t.position) (hhigh : t.position ≤ b) :
    s.position = a := by
  rcases position_of_next h with hnext | ⟨-, target, hp, hjump⟩
  · omega
  · -- The bracket that was jumped to would have its partner outside of the loop.
    have hpartners := (partner?_iff.mp hp).symm
    rcases Nat.eq_or_lt_of_le (show a ≤ target by omega) with rfl | hlt
    · have hback : s.position = b := hpartners.unique (.inl he)
      have hlt := he.lt
      omega
    · have hwithin := hpartners.within he hlt (by omega)
      omega

/-- A run that is within a loop has come through its `[`, with a cell that was not zero. -/
theorem Course.through_opening (h : m.Course control console past s)
    (he : Encloses m.program.commands a b) (hlow : a < s.position) (hhigh : s.position ≤ b) :
    ∃ t ∈ past, t.position = a ∧ t.tape.current ≠ 0 := by
  induction h with
  | start h =>
    have hzero := (start_eq_ok h).1
    omega
  | flag raised _ ih => exact ih hlow hhigh
  | @step past s t _ hs ih =>
    by_cases hin : a < s.position ∧ s.position ≤ b
    · obtain ⟨u, hu, hentry⟩ := ih hin.1 hin.2
      exact ⟨u, List.mem_cons_of_mem s hu, hentry⟩
    · have hat := enters_at_opening hs he (by omega) hlow hhigh
      refine ⟨s, List.mem_cons_self, hat, fun hzero => ?_⟩
      have hopen : m.program.command? s.position = some .loopStart := hat ▸ he.command?_opening
      obtain ⟨target, hp, hjump⟩ :=
        step_of_takesJump (.inl ⟨hopen, hzero⟩) (objection?_of_next hs)
      cases hs.symm.trans hjump
      rw [hat] at hp
      have hbehind : target = b := (partner?_iff.mp hp).unique (.inl he)
      simp only at hhigh
      omega

/-- In every state of a run of a loaded machine, the last one included, the guards of its loops hold.
Every step leads to the next command or behind the partner of a bracket, so that from within a loop
a step leads to no place but right behind it, and from outside it leads into the loop only at its
`[`. -/
theorem loop_guards_hold {source : String} {memory : Nat} {policy : Policy} {m : Machine}
    (hload : load source memory policy = .ok m) (control : Control) (console : Console) :
    (∃ s, m.start console = .ok s) ∧
    (∀ past s, m.Course control console past s →
      Guarded (Program.parse source) s ∧
      (∀ t, m.step control s = .waiting t → Guarded (Program.parse source) t) ∧
      ∀ a b, m.pairing.partner? a = some b → a < b → a < s.position → s.position ≤ b →
        ∃ t ∈ past, t.position = a ∧ t.tape.current ≠ 0) ∧
    (∀ past s result final, m.Ends control console past s result final →
      Guarded (Program.parse source) final) ∧
    (∀ fuel result final, m.run control fuel console = .ended result final →
      ∃ past s, m.Ends control console past s result final) ∧
    ∀ s t, m.step control s = .next t →
      (t.position = s.position + 1 ∨
        ∃ c target, (Program.parse source).command? s.position = some c ∧ c.isBracket ∧
          m.pairing.partner? s.position = some target ∧ t.position = target + 1) ∧
      ∀ a b, m.pairing.partner? a = some b → a < b →
        (a < s.position ∧ s.position ≤ b → a < t.position ∧ t.position ≤ b + 1) ∧
        (s.position ≤ a ∨ b < s.position → a < t.position ∧ t.position ≤ b →
          s.position = a) := by
  obtain ⟨hprog, rfl, -, hmem⟩ := load_eq_ok hload
  rw [← hprog]
  have hpair (a b : Nat) (hp : m.pairing.partner? a = some b) (hlt : a < b) :
      Encloses m.program.commands a b := (partner?_iff.mp hp).encloses_of_lt hlt
  refine ⟨?_, fun past s hc => ⟨hc.guarded, fun t ht => ?_, fun a b hp hlt hlow hhigh => ?_⟩,
    fun past s result final he => ?_, fun _ _ _ => ends_of_run,
    fun s t hs => ⟨?_, fun a b hp hlt => ⟨fun hin => ?_, fun hout hin => ?_⟩⟩⟩
  · obtain ⟨tape, -, hs⟩ := exists_start hmem console
    exact ⟨_, hs⟩
  · obtain ⟨hp, htape⟩ := step_waiting ht
    exact hc.guarded.of_same_place hp htape
  · exact hc.through_opening (hpair a b hp hlt) hlow hhigh
  · obtain ⟨hp, htape⟩ := he.same_place
    exact he.course.guarded.of_same_place hp htape
  · rcases position_of_next hs with hnext | ⟨⟨hc, -⟩ | ⟨hc, -⟩, target, hp, hjump⟩
    · exact .inl hnext
    · exact .inr ⟨_, target, hc, rfl, hp, hjump⟩
    · exact .inr ⟨_, target, hc, rfl, hp, hjump⟩
  · exact stays_within hs (hpair a b hp hlt) hin.1 hin.2
  · exact enters_at_opening hs (hpair a b hp hlt) hout hin.1 hin.2

/-- A loop within a loop, with a limit that stops the run in the inner one. -/
theorem guards_of_nested_loops :
    ∃ m, load "+[>+[-]<-]" 2 .bounded = .ok m ∧
      ∃ past s final,
        m.Ends (.watched (some 5)) (.ofInput [] .closed) past s (some (.stepLimit 5)) final ∧
          Guarded (Program.parse "+[>+[-]<-]") final ∧ final.position = 5 ∧
          ∃ t ∈ past, t.position = 1 ∧ t.tape.current ≠ 0 := by
  let m : Machine :=
    ⟨Program.parse "+[>+[-]<-]",
      ⟨#[none, some 9, none, none, some 6, none, some 4, none, none, some 1]⟩, 2, .bounded, rfl⟩
  have hm : load "+[>+[-]<-]" 2 .bounded = .ok m := rfl
  obtain ⟨-, hcourse, hends, hrun, -⟩ :=
    loop_guards_hold hm (.watched (some 5)) (.ofInput [] .closed)
  obtain ⟨past, s, he⟩ := hrun 6 (some (.stepLimit 5)) _ rfl
  have hs : s.position = 5 := he.same_place.1.symm
  obtain ⟨-, -, hthrough⟩ := hcourse past s he.course
  exact ⟨m, hm, past, s, _, he, hends past s _ _ he, rfl,
    hthrough 1 9 rfl (by decide) (by omega) (by omega)⟩

end Machine
end Brainfuck

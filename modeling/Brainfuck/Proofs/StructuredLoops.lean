import Brainfuck.Proofs.LoopTree
import Brainfuck.Proofs.Stepping

/-!
# Loops in structure

Read as a tree, a program needs no position: a loop means to run its body while the current cell
is not zero. The machine, which has only a position and a table of partners, does the same. It
stops exactly when the structural evaluation comes to an end, and then with the same tape, the
same console and the same fault at the same command.
-/
namespace Brainfuck

structure World where
  tape : Tape
  console : Console

def State.world (s : State) : World := ⟨s.tape, s.console⟩

namespace Block

/-- What the evaluation of a block comes to. A command that is not done is told by its index. -/
inductive Result where
  | done (w : World)
  | failed (index : Nat) (fault : Fault) (w : World)
  | waiting (index : Nat) (w : World)

namespace Result

def isDone : Result → Bool
  | .done _ => true
  | _ => false

/-- Whether the evaluation is at an end, well or with a fault. -/
def halts : Result → Bool
  | .waiting _ _ => false
  | _ => true

end Result

/-- Evaluation of a block whose first command has the given index in the program. -/
inductive Eval : Nat → Block → World → Result → Prop where
  | empty {i w} : Eval i .empty w (.done w)
  | done {i c h rest w tape console r}
      (act : c.act i w.tape w.console = .done tape console)
      (next : Eval (i + 1) rest ⟨tape, console⟩ r) : Eval i (.plain c h rest) w r
  | failed {i c h rest w fault tape console}
      (act : c.act i w.tape w.console = .failed fault tape console) :
      Eval i (.plain c h rest) w (.failed i fault ⟨tape, console⟩)
  | waiting {i c h rest w tape console}
      (act : c.act i w.tape w.console = .waiting tape console) :
      Eval i (.plain c h rest) w (.waiting i ⟨tape, console⟩)
  | exit {i body rest w r} (zero : w.tape.current = 0)
      (next : Eval (i + body.size + 2) rest w r) : Eval i (.loop body rest) w r
  /-- The body is run once, and then the loop again. -/
  | again {i body rest w w' r} (nonzero : w.tape.current ≠ 0)
      (once : Eval (i + 1) body w (.done w')) (next : Eval i (.loop body rest) w' r) :
      Eval i (.loop body rest) w r
  /-- The body does not come to its end. -/
  | stuck {i body rest w r} (nonzero : w.tape.current ≠ 0) (once : Eval (i + 1) body w r)
      (short : r.isDone = false) : Eval i (.loop body rest) w r

end Block

namespace Machine
open Brackets Pairing Block

variable {m : Machine} {s t : State} {i stop : Nat} {b body rest : Block} {r : Result}

/-- A block stands in the program of a machine, from the given index on. -/
def Holds (m : Machine) (i : Nat) (b : Block) : Prop :=
  ∃ before after, m.program.commands = before ++ (b.commands ++ after) ∧ before.length = i

theorem Holds.command? {c : Command} {h : c.isBracket = false}
    (hb : m.Holds i (.plain c h rest)) : m.program.command? i = some c := by
  obtain ⟨before, after, hp, rfl⟩ := hb
  rw [← Program.commands_getElem?, hp]
  simp [commands]

theorem Holds.rest_of_plain {c : Command} {h : c.isBracket = false}
    (hb : m.Holds i (.plain c h rest)) : m.Holds (i + 1) rest := by
  obtain ⟨before, after, hp, rfl⟩ := hb
  exact ⟨before ++ [c], after, by simpa [commands] using hp, by simp⟩

theorem Holds.inside (hb : m.Holds i (.loop body rest)) : m.Holds (i + 1) body := by
  obtain ⟨before, after, hp, rfl⟩ := hb
  exact ⟨before ++ [.loopStart], .loopEnd :: (rest.commands ++ after),
    by simpa [commands] using hp, by simp⟩

theorem Holds.rest_of_loop (hb : m.Holds i (.loop body rest)) :
    m.Holds (i + body.size + 2) rest := by
  obtain ⟨before, after, hp, rfl⟩ := hb
  refine ⟨before ++ .loopStart :: (body.commands ++ [.loopEnd]), after,
    by simpa [commands] using hp, ?_⟩
  simp
  omega

theorem Holds.encloses (hb : m.Holds i (.loop body rest)) :
    Encloses m.program.commands i (i + body.size + 1) := by
  obtain ⟨before, after, hp, rfl⟩ := hb
  have he : Encloses
      (before ++ .loopStart :: (body.commands ++ .loopEnd :: (rest.commands ++ after)))
      before.length (before.length + body.commands.length + 1) :=
    encloses_of_append body.balanced_commands
  rw [length_commands] at he
  simpa [commands, hp] using he

theorem step_loopStart (hb : m.Holds i (.loop body rest)) (hs : s.position = i) :
    m.step .free s = .next ⟨s.tape,
      (if s.tape.current = 0 then i + body.size + 1 else i) + 1, s.steps + 1, s.console⟩ := by
  subst hs
  have he := hb.encloses
  rw [step_eq_perform ((Program.commands_getElem? _ _).symm.trans he.opening) rfl]
  exact perform_loopStart (partner?_iff.mpr (.inl he))

theorem step_loopEnd (hb : m.Holds i (.loop body rest)) (hs : s.position = i + body.size + 1) :
    m.step .free s = .next ⟨s.tape,
      (if s.tape.current = 0 then i + body.size + 1 else i) + 1, s.steps + 1, s.console⟩ := by
  have he := hb.encloses
  rw [← hs] at he ⊢
  rw [step_eq_perform ((Program.commands_getElem? _ _).symm.trans he.closing) rfl]
  exact perform_loopEnd (partner?_iff.mpr (.inr he))

theorem step_plain {c : Command} {h : c.isBracket = false} (hb : m.Holds i (.plain c h rest))
    (hs : s.position = i) :
    m.step .free s = afterEffect i s.steps (c.act i s.tape s.console) := by
  subst hs
  rw [step_eq_perform hb.command? rfl, perform_plain h]

/-- From a state the machine comes to a result: to the index behind a block, or to a stop. -/
def Realizes (m : Machine) (s : State) (stop : Nat) : Result → Prop
  | .done w => ∃ n t, m.Leads .free n s t ∧ t.position = stop ∧ t.world = w
  | .failed i fault w => ∃ n t u, m.Leads .free n s t ∧
      m.step .free t = .failed fault u ∧ u.position = i ∧ u.world = w
  | .waiting i w => ∃ n t u, m.Leads .free n s t ∧
      m.step .free t = .waiting u ∧ u.position = i ∧ u.world = w

theorem Realizes.of_leads {n : Nat} (h : m.Leads .free n s t) (hr : m.Realizes t stop r) :
    m.Realizes s stop r := by
  cases r with
  | done w =>
    obtain ⟨k, u, hk, hu⟩ := hr
    exact ⟨n + k, u, h.trans hk, hu⟩
  | failed j fault w =>
    obtain ⟨k, u, v, hk, hv⟩ := hr
    exact ⟨n + k, u, v, h.trans hk, hv⟩
  | waiting j w =>
    obtain ⟨k, u, v, hk, hv⟩ := hr
    exact ⟨n + k, u, v, h.trans hk, hv⟩

theorem Realizes.of_next (h : m.step .free s = .next t) (hr : m.Realizes t stop r) :
    m.Realizes s stop r :=
  hr.of_leads (.cons h (.refl t))

/-- A result that is not there yet is reached from the next state. -/
theorem Realizes.after_next (h : m.step .free s = .next t) (hne : s.position ≠ stop)
    (hr : m.Realizes s stop r) : m.Realizes t stop r := by
  cases r with
  | done w =>
    obtain ⟨k, u, hk, hu, hw⟩ := hr
    cases hk with
    | refl => exact absurd hu hne
    | cons hs tail =>
      cases h.symm.trans hs
      exact ⟨_, u, tail, hu, hw⟩
  | failed j fault w =>
    obtain ⟨k, u, v, hk, hv, hw⟩ := hr
    cases hk with
    | refl => cases h.symm.trans hv
    | cons hs tail =>
      cases h.symm.trans hs
      exact ⟨_, u, v, tail, hv, hw⟩
  | waiting j w =>
    obtain ⟨k, u, v, hk, hv, hw⟩ := hr
    cases hk with
    | refl => cases h.symm.trans hv
    | cons hs tail =>
      cases h.symm.trans hs
      exact ⟨_, u, v, tail, hv, hw⟩

theorem Realizes.of_not_done {stop' : Nat} (h : r.isDone = false)
    (hr : m.Realizes s stop r) : m.Realizes s stop' r := by
  cases r with
  | done w => exact nomatch h
  | failed j fault w => exact hr
  | waiting j w => exact hr

/-- At the `]` of a loop the machine goes on as it does at the `[`. -/
theorem Realizes.of_loopEnd (hb : m.Holds i (.loop body rest))
    (hs : s.position = i + body.size + 1) (hstop : i ≠ stop)
    (hr : m.Realizes { s with position := i } stop r) : m.Realizes s stop r :=
  .of_next (step_loopEnd hb hs)
    (hr.after_next (step_loopStart (s := { s with position := i }) hb rfl) hstop)

/-- Whatever the structural evaluation comes to, the machine comes to. -/
theorem realizes_of_eval {w : World} (h : Eval i b w r) (hb : m.Holds i b)
    (hs : s.position = i) (hw : s.world = w) : m.Realizes s (i + b.size) r := by
  induction h generalizing s with
  | empty => exact ⟨0, s, .refl s, hs, hw⟩
  | @done i c hc rest w tape console r act _ ih =>
    subst hw
    have hstep := step_plain hb hs
    rw [show c.act i s.tape s.console = _ from act] at hstep
    have := ih (s := ⟨tape, i + 1, s.steps + 1, console⟩) hb.rest_of_plain rfl rfl
    rw [Block.size, ← Nat.add_assoc, Nat.add_right_comm]
    exact .of_next hstep this
  | @failed i c hc rest w fault tape console act =>
    subst hw
    have hstep := step_plain hb hs
    rw [show c.act i s.tape s.console = _ from act] at hstep
    exact ⟨0, s, _, .refl s, hstep, rfl, rfl⟩
  | @waiting i c hc rest w tape console act =>
    subst hw
    have hstep := step_plain hb hs
    rw [show c.act i s.tape s.console = _ from act] at hstep
    exact ⟨0, s, _, .refl s, hstep, rfl, rfl⟩
  | @exit i body rest w r zero _ ih =>
    subst hw
    have hstep := step_loopStart hb hs
    rw [if_pos (show s.tape.current = 0 from zero)] at hstep
    have := ih (s := ⟨s.tape, i + body.size + 2, s.steps + 1, s.console⟩) hb.rest_of_loop rfl rfl
    rw [show i + (Block.loop body rest).size = i + body.size + 2 + rest.size by
      simp only [Block.size]; omega]
    exact .of_next hstep this
  | @again i body rest w w' r nonzero _ _ ihb ihl =>
    subst hw
    have hstep := step_loopStart hb hs
    rw [if_neg (show s.tape.current ≠ 0 from nonzero)] at hstep
    obtain ⟨n, t, hlead, hpos, hworld⟩ :=
      ihb (s := ⟨s.tape, i + 1, s.steps + 1, s.console⟩) hb.inside rfl rfl
    -- The machine is at the `]` now, the evaluation at the `[` again.
    have hloop := ihl (s := { t with position := i }) hb rfl hworld
    have hend := hloop.of_loopEnd hb (by omega) (by simp only [Block.size]; omega)
    exact .of_next hstep (hend.of_leads hlead)
  | @stuck i body rest w r nonzero _ short ihb =>
    subst hw
    have hstep := step_loopStart hb hs
    rw [if_neg (show s.tape.current ≠ 0 from nonzero)] at hstep
    have hbody := ihb (s := ⟨s.tape, i + 1, s.steps + 1, s.console⟩) hb.inside rfl rfl
    exact .of_next hstep (hbody.of_not_done short)

theorem execute_of_loopEnd (hb : m.Holds i (.loop body rest))
    (hs : s.position = i + body.size + 1) (n : Nat) :
    m.execute .free (n + 1) { s with position := i } = m.execute .free (n + 1) s := by
  rw [execute_succ_of_next (step_loopStart (s := { s with position := i }) hb rfl),
    execute_succ_of_next (step_loopEnd hb hs)]

/-- A machine that stops does so in the middle of a structural evaluation. -/
theorem exists_eval {n : Nat} (hb : m.Holds s.position b)
    (h : (m.execute .free n s).isSettled = true) : ∃ r, Eval s.position b s.world r := by
  -- Every step of the machine leaves less fuel, also for a loop that is run again.
  induction n using Nat.strong_induction_on generalizing s b with
  | h n ih =>
    cases n with
    | zero => exact nomatch h
    | succ n =>
      cases b with
      | empty => exact ⟨_, .empty⟩
      | plain c hc rest =>
        have hstep := step_plain hb rfl
        cases ha : c.act s.position s.tape s.console with
        | done tape console =>
          rw [ha] at hstep
          rw [execute_succ_of_next hstep] at h
          obtain ⟨r, hr⟩ := ih n (Nat.lt_succ_self n) hb.rest_of_plain h
          exact ⟨r, .done ha hr⟩
        | failed fault tape console => exact ⟨_, .failed ha⟩
        | waiting tape console => exact ⟨_, .waiting ha⟩
      | loop body rest =>
        have hstep := step_loopStart hb rfl
        by_cases hz : s.tape.current = 0
        · rw [if_pos hz] at hstep
          rw [execute_succ_of_next hstep] at h
          obtain ⟨r, hr⟩ := ih n (Nat.lt_succ_self n) hb.rest_of_loop h
          exact ⟨r, .exit hz hr⟩
        · rw [if_neg hz] at hstep
          rw [execute_succ_of_next hstep] at h
          obtain ⟨r, hr⟩ := ih n (Nat.lt_succ_self n) hb.inside h
          cases hd : r.isDone with
          | false => exact ⟨r, .stuck hz hr hd⟩
          | true =>
            cases r with
            | done w =>
              obtain ⟨k, t, hlead, hpos, rfl⟩ := realizes_of_eval hr hb.inside rfl rfl
              change t.position = s.position + 1 + body.size at hpos
              obtain ⟨hlt, hset⟩ := hlead.settled_sub h
              obtain ⟨d, hd⟩ : ∃ d, n - k = d + 1 := ⟨n - k - 1, by omega⟩
              rw [hd, ← execute_of_loopEnd hb (by omega)] at hset
              obtain ⟨r, hr'⟩ := ih (d + 1) (by omega) (s := { t with position := s.position })
                hb hset
              exact ⟨r, .again hz hr hr'⟩
            | failed j fault w => exact nomatch hd
            | waiting j w => exact nomatch hd

/-- What the commands of a run came to, if they stopped. -/
def Stop.result? : Stop → Option Result
  | .ended none s => some (.done s.world)
  | .ended (some fault) s => some (.failed s.position fault s.world)
  | .waiting s => some (.waiting s.position s.world)
  | .running _ => none

theorem Stop.halts_iff {x : Stop} (h : x.result? = some r) :
    r.halts ↔ ∃ fault s, x = .ended fault s := by
  cases x with
  | running s => exact nomatch h
  | ended fault s => cases fault <;> cases h <;> exact ⟨fun _ => ⟨_, _, rfl⟩, fun _ => rfl⟩
  | waiting s => cases h; simp [Result.halts]

theorem Stop.isSettled_of_result? {x : Stop} (h : x.result? = some r) : x.isSettled = true := by
  cases x with
  | running s => exact nomatch h
  | ended fault s => rfl
  | waiting s => rfl

/-- The result of a machine that came to the end of its program or to a stop. -/
theorem Realizes.execute (h : m.Realizes s m.program.size r) :
    ∃ n, (m.execute .free n s).result? = some r ∧
      ∀ t, m.execute .free n s = .ended none t → t.position = m.program.size := by
  cases r with
  | done w =>
    obtain ⟨n, t, hlead, hpos, rfl⟩ := h
    have hstep : m.step .free t = .halted t :=
      step_of_end (Program.command?_eq_none_iff.mpr (Nat.le_of_eq hpos.symm))
    have hrun : m.execute .free (n + 1) s = .ended none t := by
      rw [hlead.execute_add, Machine.execute, hstep]
    refine ⟨n + 1, by rw [hrun]; rfl, fun u hu => ?_⟩
    cases hrun.symm.trans hu
    exact hpos
  | failed i fault w =>
    obtain ⟨n, t, u, hlead, hstep, rfl, rfl⟩ := h
    have hrun : m.execute .free (n + 1) s = .ended (some fault) u := by
      rw [hlead.execute_add, Machine.execute, hstep]
    refine ⟨n + 1, by rw [hrun]; rfl, fun v hv => ?_⟩
    cases hrun.symm.trans hv
  | waiting i w =>
    obtain ⟨n, t, u, hlead, hstep, rfl, rfl⟩ := h
    have hrun : m.execute .free (n + 1) s = .waiting u := by
      rw [hlead.execute_add, Machine.execute, hstep]
    refine ⟨n + 1, by rw [hrun]; rfl, fun v hv => ?_⟩
    cases hrun.symm.trans hv

theorem exists_tree (m : Machine) :
    ∃ tree, ofCommands? m.program.commands = some tree ∧ m.Holds 0 tree ∧
      tree.size = m.program.size := by
  obtain ⟨tree, ht⟩ :=
    exists_ofCommands?_iff.mpr (balanced_of_ofCommands m.ofCommands_program)
  have hc := ofCommands?_eq_some_iff.mp ht
  refine ⟨tree, ht, ⟨[], [], by simp [hc], rfl⟩, ?_⟩
  rw [← length_commands, hc, Program.length_commands]

/-- A run has one result, whatever its fuel. -/
theorem result?_unique {n k : Nat} {r' : Result}
    (h : (m.execute .free n s).result? = some r) (h' : (m.execute .free k s).result? = some r') :
    r = r' := by
  rw [execute_eq_of_settled (Stop.isSettled_of_result? h) (Stop.isSettled_of_result? h')] at h
  exact Option.some.inj (h.symm.trans h')

/-- From the beginning of a block at the end of the program, the machine and the structural
evaluation come to the same results. -/
theorem eval_iff_result? (hb : m.Holds s.position b)
    (hend : s.position + b.size = m.program.size) :
    Eval s.position b s.world r ↔ ∃ fuel, (m.execute .free fuel s).result? = some r := by
  have hrun (r : Result) (hr : Eval s.position b s.world r) :
      ∃ fuel, (m.execute .free fuel s).result? = some r := by
    obtain ⟨n, hn, -⟩ := (hend ▸ realizes_of_eval hr hb rfl rfl).execute
    exact ⟨n, hn⟩
  refine ⟨hrun r, ?_⟩
  rintro ⟨n, hn⟩
  obtain ⟨r', hr'⟩ := exists_eval hb (Stop.isSettled_of_result? hn)
  obtain ⟨k, hk⟩ := hrun r' hr'
  rw [result?_unique hn hk]
  exact hr'

/-- A machine that ends well is behind its last command. -/
theorem position_of_ended (hb : m.Holds s.position b)
    (hend : s.position + b.size = m.program.size) {n : Nat}
    (h : m.execute .free n s = .ended none t) : t.position = m.program.size := by
  have hr : (m.execute .free n s).result? = some (.done t.world) := by
    rw [h]
    rfl
  have heval := (eval_iff_result? hb hend).mpr ⟨n, hr⟩
  obtain ⟨k, hk, hpos⟩ := (hend ▸ realizes_of_eval heval hb rfl rfl).execute
  rw [execute_eq_of_settled (Stop.isSettled_of_result? hr) (Stop.isSettled_of_result? hk)] at h
  exact hpos t h

/-- The machine and the structural evaluation of its tree halt alike, with the same tape, the
same console and the same fault at the same command. -/
theorem execute_agrees_with_structure {source : String} {memory : Nat} {policy : Policy}
    {m : Machine} (hload : load source memory policy = .ok m) (console : Console) :
    ∃ tree start, ofCommands? m.program.commands = some tree ∧ m.start console = .ok start ∧
      (∀ r, tree.Eval 0 start.world r ↔ ∃ fuel, (m.execute .free fuel start).result? = some r) ∧
      ((∃ fuel fault s, m.execute .free fuel start = .ended fault s) ↔
        ∃ r, tree.Eval 0 start.world r ∧ r.halts) ∧
      ∀ fuel s, m.execute .free fuel start = .ended none s → s.position = m.program.size := by
  obtain ⟨-, rfl, -, hmem⟩ := load_eq_ok hload
  obtain ⟨tree, htree, hholds, hsize⟩ := m.exists_tree
  obtain ⟨tape, -, hstart⟩ := exists_start hmem console
  have hend : 0 + tree.size = m.program.size := by omega
  have hiff (r : Result) : tree.Eval 0 ⟨tape, console⟩ r ↔
      ∃ fuel, (m.execute .free fuel ⟨tape, 0, 0, console⟩).result? = some r :=
    eval_iff_result? (s := ⟨tape, 0, 0, console⟩) hholds hend
  refine ⟨tree, ⟨tape, 0, 0, console⟩, htree, hstart, hiff, ⟨?_, ?_⟩,
    fun n s => position_of_ended (s := ⟨tape, 0, 0, console⟩) hholds hend⟩
  · rintro ⟨n, fault, s, hs⟩
    obtain ⟨r, hr⟩ : ∃ r, (Stop.ended fault s).result? = some r := by
      cases fault <;> exact ⟨_, rfl⟩
    exact ⟨r, (hiff r).mpr ⟨n, hs ▸ hr⟩, (Stop.halts_iff hr).mpr ⟨fault, s, rfl⟩⟩
  · rintro ⟨r, hr, hhalt⟩
    obtain ⟨n, hn⟩ := (hiff r).mp hr
    obtain ⟨fault, s, hs⟩ := (Stop.halts_iff hn).mp hhalt
    exact ⟨n, fault, s, hs⟩

/-- A loop within a loop, and a move off the tape behind both of them. -/
theorem structure_of_nested_loops :
    ∃ m, load "+[>+[-]<-]é<" 2 .bounded = .ok m ∧
      ∃ tree start, ofCommands? m.program.commands = some tree ∧
        m.start (.ofInput [] .closed) = .ok start ∧
        ∃ w, tree.Eval 0 start.world (.failed 10 (.underflow 10) w) := by
  let m : Machine :=
    ⟨Program.parse "+[>+[-]<-]é<",
      ⟨#[none, some 9, none, none, some 6, none, some 4, none, none, some 1, none]⟩, 2, .bounded,
      rfl⟩
  have hm : load "+[>+[-]<-]é<" 2 .bounded = .ok m := rfl
  obtain ⟨tree, start, htree, hstart, hiff, -, -⟩ :=
    execute_agrees_with_structure hm (.ofInput [] .closed)
  refine ⟨m, hm, tree, start, htree, hstart, ?_⟩
  cases hstart
  exact ⟨_, (hiff _).mpr ⟨15, rfl⟩⟩

end Machine
end Brainfuck

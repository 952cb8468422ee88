import Brainfuck.Proofs.WrittenSettings
import Mathlib.Data.List.TakeWhile

/-!
# Remarks behind the lines of settings

A number sign makes a comment of the line that it begins, and it means nothing anywhere else. A
remark behind a line is therefore a part of the line: a header with a remark is no header any more,
or one of a section that does not count, and a value with a remark can no longer be read. Here it is
said exactly when the settings are the same in spite of a remark, whatever lines follow.

What a line does for the lines behind it is to say whether they count, and to add an assignment.
Two lines can take each other's place if they do the same in both respects, and only then.
-/
namespace Brainfuck
namespace Text

variable {text : List Char} {c : Char}

theorem stacked_linesFrom (done : List (List Char)) {current : List Char} (hcurrent : '\n' ∉ current)
    (text : List Char) :
    ∃ rest : List (List Char), linesFrom done current text = done.reverse ++ rest ∧
      Stacked rest (current.reverse ++ text) ∧ ∀ line ∈ rest, '\n' ∉ line := by
  induction text generalizing done current with
  | nil =>
    cases current with
    | nil => exact ⟨[], by simp [linesFrom], .nil, List.forall_mem_nil _⟩
    | cons c current =>
      refine ⟨[(c :: current).reverse], by simp [linesFrom], ?_, ?_⟩
      · rw [List.append_nil]
        exact .last _
      · rw [List.forall_mem_singleton, List.mem_reverse]
        exact hcurrent
  | cons c text ih =>
    by_cases hc : c = '\n'
    · subst hc
      obtain ⟨rest, heq, hstacked, hrest⟩ := ih (closeLine current :: done) (List.not_mem_nil)
      refine ⟨closeLine current :: rest, ?_, ?_, ?_⟩
      · rw [linesFrom, heq]
        simp
      · unfold closeLine
        split
        · rw [List.reverse_cons, List.append_assoc]
          exact .returnFeed _ hstacked
        · exact .feed _ hstacked
      · refine List.forall_mem_cons.mpr ⟨?_, hrest⟩
        unfold closeLine
        split
        · simpa using hcurrent
        · simpa using hcurrent
    · have hcons : '\n' ∉ c :: current := by
        simpa [Ne.symm hc] using hcurrent
      obtain ⟨rest, heq, hstacked, hrest⟩ := ih done hcons
      refine ⟨rest, ?_, by simpa using hstacked, hrest⟩
      rw [linesFrom, heq]
      exact hc

/-- Every text is made of its lines. -/
theorem stacked_lines (text : List Char) :
    Stacked (lines text) text ∧ ∀ line ∈ lines text, '\n' ∉ line := by
  obtain ⟨rest, heq, hstacked, hrest⟩ := stacked_linesFrom [] List.not_mem_nil text
  rw [lines, heq]
  exact ⟨hstacked, hrest⟩

/-- Trimming takes away blanks on both sides. -/
theorem exists_padding (text : List Char) :
    ∃ before after, (∀ a ∈ before, isBlank a) ∧ (∀ a ∈ after, isBlank a) ∧
      text = before ++ (trim text ++ after) := by
  refine ⟨text.takeWhile isBlank, ((trimLeft text).reverse.takeWhile isBlank).reverse,
    fun a ha => List.mem_takeWhile_imp ha,
    fun a ha => List.mem_takeWhile_imp (List.mem_reverse.mp ha), ?_⟩
  rw [trim, trimRight, ← List.reverse_append, List.takeWhile_append_dropWhile, List.reverse_reverse,
    trimLeft, List.takeWhile_append_dropWhile]

/-- What is not blank is not trimmed. -/
theorem mem_trim (h : c ∈ text) (hc : isBlank c = false) : c ∈ trim text := by
  obtain ⟨before, after, hbefore, hafter, heq⟩ := exists_padding text
  have hnot {part : List Char} (hpart : ∀ a ∈ part, isBlank a) : c ∉ part := fun hmem =>
    Bool.false_ne_true (hc.symm.trans (hpart c hmem))
  rw [heq] at h
  simpa [hnot hbefore, hnot hafter] using h

theorem exists_trim_cons (h : trim text ≠ []) :
    ∃ c rest, trim text = c :: rest ∧ isBlank c = false := by
  cases hleft : trimLeft text with
  | nil =>
    rw [trim, hleft] at h
    exact absurd rfl h
  | cons c rest =>
    have hc : isBlank c = false := by
      have hhead := List.head?_dropWhile_not isBlank text
      rw [trimLeft] at hleft
      rw [hleft] at hhead
      simpa using hhead
    refine ⟨c, trimRight rest, ?_, hc⟩
    rw [trim, hleft]
    exact trimRight_append_cons hc [] rest

/-- A line with something behind it that is not blank keeps all that it has. -/
theorem trim_append_cons (h : trim text ≠ []) (hc : isBlank c = false) {blanks : List Char}
    (hblanks : ∀ a ∈ blanks, isBlank a) (rest : List Char) :
    ∃ gap, (∀ a ∈ gap, isBlank a) ∧
      trim (text ++ (blanks ++ c :: rest)) = trim text ++ (gap ++ c :: trimRight rest) := by
  obtain ⟨before, after, hbefore, hafter, heq⟩ := exists_padding text
  obtain ⟨a, word, hword, ha⟩ := exists_trim_cons h
  refine ⟨after ++ blanks, fun a ha => ?_, ?_⟩
  · rcases List.mem_append.mp ha with ha | ha
    · exact hafter a ha
    · exact hblanks a ha
  · have hwhole : text ++ (blanks ++ c :: rest) =
        before ++ (a :: (word ++ (after ++ blanks) ++ c :: rest)) := by
      conv_lhs => rw [heq, hword]
      simp
    rw [hwhole, trim_blank_append hbefore, trim_cons ha, trimRight_append_cons hc, hword]
    simp

end Text

namespace Settings
open Text

/-- What a key is set to after some assignments. -/
def setting (found : List Assignment) (k : Key) : Option k.Kind :=
  (lastValue? found k.name.toList).bind k.read?

/-- All keys are set to the same. -/
def SameSettings (found found' : List Assignment) : Prop :=
  ∀ k : Key, setting found k = setting found' k

section State

variable {inside : Bool} {found found' : List Assignment} {a : Assignment}

theorem setting_cons (a : Assignment) (found : List Assignment) (k : Key) :
    setting (a :: found) k =
      if a.key = k.name.toList then k.read? a.value else setting found k := by
  rw [setting, lastValue?_cons]
  split
  · rw [Option.bind_some]
  · rfl

theorem get_parse_eq_setting (content : String) (k : Key) :
    k.get (parse content).1 = setting (assignments content.toList) k := by
  rw [get_parse, setting]
  cases h : lastValue? (assignments content.toList) k.name.toList with
  | none => rw [field, h, Option.bind_none]
  | some raw => rw [field_fst_of_last h, Option.bind_some]

theorem SameSettings.cons (h : SameSettings found found') (a : Assignment) :
    SameSettings (a :: found) (a :: found') := by
  intro k
  rw [setting_cons, setting_cons, h k]

theorem SameSettings.append (h : SameSettings found found') (more : List Assignment) :
    SameSettings (more ++ found) (more ++ found') := by
  induction more with
  | nil => exact h
  | cons a more ih => exact ih.cons a

/-- What is found later stands in front of what was found before. -/
theorem assignmentsFrom_eq_append (inside : Bool) (found : List Assignment)
    (lines : List (List Char)) :
    assignmentsFrom inside found lines = assignmentsFrom inside [] lines ++ found := by
  induction lines generalizing inside found with
  | nil => rfl
  | cons line lines ih =>
    rw [assignmentsFrom_cons, assignmentsFrom_cons, ih, ih _ ((made? inside line).toList ++ []),
      List.append_nil, List.append_assoc]

theorem SameSettings.assignmentsFrom (h : SameSettings found found') (inside : Bool)
    (lines : List (List Char)) :
    SameSettings (assignmentsFrom inside found lines) (assignmentsFrom inside found' lines) := by
  rw [assignmentsFrom_eq_append, assignmentsFrom_eq_append inside found']
  exact h.append _

/-- Whether lines behind some lines count. -/
def insideBehind (lines : List (List Char)) : Bool := lines.foldl insideAfter false

theorem insideBehind_eq_true_iff (lines : List (List Char)) :
    insideBehind lines ↔ ActiveAt lines lines.length := by
  induction lines using List.reverseRecOn with
  | nil => simp [insideBehind, ActiveAt]
  | append_singleton lines line ih =>
    rw [List.length_append, List.length_singleton, activeAt_concat_succ, ← ih,
      ← insideAfter_eq_true_iff, insideBehind, List.foldl_append]
    rfl

theorem assignmentsFrom_append (inside : Bool) (found : List Assignment)
    (front lines : List (List Char)) :
    assignmentsFrom inside found (front ++ lines) =
      assignmentsFrom (front.foldl insideAfter inside) (assignmentsFrom inside found front)
        lines := by
  induction front generalizing inside found with
  | nil => rfl
  | cons line front ih =>
    rw [List.cons_append, assignmentsFrom_cons, ih, assignmentsFrom_cons, List.foldl_cons]

theorem setting_entry (e : Entry) (hrange : e.key.InRange e.value) :
    setting (e.assignment :: found) e.key = some e.value := by
  have hkey : e.assignment.key = e.key.name.toList := rfl
  rw [setting_cons, if_pos hkey]
  exact Key.read?_eq_some_iff.mpr (Key.says_of_writes e.writes hrange)

/-- There is a line that is read inside and not outside, whatever was found before. -/
theorem exists_separating_line (found found' : List Assignment) :
    ∃ line, '\n' ∉ line ∧ ¬SameSettings (assignmentsFrom true found [trim line])
      (assignmentsFrom false found' [trim line]) := by
  obtain ⟨n, hrange, hne⟩ :
      ∃ n : Nat, Key.InRange .memory n ∧ setting found' .memory ≠ some n := by
    by_cases h : setting found' .memory = some (1 : Nat)
    · refine ⟨2, by decide, fun htwo => ?_⟩
      cases h.symm.trans htwo
    · exact ⟨1, by decide, h⟩
  have hin : setting (assignmentsFrom true found [trim (Entry.plain .memory n).line]) .memory =
      some n := by
    rw [assignmentsFrom_entry]
    exact setting_entry (.plain .memory n) hrange
  have hout : assignmentsFrom false found' ([trim (Entry.plain .memory n).line] ++ []) = found' :=
    assignmentsFrom_outside (List.forall_mem_singleton.mpr (Entry.assigns _).2.2.1)
  refine ⟨(Entry.plain .memory n).line, Entry.feed_not_mem _, fun hsame => hne ?_⟩
  rw [← hin, hsame .memory, ← List.append_nil [trim _], hout]

end State

/-- A line can take the place of another one: texts that have the one or the other say the same,
whatever lines follow. -/
def Exchangeable (before : List (List Char)) (line line' : List Char) : Prop :=
  ∀ (after : List (List Char)) (content content' : String), (∀ below ∈ after, '\n' ∉ below) →
    Stacked (before ++ line :: after) content.toList →
    Stacked (before ++ line' :: after) content'.toList → (parse content').1 = (parse content).1

section Exchange

variable {before : List (List Char)} {line line' : List Char}

/-- What is found up to a line and in it. -/
def foundWith (before : List (List Char)) (line : List Char) : List Assignment :=
  (made? (insideBehind (before.map trim)) (trim line)).toList ++
    assignmentsFrom false [] (before.map trim)

theorem get_parse_of_stacked {after : List (List Char)} {content : String}
    (hbefore : ∀ above ∈ before, '\n' ∉ above) (hline : '\n' ∉ line)
    (hafter : ∀ below ∈ after, '\n' ∉ below)
    (h : Stacked (before ++ line :: after) content.toList) (k : Key) :
    k.get (parse content).1 =
      setting (assignmentsFrom (insideAfter (insideBehind (before.map trim)) (trim line))
        (foundWith before line) (after.map trim)) k := by
  have hlines : ∀ l ∈ before ++ line :: after, '\n' ∉ l := by
    intro l hl
    rcases List.mem_append.mp hl with hl | hl
    · exact hbefore l hl
    · rcases List.mem_cons.mp hl with rfl | hl
      · exact hline
      · exact hafter l hl
  rw [get_parse_eq_setting, assignments_of_stacked h hlines, List.map_append,
    assignmentsFrom_append, List.map_cons, assignmentsFrom_cons]
  rfl

/-- Lines are exchangeable if and only if they have the same consequences: for the lines behind them
and for the settings so far. -/
theorem exchangeable_iff (hbefore : ∀ above ∈ before, '\n' ∉ above) (hline : '\n' ∉ line)
    (hline' : '\n' ∉ line') :
    Exchangeable before line line' ↔
      insideAfter (insideBehind (before.map trim)) (trim line) =
          insideAfter (insideBehind (before.map trim)) (trim line') ∧
        SameSettings (foundWith before line) (foundWith before line') := by
  constructor
  · intro h
    have hsame (after : List (List Char)) (hafter : ∀ below ∈ after, '\n' ∉ below) :
        SameSettings
          (assignmentsFrom (insideAfter (insideBehind (before.map trim)) (trim line))
            (foundWith before line) (after.map trim))
          (assignmentsFrom (insideAfter (insideBehind (before.map trim)) (trim line'))
            (foundWith before line') (after.map trim)) := by
      obtain ⟨content, hcontent⟩ := exists_stacked (before ++ line :: after)
      obtain ⟨content', hcontent'⟩ := exists_stacked (before ++ line' :: after)
      intro k
      rw [← get_parse_of_stacked hbefore hline hafter hcontent,
        ← get_parse_of_stacked hbefore hline' hafter hcontent',
        h after content content' hafter hcontent hcontent']
    refine ⟨?_, hsame [] (List.forall_mem_nil _)⟩
    cases hx : insideAfter (insideBehind (before.map trim)) (trim line) <;>
      cases hy : insideAfter (insideBehind (before.map trim)) (trim line')
    · rfl
    · obtain ⟨below, hbelow, hne⟩ :=
        exists_separating_line (foundWith before line') (foundWith before line)
      have hlast := hsame [below] (List.forall_mem_singleton.mpr hbelow)
      rw [hx, hy] at hlast
      exact absurd (fun k => (hlast k).symm) hne
    · obtain ⟨below, hbelow, hne⟩ :=
        exists_separating_line (foundWith before line) (foundWith before line')
      have hlast := hsame [below] (List.forall_mem_singleton.mpr hbelow)
      rw [hx, hy] at hlast
      exact absurd hlast hne
    · rfl
  · rintro ⟨hinside, hfound⟩ after content content' hafter hcontent hcontent'
    refine eq_of_get fun k => ?_
    rw [get_parse_of_stacked hbefore hline hafter hcontent,
      get_parse_of_stacked hbefore hline' hafter hcontent', hinside]
    exact (hfound.assignmentsFrom _ _ k).symm

end Exchange

/-- What can be appended to a line as a comment: blanks, a number sign and any text. -/
structure Remark where
  blanks : List Char
  blank : ∀ c ∈ blanks, isBlank c
  text : List Char
  oneLine : '\n' ∉ blanks ++ text

namespace Remark

variable (r : Remark)

def shown : List Char := r.blanks ++ '#' :: r.text

/-- The last character of the remark, apart from blanks, is a closing bracket. -/
def Closes : Prop := (trimRight r.text).getLast? = some ']'

theorem feed_not_mem : '\n' ∉ r.shown := by
  have hone := r.oneLine
  simp only [List.mem_append, not_or] at hone
  simp [shown, hone.1, hone.2]

theorem feed_not_mem_append {line : List Char} (h : '\n' ∉ line) : '\n' ∉ line ++ r.shown := by
  simp [h, r.feed_not_mem]

variable {r} {line : List Char}

/-- A line with a remark, when it is trimmed. -/
theorem trim_append (hline : trim line ≠ []) (r : Remark) :
    ∃ gap, trim (line ++ r.shown) = trim line ++ (gap ++ '#' :: trimRight r.text) := by
  obtain ⟨gap, -, heq⟩ := trim_append_cons hline (by decide : isBlank '#' = false) r.blank r.text
  exact ⟨gap, heq⟩

/-- A line with a remark is a header if it begins and ends like one. -/
theorem exists_header_iff (hline : trim line ≠ []) :
    (∃ name, Header (trim (line ++ r.shown)) name) ↔
      (trim line).head? = some '[' ∧ r.Closes := by
  obtain ⟨gap, heq⟩ := trim_append hline r
  obtain ⟨c, rest, hrest, -⟩ := exists_trim_cons hline
  rw [heq, hrest, Closes, List.head?_cons]
  constructor
  · rintro ⟨name, inner, hwhole, -⟩
    have hhead : c = '[' := (List.cons.inj hwhole).1
    have hlast : ('#' :: trimRight r.text).getLast? = some ']' := by
      have hends := congrArg List.getLast? hwhole
      rwa [← List.append_assoc, List.getLast?_append_of_ne_nil _ (List.cons_ne_nil _ _),
        ← List.cons_append, List.getLast?_concat] at hends
    refine ⟨congrArg some hhead, ?_⟩
    cases htail : trimRight r.text with
    | nil =>
      rw [htail] at hlast
      exact absurd hlast (by decide)
    | cons d tail => rwa [htail, List.getLast?_cons_cons] at hlast
  · rintro ⟨hhead, hlast⟩
    obtain ⟨tail, htail⟩ := List.getLast?_eq_some_iff.mp hlast
    cases hhead
    refine ⟨_, rest ++ (gap ++ '#' :: tail), ?_, rfl⟩
    rw [htail]
    simp

/-- The number sign belongs to the name of the section, so that it is never the one that counts. -/
theorem not_header_run (hline : trim line ≠ []) :
    ¬Header (trim (line ++ r.shown)) runSection := by
  rintro ⟨inner, hwhole, hname⟩
  obtain ⟨gap, heq⟩ := trim_append hline r
  have hmem : '#' ∈ trim (line ++ r.shown) := by
    rw [heq]
    simp
  have hinner : '#' ∈ inner := by
    rw [hwhole] at hmem
    simpa using hmem
  have hrun := mem_trim hinner (by decide)
  rw [← hname] at hrun
  exact absurd hrun (by decide)

/-- A remark ends the section that counts if it makes a header of the line, and else it leaves all as
it was. -/
theorem insideAfter_eq_true_iff (hline : trim line ≠ []) {inside : Bool} :
    insideAfter inside (trim (line ++ r.shown)) ↔
      inside ∧ ¬((trim line).head? = some '[' ∧ r.Closes) := by
  rw [Settings.insideAfter_eq_true_iff, ← exists_header_iff hline, not_exists]
  simp only [not_header_run hline, false_or, and_comm]

end Remark

/-- Nothing can be read from a value with a number sign in it. -/
theorem read?_of_mem_hash {raw : List Char} (h : '#' ∈ raw) (k : Key) : k.read? raw = none := by
  have hword (n : Nat) : ¬WritesWord raw n := by
    rintro ⟨digits, htext, -, hall, -⟩
    have hdigits : '#' ∉ digits := fun hmem => absurd (hall '#' hmem) (by decide)
    rcases htext with rfl | rfl
    · exact hdigits h
    · simp [hdigits] at h
  rw [Key.read?_eq_none_iff]
  intro v hv
  cases k with
  | memory => exact hword v hv.1
  | policy =>
    have halpha := (Key.isAlpha_of_policy hv).2 '#' (mem_trim h (by decide))
    exact absurd halpha (by decide)
  | timeout | stepLimit => exact hword v hv

theorem mem_unquote_hash {raw : List Char} (h : '#' ∈ raw) : '#' ∈ unquote raw := by
  rcases unquote_eq_iff.mp (rfl : unquote raw = _) with heq | ⟨heq, -⟩
  · rw [heq] at h
    simpa using h
  · rwa [heq]

section Consequences

variable {inside : Bool} {found : List Assignment} {line key value : List Char} {r : Remark}

/-- A key that begins with a bracket means nothing, and so a line that begins with one sets
nothing. -/
theorem sameSettings_of_bracket (hline : line.head? = some '[') :
    SameSettings ((made? inside line).toList ++ found) found := by
  cases hmade : made? inside line with
  | none => exact fun k => rfl
  | some a =>
    obtain ⟨-, -, -, -, before, after, hsplit, -, hkey, -⟩ := made?_eq_some_iff.mp hmade
    intro k
    obtain ⟨c, rest, hname, -, -, hc⟩ := k.exists_head_name
    have hne : a.key ≠ k.name.toList := by
      rw [hkey, hname]
      cases before with
      | nil =>
        rw [hsplit] at hline
        exact absurd hline (by simp)
      | cons d before =>
        rw [hsplit, List.cons_append, List.head?_cons] at hline
        cases hline
        rw [trim_cons (by decide)]
        exact fun heq => hc (List.cons.inj heq).1.symm
    exact (setting_cons a found k).trans (if_neg hne)

/-- A line with a remark that is still an assignment has the remark in its value. -/
theorem made?_remark (h : Assigns (trim line) key value)
    (hheader : ∀ name, ¬Header (trim (line ++ r.shown)) name) :
    ∃ value', '#' ∈ value' ∧ made? true (trim (line ++ r.shown)) = some ⟨key, value'⟩ := by
  obtain ⟨hne, hcomment, -, before, after, hsplit, hbefore, rfl, -⟩ := h
  obtain ⟨gap, heq⟩ := r.trim_append hne
  have hwhole : trim (line ++ r.shown) =
      before ++ '=' :: (after ++ (gap ++ '#' :: trimRight r.text)) := by
    rw [heq, hsplit]
    simp
  have hhash : '#' ∈ trim (after ++ (gap ++ '#' :: trimRight r.text)) :=
    mem_trim (by simp) (by decide)
  refine ⟨_, mem_unquote_hash hhash, made?_eq_some_iff.mpr ⟨rfl, ?_, ?_, hheader, before, _, hwhole,
    hbefore, rfl, unquote_eq_iff.mp rfl⟩⟩
  · rw [hwhole]
    simp
  · rw [heq, List.head?_append_of_ne_nil _ hne]
    exact hcomment

/-- Of two values for one key, of which the second cannot be read, it depends on the first whether
they can be told apart. -/
theorem sameSettings_cons_iff {value' : List Char} (h : '#' ∈ value') :
    SameSettings (⟨key, value⟩ :: found) (⟨key, value'⟩ :: found) ↔
      ∀ (k : Key) (v : k.Kind), key = k.name.toList → ¬k.Says value v := by
  constructor
  · intro hsame k v hkey hv
    have hk := hsame k
    rw [setting_cons, setting_cons, if_pos hkey, if_pos hkey, read?_of_mem_hash h] at hk
    exact nomatch hk.symm.trans (Key.read?_eq_some_iff.mpr hv)
  · intro hnone k
    rw [setting_cons, setting_cons]
    split
    · next hkey =>
      rw [read?_of_mem_hash h, Key.read?_eq_none_iff]
      exact fun v => hnone k v hkey
    · rfl

variable {before : List (List Char)}

/-- A remark behind a header closes the section that counts if it makes another header of it, and
else nothing is opened or closed. -/
theorem exchangeable_header_iff (hbefore : ∀ above ∈ before, '\n' ∉ above) (hline : '\n' ∉ line)
    (r : Remark) {name : List Char} (h : Header (trim line) name) :
    Exchangeable before line (line ++ r.shown) ↔
      (name = runSection ↔ insideBehind (before.map trim) ∧ ¬r.Closes) := by
  have hhead : (trim line).head? = some '[' := by
    obtain ⟨inner, htrim, -⟩ := h
    rw [htrim]
    rfl
  have hne : trim line ≠ [] := by
    intro hnil
    rw [hnil] at hhead
    exact nomatch hhead
  have hhead' : (trim (line ++ r.shown)).head? = some '[' := by
    obtain ⟨gap, heq⟩ := r.trim_append hne
    rw [heq, List.head?_append_of_ne_nil _ hne, hhead]
  have hsame : SameSettings (foundWith before line) (foundWith before (line ++ r.shown)) := fun k =>
    (sameSettings_of_bracket hhead k).trans (sameSettings_of_bracket hhead' k).symm
  have hopens (inside : Bool) : insideAfter inside (trim line) ↔ name = runSection := by
    rw [insideAfter, header?_eq_some_iff.mpr h, Option.map_some, Option.getD_some, beq_iff_eq]
  rw [exchangeable_iff hbefore hline (r.feed_not_mem_append hline), and_iff_left hsame,
    Bool.eq_iff_iff, hopens, Remark.insideAfter_eq_true_iff hne]
  simp only [hhead, true_and]

/-- A remark behind an assignment makes its value unreadable, unless it makes a header of the
line. -/
theorem exchangeable_assignment_iff (hbefore : ∀ above ∈ before, '\n' ∉ above)
    (hline : '\n' ∉ line) (r : Remark) (h : Assigns (trim line) key value) :
    Exchangeable before line (line ++ r.shown) ↔
      (insideBehind (before.map trim) →
        (∀ (k : Key) (v : k.Kind), key = k.name.toList → ¬k.Says value v) ∧
          ¬((trim line).head? = some '[' ∧ r.Closes)) := by
  have hstays (inside : Bool) : insideAfter inside (trim line) ↔ inside := by
    rw [insideAfter_eq_true_iff]
    simp [h.2.2.1]
  rw [exchangeable_iff hbefore hline (r.feed_not_mem_append hline), Bool.eq_iff_iff, hstays,
    Remark.insideAfter_eq_true_iff h.1]
  unfold foundWith
  cases insideBehind (before.map trim) with
  | false =>
    have hmade (line : List Char) : made? false line = none := by simp [made?]
    simp [hmade, SameSettings]
  | true =>
    by_cases hcloses : (trim line).head? = some '[' ∧ r.Closes
    · simp [hcloses]
    · have hheader : ∀ name, ¬Header (trim (line ++ r.shown)) name :=
        not_exists.mp fun hexists => hcloses ((Remark.exists_header_iff h.1).mp hexists)
      obtain ⟨value', hhash, hmade'⟩ := made?_remark h hheader
      have hmade : made? true (trim line) = some ⟨key, value⟩ := made?_eq_some_iff.mpr ⟨rfl, h⟩
      rw [hmade, hmade']
      simp only [hcloses, not_false_iff, and_true, true_and, forall_const]
      exact sameSettings_cons_iff hhash

end Consequences

/-- When a remark behind a line leaves the settings as they are, whatever lines follow. Behind a
header: if and only if the header says what is in effect with the remark, and that is the section
that counts if it was open before, unless the remark ends with a closing bracket. Behind an
assignment: if and only if the section that counts is not open, or the assignment sets nothing and
the remark makes no header of the line. Every text is made of lines in this way. -/
theorem remark_spares_settings_iff {before : List (List Char)} {line : List Char}
    (hbefore : ∀ above ∈ before, '\n' ∉ above) (hline : '\n' ∉ line) (r : Remark) :
    let isOpen := ActiveAt (before.map trim) before.length
    (∀ name, Header (trim line) name →
      (Exchangeable before line (line ++ r.shown) ↔
        (name = runSection ↔ isOpen ∧ ¬r.Closes))) ∧
    (∀ key value, Assigns (trim line) key value →
      (Exchangeable before line (line ++ r.shown) ↔
        (isOpen → (∀ (k : Key) (v : k.Kind), key = k.name.toList → ¬k.Says value v) ∧
          ¬((trim line).head? = some '[' ∧ r.Closes)))) ∧
    ∀ content : String, Stacked (Text.lines content.toList) content.toList ∧
      ∀ below ∈ Text.lines content.toList, '\n' ∉ below := by
  intro isOpen
  have hopen : insideBehind (before.map trim) ↔ isOpen := by
    rw [insideBehind_eq_true_iff, List.length_map]
  refine ⟨fun name hheader => ?_, fun key value hassigns => ?_,
    fun content => stacked_lines content.toList⟩
  · rw [exchangeable_header_iff hbefore hline r hheader, hopen]
  · rw [exchangeable_assignment_iff hbefore hline r hassigns, hopen]

/-- Behind the header of a section that does not count, a remark that ends with a bracket makes
another such header. -/
theorem remark_with_bracket_is_harmless :
    (parse "[run]\n[colors] # see [docs]\nmemory = 5").1 =
      (parse "[run]\n[colors]\nmemory = 5").1 := by
  let r : Remark := ⟨[' '], by simp [isBlank], " see [docs]".toList, by decide⟩
  have hheader : Header (trim "[colors]".toList) "colors".toList :=
    header?_eq_some_iff.mp (by decide)
  have hcloses : r.Closes := by
    rw [Remark.Closes]
    decide
  have hspared : Exchangeable ["[run]".toList] "[colors]".toList ("[colors]".toList ++ r.shown) :=
    ((remark_spares_settings_iff (by decide) (by decide) r).1 _ hheader).mpr
      ⟨fun hname => absurd hname (by decide), fun h => absurd hcloses h.2⟩
  have hstacked (content : String) : Stacked (Text.lines content.toList) content.toList :=
    (stacked_lines content.toList).1
  exact hspared ["memory = 5".toList] _ _ (by decide)
    (hstacked "[run]\n[colors]\nmemory = 5")
    (hstacked "[run]\n[colors] # see [docs]\nmemory = 5")

/-- With other remarks behind its header a section that does not count is taken for one that does,
and the section that counts is not found, nor is a value. -/
theorem remarks_change_settings :
    ((parse "[run]\n[colors]\nmemory = 5\n").1.memory = none ∧
      (parse "[run]\n[colors] # theme\nmemory = 5\n").1.memory = some 5) ∧
    (parse "[run]\nmemory = 5\n").1.memory = some 5 ∧
      (parse "[run] # limits\nmemory = 5\n").1.memory = none ∧
      (parse "[run]\nmemory = 5 # cells\n").1.memory = none := by
  decide +kernel

end Settings
end Brainfuck

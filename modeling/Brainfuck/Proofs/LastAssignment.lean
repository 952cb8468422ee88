import Brainfuck.Proofs.TextReading
import Brainfuck.Settings
import Mathlib.Data.List.Nodup

/-!
# The last assignment wins

A settings text is read here without going through it: a line is active when the nearest header
before it opens the section that counts, and the last active line that assigns to a key decides
about that key. Going through the lines once finds exactly this. What a reader knows after some
lines is kept by every further line, so it holds of the whole text.
-/
namespace Brainfuck.Settings

/-- A line is the header of a section. -/
def Header (line name : List Char) : Prop :=
  ∃ inner, line = '[' :: (inner ++ [']']) ∧ name = Text.trim inner

/-- Double quotes around a value are left out, if both of them stand there. -/
def Unquoted (raw value : List Char) : Prop :=
  raw = '"' :: (value ++ ['"']) ∨ value = raw ∧ ∀ inner, raw ≠ '"' :: (inner ++ ['"'])

/-- A line assigns a value to a key, provided that it is active. -/
def Assigns (line key value : List Char) : Prop :=
  line ≠ [] ∧ line.head? ≠ some '#' ∧ (∀ name, ¬Header line name) ∧
    ∃ before after, line = before ++ '=' :: after ∧ '=' ∉ before ∧ key = Text.trim before ∧
      Unquoted (Text.trim after) value

/-- The nearest header before a line opens the section that counts. -/
def ActiveAt (lines : List (List Char)) (i : Nat) : Prop :=
  ∃ j < i, (∃ line, lines[j]? = some line ∧ Header line runSection) ∧
    ∀ k, j < k → k < i → ∀ line, lines[k]? = some line → ∀ name, ¬Header line name

def AssignsAt (lines : List (List Char)) (i : Nat) (key value : List Char) : Prop :=
  ActiveAt lines i ∧ ∃ line, lines[i]? = some line ∧ Assigns line key value

/-- The last assignment to a key gives it a value. -/
def LastAssigned (lines : List (List Char)) (key value : List Char) : Prop :=
  ∃ i, AssignsAt lines i key value ∧ ∀ j other, AssignsAt lines j key other → j ≤ i

section OneLine

variable {line name raw value : List Char} {a : Assignment}

theorem header?_eq_some_iff : header? line = some name ↔ Header line name := by
  unfold header?
  constructor
  · intro h
    split at h
    · split at h
      · next rest hlast =>
        obtain ⟨inner, rfl⟩ := List.getLast?_eq_some_iff.mp hlast
        refine ⟨inner, rfl, ?_⟩
        simpa using h.symm
      · exact nomatch h
    · exact nomatch h
  · rintro ⟨inner, rfl, rfl⟩
    simp

theorem header?_eq_none_iff : header? line = none ↔ ∀ name, ¬Header line name := by
  rw [Option.eq_none_iff_forall_ne_some]
  exact forall_congr' fun name => not_congr header?_eq_some_iff

theorem unquote_eq_iff : unquote raw = value ↔ Unquoted raw value := by
  have hboth (inner : List Char) : unquote ('"' :: (inner ++ ['"'])) = inner := by
    simp [unquote]
  have hnot (h : ∀ inner, raw ≠ '"' :: (inner ++ ['"'])) : unquote raw = raw := by
    unfold unquote
    split
    · next rest =>
      refine if_neg fun hlast => ?_
      obtain ⟨inner, rfl⟩ := List.getLast?_eq_some_iff.mp hlast
      exact h inner rfl
    · rfl
  constructor
  · rintro rfl
    by_cases h : ∃ inner, raw = '"' :: (inner ++ ['"'])
    · obtain ⟨inner, rfl⟩ := h
      exact .inl (by rw [hboth])
    · have hall : ∀ inner, raw ≠ '"' :: (inner ++ ['"']) := fun inner hraw => h ⟨inner, hraw⟩
      exact .inr ⟨hnot hall, hall⟩
  · rintro (rfl | ⟨rfl, h⟩)
    · exact hboth value
    · exact hnot h

/-- A line is split at its first equals sign. -/
theorem assignment?_of_split {before after : List Char} (h : '=' ∉ before) :
    assignment? (before ++ '=' :: after) = some ⟨Text.trim before, unquote (Text.trim after)⟩ := by
  have hbefore : ∀ c ∈ before, (c != '=') = true := fun c hc => by
    simpa using fun heq : c = '=' => h (heq ▸ hc)
  rw [assignment?, List.dropWhile_append_of_pos hbefore, List.takeWhile_append_of_pos hbefore]
  simp

theorem exists_split_of_assignment? (h : assignment? line = some a) :
    ∃ before after, line = before ++ '=' :: after ∧ '=' ∉ before := by
  unfold assignment? at h
  split at h
  · next c after hdrop =>
    have hc : c = '=' := by
      have hhead := List.head?_dropWhile_not (· != '=') line
      rw [hdrop] at hhead
      simpa using hhead
    subst hc
    refine ⟨line.takeWhile (· != '='), after, ?_, fun hmem => ?_⟩
    · rw [← hdrop, List.takeWhile_append_dropWhile]
    · simpa using List.all_eq_true.mp (List.all_takeWhile (l := line)) '=' hmem
  · exact nomatch h

theorem assignment?_eq_some_iff :
    assignment? line = some a ↔
      ∃ before after, line = before ++ '=' :: after ∧ '=' ∉ before ∧ a.key = Text.trim before ∧
        Unquoted (Text.trim after) a.value := by
  constructor
  · intro h
    obtain ⟨before, after, rfl, hbefore⟩ := exists_split_of_assignment? h
    rw [assignment?_of_split hbefore] at h
    cases h
    exact ⟨before, after, rfl, hbefore, rfl, unquote_eq_iff.mp rfl⟩
  · rintro ⟨before, after, rfl, hbefore, hkey, hvalue⟩
    rw [assignment?_of_split hbefore, ← hkey, unquote_eq_iff.mpr hvalue]

theorem isIdle_eq_false_iff : isIdle line = false ↔ line ≠ [] ∧ line.head? ≠ some '#' := by
  cases line <;> simp [isIdle]

/-- Lines that say nothing are no headers. -/
theorem header?_of_isIdle (h : isIdle line) : header? line = none := by
  rw [header?_eq_none_iff]
  rintro name ⟨inner, rfl, -⟩
  exact nomatch h

/-- The assignment that a line makes, inside or outside of the section that counts. -/
def made? (inside : Bool) (line : List Char) : Option Assignment :=
  if inside && !isIdle line && (header? line).isNone then assignment? line else none

/-- Whether the lines after this one are inside. -/
def insideAfter (inside : Bool) (line : List Char) : Bool :=
  ((header? line).map (· == runSection)).getD inside

theorem made?_eq_some_iff {inside : Bool} :
    made? inside line = some a ↔ inside ∧ Assigns line a.key a.value := by
  simp only [made?, Option.ite_none_right_eq_some, Bool.and_eq_true, Bool.not_eq_true',
    Option.isNone_iff_eq_none, isIdle_eq_false_iff, header?_eq_none_iff, assignment?_eq_some_iff,
    Assigns, and_assoc]

theorem insideAfter_eq_true_iff {inside : Bool} :
    insideAfter inside line ↔
      Header line runSection ∨ (∀ name, ¬Header line name) ∧ inside := by
  rw [← header?_eq_some_iff, ← header?_eq_none_iff, insideAfter]
  cases header? line <;> simp

/-- One line is gone through. -/
theorem assignmentsFrom_cons (inside : Bool) (found : List Assignment) (line : List Char)
    (rest : List (List Char)) :
    assignmentsFrom inside found (line :: rest) =
      assignmentsFrom (insideAfter inside line) ((made? inside line).toList ++ found) rest := by
  rw [assignmentsFrom]
  split
  · next hidle => simp [insideAfter, made?, header?_of_isIdle hidle, hidle]
  · next hidle =>
    split
    · next hheader => simp [insideAfter, made?, hheader]
    · next hheader =>
      split
      · next hinside => simp [insideAfter, made?, hheader, hidle, hinside]
      · next hinside => simp [insideAfter, made?, hheader, hinside]

end OneLine

section MoreLines

variable {lines : List (List Char)} {line key value : List Char} {i : Nat}

theorem activeAt_concat_of_le (line : List Char) (h : i ≤ lines.length) :
    ActiveAt (lines ++ [line]) i ↔ ActiveAt lines i := by
  have hget (k : Nat) (hk : k < i) : (lines ++ [line])[k]? = lines[k]? :=
    List.getElem?_append_left (by omega)
  constructor
  · rintro ⟨j, hj, hheader, hnone⟩
    refine ⟨j, hj, hget j hj ▸ hheader, fun k hjk hki => ?_⟩
    exact hget k hki ▸ hnone k hjk hki
  · rintro ⟨j, hj, hheader, hnone⟩
    refine ⟨j, hj, (hget j hj).symm ▸ hheader, fun k hjk hki => ?_⟩
    exact (hget k hki).symm ▸ hnone k hjk hki

/-- What comes after a line is active if it is a header of the section that counts, or if the
line is active itself and not a header. -/
theorem activeAt_concat_succ :
    ActiveAt (lines ++ [line]) (lines.length + 1) ↔
      Header line runSection ∨ (∀ name, ¬Header line name) ∧ ActiveAt lines lines.length := by
  constructor
  · rintro ⟨j, hj, ⟨header, hget, hheader⟩, hnone⟩
    rcases Nat.lt_succ_iff_lt_or_eq.mp hj with hj | rfl
    · refine .inr ⟨hnone lines.length hj (by omega) line List.getElem?_concat_length, ?_⟩
      rw [← activeAt_concat_of_le line (le_refl _)]
      exact ⟨j, hj, ⟨header, hget, hheader⟩, fun k hjk hk => hnone k hjk (by omega)⟩
    · rw [List.getElem?_concat_length] at hget
      cases hget
      exact .inl hheader
  · rintro (hheader | ⟨hline, hactive⟩)
    · refine ⟨lines.length, by omega, ⟨line, List.getElem?_concat_length, hheader⟩, ?_⟩
      intro k hlow hhigh
      omega
    · obtain ⟨j, hj, hheader, hnone⟩ := (activeAt_concat_of_le line (le_refl _)).mpr hactive
      refine ⟨j, by omega, hheader, fun k hjk hk => ?_⟩
      rcases Nat.lt_succ_iff_lt_or_eq.mp hk with hk | rfl
      · exact hnone k hjk hk
      · intro other hother
        rw [List.getElem?_concat_length] at hother
        cases hother
        exact hline

/-- One more line adds at most one assignment, in its own place. -/
theorem assignsAt_concat :
    AssignsAt (lines ++ [line]) i key value ↔
      AssignsAt lines i key value ∨
        i = lines.length ∧ ActiveAt lines lines.length ∧ Assigns line key value := by
  rcases Nat.lt_trichotomy i lines.length with hi | rfl | hi
  · have hget : (lines ++ [line])[i]? = lines[i]? := List.getElem?_append_left hi
    simp only [AssignsAt, activeAt_concat_of_le line hi.le, hget, hi.ne, false_and, or_false]
  · simp [AssignsAt, activeAt_concat_of_le line (le_refl _)]
  · have hget : (lines ++ [line])[i]? = none := by
      rw [List.getElem?_eq_none_iff, List.length_append, List.length_singleton]
      exact hi
    have hget' : lines[i]? = none := List.getElem?_eq_none_iff.mpr hi.le
    simp [AssignsAt, hget, hget', hi.ne']

theorem AssignsAt.lt (h : AssignsAt lines i key value) : i < lines.length := by
  obtain ⟨-, line, hget, -⟩ := h
  exact (List.getElem?_eq_some_iff.mp hget).1

/-- An assignment in one more line is the last one. Without it, the last one stays. -/
theorem lastAssigned_concat :
    LastAssigned (lines ++ [line]) key value ↔
      ActiveAt lines lines.length ∧ Assigns line key value ∨
        (∀ other, ¬(ActiveAt lines lines.length ∧ Assigns line key other)) ∧
          LastAssigned lines key value := by
  constructor
  · rintro ⟨i, hi, hmax⟩
    rcases assignsAt_concat.mp hi with hi | ⟨-, hline⟩
    · refine .inr ⟨fun other hother => ?_, i, hi, fun j other hj => ?_⟩
      · have hle := hmax _ other (assignsAt_concat.mpr (.inr ⟨rfl, hother⟩))
        exact absurd hi.lt (by omega)
      · exact hmax j other (assignsAt_concat.mpr (.inl hj))
    · exact .inl hline
  · rintro (hline | ⟨hnone, i, hi, hmax⟩)
    · refine ⟨lines.length, assignsAt_concat.mpr (.inr ⟨rfl, hline⟩), fun j other hj => ?_⟩
      rcases assignsAt_concat.mp hj with hj | ⟨rfl, -⟩
      · exact hj.lt.le
      · exact le_refl _
    · refine ⟨i, assignsAt_concat.mpr (.inl hi), fun j other hj => ?_⟩
      rcases assignsAt_concat.mp hj with hj | ⟨-, hother⟩
      · exact hmax j other hj
      · exact absurd hother (hnone other)

end MoreLines

/-- What is known after some lines: whether a further line would be active, all assignments, and
the last value of each key. -/
structure Describes (lines : List (List Char)) (inside : Bool) (found : List Assignment) :
    Prop where
  active : inside ↔ ActiveAt lines lines.length
  assigned : ∀ a, a ∈ found ↔ ∃ i, AssignsAt lines i a.key a.value
  last : ∀ key value, lastValue? found key = some value ↔ LastAssigned lines key value

theorem describes_nil : Describes [] false [] where
  active := by simp [ActiveAt]
  assigned := by simp [AssignsAt]
  last := by simp [lastValue?, LastAssigned, AssignsAt]

theorem lastValue?_cons (a : Assignment) (found : List Assignment) (key : List Char) :
    lastValue? (a :: found) key = if a.key = key then some a.value else lastValue? found key := by
  by_cases h : a.key = key <;> simp [lastValue?, h]

/-- The step: one more line. -/
theorem Describes.concat {lines : List (List Char)} {inside : Bool} {found : List Assignment}
    (h : Describes lines inside found) (line : List Char) :
    Describes (lines ++ [line]) (insideAfter inside line)
      ((made? inside line).toList ++ found) where
  active := by
    rw [List.length_append, List.length_singleton, activeAt_concat_succ, insideAfter_eq_true_iff,
      h.active]
  assigned := by
    intro a
    simp only [List.mem_append, Option.mem_toList, made?_eq_some_iff, h.active,
      h.assigned, assignsAt_concat, exists_or, exists_eq_left]
    exact or_comm
  last := by
    intro key value
    rw [lastAssigned_concat, ← h.last, ← h.active]
    cases hmade : made? inside line with
    | none =>
      have hnone (other : List Char) : ¬(inside ∧ Assigns line key other) := fun hother => by
        rw [← made?_eq_some_iff (a := ⟨key, other⟩), hmade] at hother
        exact nomatch hother
      simp [hnone]
    | some a =>
      have hline (other : List Char) :
          (inside ∧ Assigns line key other) ↔ a.key = key ∧ a.value = other := by
        rw [← made?_eq_some_iff (a := ⟨key, other⟩), hmade, Option.some.injEq]
        cases a
        rw [Assignment.mk.injEq]
      simp only [Option.toList_some, List.singleton_append, lastValue?_cons, hline]
      by_cases hkey : a.key = key <;> simp [hkey]

/-- The run: all further lines. -/
theorem Describes.assignmentsFrom {lines : List (List Char)} {inside : Bool}
    {found : List Assignment} (h : Describes lines inside found) (rest : List (List Char)) :
    ∃ inside', Describes (lines ++ rest) inside' (assignmentsFrom inside found rest) := by
  induction rest generalizing lines inside found with
  | nil => exact ⟨inside, by simpa [Settings.assignmentsFrom] using h⟩
  | cons line rest ih =>
    obtain ⟨inside', hrest⟩ := ih (h.concat line)
    rw [List.append_assoc, List.singleton_append, ← assignmentsFrom_cons] at hrest
    exact ⟨inside', hrest⟩

/-- The trimmed lines of a settings text. A carriage return in front of a line feed is blank, so
that it is trimmed too. -/
def trimmedLines (content : String) : List (List Char) :=
  (content.toList.splitOn '\n').map Text.trim

theorem describes_assignments (content : String) :
    ∃ inside, Describes (trimmedLines content) inside (assignments content.toList) := by
  obtain ⟨inside, hlines⟩ :=
    describes_nil.assignmentsFrom ((Text.lines content.toList).map Text.trim)
  obtain ⟨idle, hidle, heq⟩ := Text.trim_lines content.toList
  rw [trimmedLines, ← heq]
  rcases hidle with rfl | rfl
  · rw [List.append_nil]
    exact ⟨inside, hlines⟩
  · -- The last line is empty and was left out: it makes no assignment.
    have hmade : made? inside [] = none := by simp [made?, isIdle]
    have hmore := hlines.concat []
    rw [hmade] at hmore
    exact ⟨_, hmore⟩

/-- What can be set. -/
inductive Key where
  | memory | policy | timeout | stepLimit

namespace Key

/-- How the key is written. -/
def name : Key → String
  | .memory => "memory"
  | .policy => "tape"
  | .timeout => "timeout_ms"
  | .stepLimit => "max_steps"

/-- What the key can be set to. -/
abbrev Kind : Key → Type
  | .policy => Policy
  | .memory | .timeout | .stepLimit => Nat

/-- A text says what the key is set to. -/
def Says : (k : Key) → List Char → k.Kind → Prop
  | .memory, raw, n => Text.WritesWord raw n ∧ 0 < n
  | .policy, raw, p => String.ofList ((Text.trim raw).map Char.toLower) ∈ p.names
  | .timeout, raw, n | .stepLimit, raw, n => Text.WritesWord raw n

def get (s : Settings) : (k : Key) → Option k.Kind
  | .memory => s.memory
  | .policy => s.policy
  | .timeout => s.timeout
  | .stepLimit => s.stepLimit

def read? : (k : Key) → List Char → Option k.Kind
  | .memory => positive?
  | .policy => Policy.ofText?
  | .timeout | .stepLimit => Text.word?

def all : List Key := [.memory, .policy, .timeout, .stepLimit]

theorem mem_all (k : Key) : k ∈ all := by
  cases k <;> simp [all]

theorem read?_eq_some_iff {k : Key} {raw : List Char} {v : k.Kind} :
    k.read? raw = some v ↔ k.Says raw v := by
  cases k with
  | memory => simp [read?, positive?, Says, Option.filter_eq_some_iff, Text.word?_eq_some_iff]
  | policy => exact Policy.ofText?_eq_some_iff
  | timeout => exact Text.word?_eq_some_iff
  | stepLimit => exact Text.word?_eq_some_iff

theorem read?_eq_none_iff {k : Key} {raw : List Char} :
    k.read? raw = none ↔ ∀ v, ¬k.Says raw v := by
  rw [Option.eq_none_iff_forall_ne_some]
  exact forall_congr' fun v => not_congr read?_eq_some_iff

end Key

section Field

variable {α : Type} {found : List Assignment} {key : String} {read? : List Char → Option α}

theorem field_fst_of_last {raw : List Char} (h : lastValue? found key.toList = some raw) :
    (field found key read?).1 = read? raw := by
  rw [field, h]
  cases hread : read? raw <;> simp [hread]

theorem field_fst_eq_some_iff {v : α} :
    (field found key read?).1 = some v ↔
      ∃ raw, lastValue? found key.toList = some raw ∧ read? raw = some v := by
  cases h : lastValue? found key.toList with
  | none => simp [field, h]
  | some raw => simp [field_fst_of_last h]

/-- A field brings a warning when its value cannot be read, and the warning shows that value. -/
theorem mem_field_snd_iff {n : Notice} :
    n ∈ (field found key read?).2 ↔
      ∃ raw, lastValue? found key.toList = some raw ∧ read? raw = none ∧
        n = .invalidSetting key (String.ofList raw) := by
  rw [field]
  cases lastValue? found key.toList with
  | none => simp
  | some raw => cases h : read? raw <;> simp [h]

theorem nodup_field_snd : (field found key read?).2.Nodup := by
  rw [field]
  cases lastValue? found key.toList with
  | none => simp
  | some raw => cases h : read? raw <;> simp [h]

end Field

theorem nodup_eraseDups {α : Type} [BEq α] [LawfulBEq α] (l : List α) : l.eraseDups.Nodup := by
  cases l with
  | nil => simp
  | cons a l =>
    rw [List.eraseDups_cons, List.nodup_cons]
    refine ⟨fun hmem => ?_, nodup_eraseDups _⟩
    simp [List.mem_eraseDups] at hmem
termination_by l.length
decreasing_by
  rw [List.length_cons]
  exact Nat.lt_succ_of_le (List.length_filter_le _ l)

theorem mem_unknownKeys_iff {found : List Assignment} {key : List Char} :
    key ∈ unknownKeys found ↔ (∃ a ∈ found, a.key = key) ∧ ∀ k : Key, key ≠ k.name.toList := by
  have hknown : key ∈ knownKeys ↔ ∃ k : Key, key = k.name.toList := by
    constructor
    · intro h
      have hmap : knownKeys = Key.all.map fun k => k.name.toList := rfl
      rw [hmap, List.mem_map] at h
      obtain ⟨k, -, hk⟩ := h
      exact ⟨k, hk.symm⟩
    · rintro ⟨k, rfl⟩
      cases k <;> simp [knownKeys, Key.name]
  simp [unknownKeys, List.mem_eraseDups, hknown]

/-- A key of the settings is a field of what is read. -/
theorem get_parse (content : String) (k : Key) :
    k.get (parse content).1 = (field (assignments content.toList) k.name k.read?).1 := by
  cases k <;> rfl

/-- The warnings are about the fields, then about unknown keys. -/
theorem parse_snd (content : String) :
    (parse content).2 =
      (Key.all.flatMap fun k => (field (assignments content.toList) k.name k.read?).2) ++
        (unknownKeys (assignments content.toList)).map fun key =>
          Notice.unknownSetting (String.ofList key) := by
  simp only [Key.all, List.flatMap_cons, List.flatMap_nil, List.append_nil]
  simp only [parse, ← List.append_assoc]
  rfl

/-- No warning comes twice. -/
theorem nodup_parse_snd (content : String) : (parse content).2.Nodup := by
  rw [parse_snd, List.nodup_append']
  refine ⟨List.nodup_flatMap.mpr ⟨fun k _ => nodup_field_snd, ?_⟩, ?_, ?_⟩
  · have hkeys : Key.all.Pairwise fun k k' => k.name ≠ k'.name := by decide
    refine hkeys.imp fun {k k'} hne n hn hn' => ?_
    obtain ⟨raw, -, -, rfl⟩ := mem_field_snd_iff.mp hn
    obtain ⟨raw', -, -, heq⟩ := mem_field_snd_iff.mp hn'
    exact hne (Notice.invalidSetting.inj heq).1
  · refine (nodup_eraseDups _).map fun key key' heq => ?_
    exact String.ofList_injective (Notice.unknownSetting.inj heq)
  · intro n hn hn'
    obtain ⟨k, -, hk⟩ := List.mem_flatMap.mp hn
    obtain ⟨raw, -, -, rfl⟩ := mem_field_snd_iff.mp hk
    obtain ⟨key, -, heq⟩ := List.mem_map.mp hn'
    exact nomatch heq

/-- Reading a settings text takes the last assignment to each key, in the section that counts, and
warns once about each key whose last value cannot be used and about each key that means nothing. -/
theorem parse_takes_last_assignments (content : String) :
    (∀ (k : Key) (v : k.Kind), k.get (parse content).1 = some v ↔
      ∃ raw, LastAssigned (trimmedLines content) k.name.toList raw ∧ k.Says raw v) ∧
    (∀ (k : Key) (raw : List Char), LastAssigned (trimmedLines content) k.name.toList raw →
      (k.get (parse content).1 = none ↔ ∀ v, ¬k.Says raw v)) ∧
    (parse content).2.Nodup ∧
    ∀ n, n ∈ (parse content).2 ↔
      (∃ (k : Key) (raw : List Char), LastAssigned (trimmedLines content) k.name.toList raw ∧
        (∀ v, ¬k.Says raw v) ∧ n = .invalidSetting k.name (String.ofList raw)) ∨
      ∃ key, (∃ i value, AssignsAt (trimmedLines content) i key value) ∧
        (∀ k : Key, key ≠ k.name.toList) ∧ n = .unknownSetting (String.ofList key) := by
  obtain ⟨inside, h⟩ := describes_assignments content
  refine ⟨fun k v => ?_, fun k raw hlast => ?_, nodup_parse_snd content, fun n => ?_⟩
  · simp only [get_parse, field_fst_eq_some_iff, h.last, Key.read?_eq_some_iff]
  · rw [get_parse, field_fst_of_last ((h.last _ raw).mpr hlast), Key.read?_eq_none_iff]
  · have hassigned (key : List Char) :
        (∃ a ∈ assignments content.toList, a.key = key) ↔
          ∃ i value, AssignsAt (trimmedLines content) i key value := by
      constructor
      · rintro ⟨a, ha, rfl⟩
        obtain ⟨i, hi⟩ := (h.assigned a).mp ha
        exact ⟨i, a.value, hi⟩
      · rintro ⟨i, value, hi⟩
        exact ⟨⟨key, value⟩, (h.assigned _).mpr ⟨i, hi⟩, rfl⟩
    simp only [parse_snd, List.mem_append, List.mem_flatMap, List.mem_map, Key.mem_all, true_and,
      mem_field_snd_iff, h.last, Key.read?_eq_none_iff, mem_unknownKeys_iff, hassigned, and_assoc,
      eq_comm (b := n)]

example :
    parse "[run]\nmemory = 5\r\n[ other ]\ntape = grow\n[run]\nmemory = \"lots\"\nwidth = 3" =
      ({}, [.invalidSetting "memory" "lots", .unknownSetting "width"]) := by
  decide +kernel

end Brainfuck.Settings

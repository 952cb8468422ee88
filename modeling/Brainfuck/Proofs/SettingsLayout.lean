import Brainfuck.Proofs.LastAssignment

/-!
# How settings are laid out

A settings text may be laid out in many ways: the keys in any order, blanks around everything,
quotes around values, numbers with zeros in front, names of policies in any case, comments and
foreign sections around the section that counts, and line ends of two kinds. A document is such a
layout, down to the last blank. What is left of each of its lines when it is trimmed is said here:
a header, the assignment of a bare value to a key, or nothing.
-/
namespace Brainfuck
namespace Text

variable {before word after : List Char} {c : Char}

theorem trimRight_append_cons (h : isBlank c = false) (before after : List Char) :
    trimRight (before ++ c :: after) = before ++ c :: trimRight after := by
  have hback : (before ++ c :: after).reverse = after.reverse ++ c :: before.reverse := by simp
  rw [trimRight, trimRight, hback, List.dropWhile_append]
  split
  · next hempty =>
    rw [List.isEmpty_iff.mp hempty]
    simp [h]
  · simp

theorem trimRight_of_blank (h : ∀ a ∈ after, isBlank a) : trimRight after = [] := by
  have hback : ∀ a ∈ after.reverse, isBlank a := fun a ha => h a (List.mem_reverse.mp ha)
  have hdrop : (after.reverse ++ []).dropWhile isBlank = [].dropWhile isBlank :=
    List.dropWhile_append_of_pos hback
  simpa [trimRight] using hdrop

theorem trim_blank_append (h : ∀ a ∈ before, isBlank a) (text : List Char) :
    trim (before ++ text) = trim text := by
  rw [trim, trim, trimLeft, trimLeft, List.dropWhile_append_of_pos h]

theorem trim_cons (h : isBlank c = false) (text : List Char) :
    trim (c :: text) = c :: trimRight text := by
  rw [trim, trimLeft, List.dropWhile_cons_of_neg (by simp [h])]
  exact trimRight_append_cons h [] text

/-- What begins and ends with no blank is found again between blanks. -/
theorem trim_padded (hbefore : ∀ a ∈ before, isBlank a) (hafter : ∀ a ∈ after, isBlank a)
    (hhead : ∀ a ∈ word.head?, isBlank a = false) (hlast : ∀ a ∈ word.getLast?, isBlank a = false) :
    trim (before ++ (word ++ after)) = word := by
  rw [trim_blank_append hbefore]
  cases word with
  | nil =>
    rw [List.nil_append, ← List.append_nil after, trim_blank_append hafter]
    rfl
  | cons c rest =>
    have hc : isBlank c = false := hhead c rfl
    rw [List.cons_append, trim_cons hc]
    rcases List.eq_nil_or_concat' rest with rfl | ⟨front, d, rfl⟩
    · rw [List.nil_append, trimRight_of_blank hafter]
    · have hd : isBlank d = false := hlast d (by simp [List.getLast?_cons])
      rw [List.append_assoc, List.singleton_append, trimRight_append_cons hd,
        trimRight_of_blank hafter]

/-- Lines written one below the other. Each line ends with a line feed, with or without a carriage
return in front of it; the last one may be left open. -/
inductive Stacked : List (List Char) → List Char → Prop where
  | nil : Stacked [] []
  | last (line : List Char) : Stacked [line] line
  | feed {lines : List (List Char)} {text : List Char} (line : List Char)
      (below : Stacked lines text) : Stacked (line :: lines) (line ++ '\n' :: text)
  | returnFeed {lines : List (List Char)} {text : List Char} (line : List Char)
      (below : Stacked lines text) : Stacked (line :: lines) (line ++ '\r' :: '\n' :: text)

theorem Stacked.trim_splitOn {lines : List (List Char)} {text : List Char} (h : Stacked lines text)
    (hlines : ∀ line ∈ lines, '\n' ∉ line) :
    ∃ idle : List (List Char), (idle = [] ∨ idle = [[]]) ∧
      (text.splitOn '\n').map trim = lines.map trim ++ idle := by
  induction h with
  | nil => exact ⟨[[]], .inr rfl, rfl⟩
  | last line =>
    refine ⟨[], .inl rfl, ?_⟩
    rw [List.splitOn_eq_singleton (hlines line List.mem_cons_self), List.append_nil]
  | @feed lines text line _ ih =>
    obtain ⟨hline, hrest⟩ := List.forall_mem_cons.mp hlines
    obtain ⟨idle, hidle, heq⟩ := ih hrest
    refine ⟨idle, hidle, ?_⟩
    rw [List.splitOn_append_cons_self, List.splitOn_eq_singleton hline, List.map_append, heq]
    rfl
  | @returnFeed lines text line _ ih =>
    obtain ⟨hline, hrest⟩ := List.forall_mem_cons.mp hlines
    obtain ⟨idle, hidle, heq⟩ := ih hrest
    refine ⟨idle, hidle, ?_⟩
    have hreturn : '\n' ∉ line ++ ['\r'] := by simpa using hline
    rw [← List.singleton_append (x := '\r'), ← List.append_assoc, List.splitOn_append_cons_self,
      List.splitOn_eq_singleton hreturn, List.map_append, heq, List.map_singleton,
      trim_append_blank (by decide)]
    rfl

theorem exists_stacked (lines : List (List Char)) : ∃ text : String, Stacked lines text.toList := by
  induction lines with
  | nil => exact ⟨"", .nil⟩
  | cons line lines ih =>
    obtain ⟨text, h⟩ := ih
    refine ⟨String.ofList (line ++ '\n' :: text.toList), ?_⟩
    rw [String.toList_ofList]
    exact .feed line h

/-- A row of decimal digits, with zeros in front or without, that has a value. -/
def IsDecimal (digits : List Char) (n : Nat) : Prop :=
  digits ≠ [] ∧ digits.all Char.isDigit ∧ value digits = n

instance (digits : List Char) (n : Nat) : Decidable (IsDecimal digits n) :=
  inferInstanceAs (Decidable (_ ∧ _))

theorem value_eq_ofDigitChars (digits : List Char) :
    value digits = Nat.ofDigitChars 10 digits 0 := by
  induction digits using List.reverseRecOn with
  | nil => rfl
  | append_singleton digits c ih =>
    rw [value_concat, ih, Nat.ofDigitChars_append, Nat.ofDigitChars_cons, Nat.ofDigitChars_nil]

theorem isDecimal_toDigits (n : Nat) : IsDecimal (Nat.toDigits 10 n) n := by
  refine ⟨Nat.toDigits_ne_nil, List.all_eq_true.mpr fun c hc => ?_, ?_⟩
  · exact Nat.isDigit_of_mem_toDigits (by decide) (by decide) hc
  · rw [value_eq_ofDigitChars, Nat.ofDigitChars_toDigits (by decide) (by decide)]

theorem IsDecimal.writesWord {digits : List Char} {n : Nat} (h : IsDecimal digits n)
    (hn : n < 2 ^ 64) : WritesWord digits n := by
  obtain ⟨hne, hall, rfl⟩ := h
  exact ⟨digits, .inl rfl, hne, List.all_eq_true.mp hall, rfl, hn⟩

/-- Letters and digits are no blanks. -/
theorem isBlank_of_isAlphanum (h : c.isAlphanum) : isBlank c = false := by
  delta Char.isAlphanum Char.isAlpha Char.isUpper Char.isLower Char.isDigit at h
  simp only [Bool.or_eq_true, Bool.and_eq_true, decide_eq_true_eq, UInt32.le_iff_toNat_le,
    ge_iff_le] at h
  have hranges : (65 ≤ c.toNat ∧ c.toNat ≤ 90 ∨ 97 ≤ c.toNat ∧ c.toNat ≤ 122) ∨
      48 ≤ c.toNat ∧ c.toNat ≤ 57 := h
  simp [isBlank]
  omega

end Text

namespace Settings
open Text

/-- Spaces and tabs. -/
structure Padding where
  text : List Char
  only : ∀ c ∈ text, c = ' ' ∨ c = '\t' := by simp

namespace Padding

def none : Padding := { text := [] }

variable (p : Padding)

theorem isBlank {c : Char} (h : c ∈ p.text) : isBlank c := by
  rcases p.only c h with rfl | rfl <;> decide

theorem not_mem {c : Char} (hspace : c ≠ ' ') (htab : c ≠ '\t') : c ∉ p.text := fun h =>
  (p.only c h).elim hspace htab

@[simp] theorem feed_not_mem : '\n' ∉ p.text := p.not_mem (by decide) (by decide)

/-- A word without blanks is found again between blanks. -/
theorem trim_word (p q : Padding) {word : List Char} (h : ∀ c ∈ word, Text.isBlank c = false) :
    trim (p.text ++ (word ++ q.text)) = word :=
  trim_padded (fun _ => p.isBlank) (fun _ => q.isBlank)
    (fun c hc => h c (List.mem_of_mem_head? hc)) fun c hc => h c (List.mem_of_mem_getLast? hc)

end Padding

namespace Key

/-- A text writes a value: a number in decimal digits, a policy by a name in any case. -/
def Writes : (k : Key) → List Char → k.Kind → Prop
  | .policy, raw, p => String.ofList (raw.map Char.toLower) ∈ p.names
  | .memory, raw, n | .timeout, raw, n | .stepLimit, raw, n => IsDecimal raw n

/-- The values that a key can have: words, and for the memory not zero. -/
def InRange : (k : Key) → k.Kind → Prop
  | .memory, n => 0 < n ∧ n < 2 ^ 64
  | .policy, _ => True
  | .timeout, n | .stepLimit, n => n < 2 ^ 64

instance (k : Key) (raw : List Char) (v : k.Kind) : Decidable (k.Writes raw v) :=
  match k, v with
  | .policy, _ => inferInstanceAs (Decidable (_ ∈ _))
  | .memory, n | .timeout, n | .stepLimit, n => inferInstanceAs (Decidable (IsDecimal raw n))

instance (k : Key) (v : k.Kind) : Decidable (k.InRange v) :=
  match k, v with
  | .memory, _ => inferInstanceAs (Decidable (_ ∧ _))
  | .policy, _ => inferInstanceAs (Decidable True)
  | .timeout, _ | .stepLimit, _ => inferInstanceAs (Decidable (_ < _))

/-- The plainest way to write a value. -/
def spell : (k : Key) → k.Kind → List Char
  | .policy, .growable => "growable".toList
  | .policy, .bounded => "bounded".toList
  | .memory, n | .timeout, n | .stepLimit, n => Nat.toDigits 10 n

variable {k : Key} {raw : List Char} {v : k.Kind}

theorem writes_spell (k : Key) (v : k.Kind) : k.Writes (k.spell v) v := by
  cases k with
  | policy =>
    cases v with
    | growable => exact List.mem_cons_self
    | bounded => exact List.mem_cons_self
  | memory | timeout | stepLimit => exact isDecimal_toDigits v

/-- The names of policies have letters only, in whatever case they are written. -/
theorem isAlpha_of_policy {p : Policy} (h : String.ofList (raw.map Char.toLower) ∈ p.names) :
    raw ≠ [] ∧ ∀ c ∈ raw, c.isAlpha := by
  have hletters : ∀ name ∈ p.names, name.toList ≠ [] ∧ name.toList.all Char.isLower := by
    cases p <;> decide
  obtain ⟨hne, hlower⟩ := hletters _ h
  rw [String.toList_ofList] at hne hlower
  refine ⟨fun hraw => hne (by rw [hraw]; rfl), fun c hc => ?_⟩
  have hl := List.all_eq_true.mp hlower _ (List.mem_map_of_mem hc)
  by_cases hupper : c.isUpper
  · exact Bool.or_eq_true_iff.mpr (.inl hupper)
  · have hsame : c.toLower = c := dif_neg fun hrange => hupper (decide_eq_true hrange)
    exact Bool.or_eq_true_iff.mpr (.inr (hsame ▸ hl))

/-- A value is written with letters and digits only. -/
theorem Writes.isAlphanum (h : k.Writes raw v) : raw ≠ [] ∧ ∀ c ∈ raw, c.isAlphanum := by
  cases k with
  | policy =>
    obtain ⟨hne, halpha⟩ := isAlpha_of_policy h
    exact ⟨hne, fun c hc => by simp [Char.isAlphanum, halpha c hc]⟩
  | memory | timeout | stepLimit =>
    obtain ⟨hne, hdigit, -⟩ := h
    exact ⟨hne, fun c hc => by simp [Char.isAlphanum, List.all_eq_true.mp hdigit c hc]⟩

theorem Writes.isBlank (h : k.Writes raw v) {c : Char} (hc : c ∈ raw) : isBlank c = false :=
  isBlank_of_isAlphanum (h.isAlphanum.2 c hc)

theorem Writes.not_mem (h : k.Writes raw v) {c : Char} (hc : c.isAlphanum = false) : c ∉ raw :=
  fun hmem => Bool.false_ne_true (hc.symm.trans (h.isAlphanum.2 c hmem))

/-- What is written is what is said, provided that it is in range. -/
theorem says_of_writes (h : k.Writes raw v) (hv : k.InRange v) : k.Says raw v := by
  cases k with
  | memory => exact ⟨IsDecimal.writesWord h hv.2, hv.1⟩
  | policy =>
    have htrim := Padding.trim_word .none .none fun c hc => h.isBlank hc
    rw [Padding.none, List.nil_append, List.append_nil] at htrim
    rw [Says, htrim]
    exact h
  | timeout | stepLimit => exact IsDecimal.writesWord h hv

/-- No name has a blank or an equals sign in it. -/
theorem name_plain (k : Key) {c : Char} (h : c ∈ k.name.toList) :
    Text.isBlank c = false ∧ c ≠ '=' := by
  have hall : k.name.toList.all fun c => !Text.isBlank c && c != '=' := by
    cases k <;> decide
  simpa using List.all_eq_true.mp hall c h

/-- Every name begins like a word. -/
theorem exists_head_name (k : Key) :
    ∃ c rest, k.name.toList = c :: rest ∧ Text.isBlank c = false ∧ c ≠ '#' ∧ c ≠ '[' := by
  cases k <;> exact ⟨_, _, rfl, by decide, by decide, by decide⟩

theorem name_injective {k k' : Key} (h : k.name.toList = k'.name.toList) : k = k' := by
  cases k <;> cases k' <;> simp [name] at h ⊢

end Key

/-- A line of the section that counts: what is set, how the value is written, with quotes or
without, and the blanks on the line. -/
structure Entry where
  key : Key
  value : key.Kind
  raw : List Char
  writes : key.Writes raw value
  quoted : Bool := false
  beforeKey : Padding := .none
  afterKey : Padding := .none
  beforeValue : Padding := .none
  afterValue : Padding := .none

namespace Entry

variable (e : Entry)

def setting : Sigma Key.Kind := ⟨e.key, e.value⟩

/-- The value as it stands on the line. -/
def shown : List Char := if e.quoted then '"' :: (e.raw ++ ['"']) else e.raw

/-- The line without the blanks around it. -/
def core : List Char :=
  (e.key.name.toList ++ e.afterKey.text) ++ '=' :: (e.beforeValue.text ++ e.shown)

def line : List Char := e.beforeKey.text ++ (e.core ++ e.afterValue.text)

/-- What the line leaves behind when it is read. -/
def assignment : Assignment := ⟨e.key.name.toList, e.raw⟩

/-- The line without anything that could be left out. -/
def plain (k : Key) (v : k.Kind) : Entry :=
  { key := k, value := v, raw := k.spell v, writes := k.writes_spell v }

theorem shown_isBlank : ∀ c ∈ e.shown, isBlank c = false := by
  have hraw (c : Char) (hc : c ∈ e.raw) : isBlank c = false := e.writes.isBlank hc
  intro c hc
  rw [shown] at hc
  split at hc
  · rw [← List.cons_append] at hc
    rcases List.mem_append.mp hc with hc | hc
    · rcases List.mem_cons.mp hc with rfl | hc
      · decide
      · exact hraw c hc
    · rw [List.mem_singleton.mp hc]
      decide
  · exact hraw c hc

theorem shown_ne_nil : e.shown ≠ [] := by
  rw [shown]
  split
  · exact List.cons_ne_nil _ _
  · exact e.writes.isAlphanum.1

theorem unquoted_shown : Unquoted e.shown e.raw := by
  rw [shown]
  split
  · exact .inl rfl
  · refine .inr ⟨rfl, fun inner hinner => ?_⟩
    exact e.writes.not_mem (c := '"') rfl (hinner ▸ List.mem_cons_self)

theorem trim_line : trim e.line = e.core := by
  have hlast : e.core.getLast? = e.shown.getLast? := by
    rw [core, ← List.cons_append, ← List.append_assoc,
      List.getLast?_append_of_ne_nil _ e.shown_ne_nil]
  refine trim_padded (fun _ => e.beforeKey.isBlank) (fun _ => e.afterValue.isBlank) (fun c hc => ?_)
    (fun c hc => e.shown_isBlank c (List.mem_of_mem_getLast? (hlast ▸ hc)))
  obtain ⟨first, rest, hname, hblank, -⟩ := e.key.exists_head_name
  rw [core, hname] at hc
  cases hc
  exact hblank

/-- Reading the line finds the key and the bare value. -/
theorem assigns : Assigns (trim e.line) e.key.name.toList e.raw := by
  obtain ⟨first, rest, hname, -, hcomment, hbracket⟩ := e.key.exists_head_name
  have hhead : e.core.head? = some first := by rw [core, hname]; rfl
  rw [trim_line]
  refine ⟨?_, ?_, ?_, e.key.name.toList ++ e.afterKey.text, e.beforeValue.text ++ e.shown, rfl, ?_,
    ?_, ?_⟩
  · intro hnil
    rw [hnil] at hhead
    exact nomatch hhead
  · rw [hhead]
    exact fun h => hcomment (Option.some.inj h)
  · rintro name ⟨inner, hline, -⟩
    rw [hline] at hhead
    exact hbracket (Option.some.inj hhead).symm
  · intro hmem
    rcases List.mem_append.mp hmem with hmem | hmem
    · exact (e.key.name_plain hmem).2 rfl
    · exact e.afterKey.not_mem (by decide) (by decide) hmem
  · exact (Padding.trim_word .none e.afterKey fun c hc => (e.key.name_plain hc).1).symm
  · have htrim := e.beforeValue.trim_word .none e.shown_isBlank
    rw [Padding.none, List.append_nil] at htrim
    rw [htrim]
    exact e.unquoted_shown

theorem feed_not_mem : '\n' ∉ e.line := by
  have hname : '\n' ∉ e.key.name.toList := fun h => nomatch (e.key.name_plain h).1
  have hshown : '\n' ∉ e.shown := fun h => nomatch e.shown_isBlank _ h
  simp [line, core, hname, hshown]

end Entry

/-- A line that says nothing. -/
inductive Idle where
  | blank (p : Padding)
  | comment (p : Padding) (text : List Char) (oneLine : '\n' ∉ text)

def Idle.line : Idle → List Char
  | .blank p => p.text
  | .comment p text _ => p.text ++ '#' :: text

theorem Idle.isIdle_trim (i : Idle) : isIdle (trim i.line) := by
  cases i with
  | blank p =>
    have htrim : trim p.text = [] := Padding.trim_word .none p (List.forall_mem_nil _)
    rw [line, htrim]
    rfl
  | comment p text _ =>
    rw [line, trim_blank_append (fun _ => p.isBlank), trim_cons (by decide)]
    rfl

theorem Idle.feed_not_mem (i : Idle) : '\n' ∉ i.line := by
  cases i with
  | blank p => exact p.feed_not_mem
  | comment p text oneLine => simp [line, oneLine]

/-- The header of a section, with the blanks around it. -/
structure SectionHeader where
  before : Padding := .none
  /-- What stands between the brackets. -/
  inner : List Char
  oneLine : '\n' ∉ inner := by decide
  after : Padding := .none

namespace SectionHeader

variable (h : SectionHeader)

def line : List Char := h.before.text ++ (('[' :: (h.inner ++ [']'])) ++ h.after.text)

theorem header_trim : Header (trim h.line) (trim h.inner) := by
  refine ⟨h.inner, ?_, rfl⟩
  refine trim_padded (fun _ => h.before.isBlank) (fun _ => h.after.isBlank) (fun c hc => ?_)
    (fun c hc => ?_)
  · cases hc
    decide
  · rw [← List.cons_append, List.getLast?_concat] at hc
    cases hc
    decide

theorem feed_not_mem : '\n' ∉ h.line := by
  simp [line, h.oneLine]

end SectionHeader

/-- A section of another name, with lines of whatever kind that are no headers. -/
structure ForeignSection where
  header : SectionHeader
  foreign : trim header.inner ≠ runSection
  body : List (List Char)
  oneLine : ∀ line ∈ body, '\n' ∉ line
  noHeader : ∀ line ∈ body, ∀ name, ¬Header (trim line) name

/-- What may stand around the section that counts. -/
inductive Surrounding where
  | idle (i : Idle)
  | foreign (f : ForeignSection)

def Surrounding.lines : Surrounding → List (List Char)
  | .idle i => [i.line]
  | .foreign f => f.header.line :: f.body

theorem Surrounding.feed_not_mem (s : Surrounding) {line : List Char} (h : line ∈ s.lines) :
    '\n' ∉ line := by
  cases s with
  | idle i =>
    rw [List.mem_singleton.mp h]
    exact i.feed_not_mem
  | foreign f =>
    rcases List.mem_cons.mp h with rfl | h
    · exact f.header.feed_not_mem
    · exact f.oneLine line h

/-- What may stand within the section that counts. -/
inductive RunLine where
  | idle (i : Idle)
  | entry (e : Entry)

namespace RunLine

def line : RunLine → List Char
  | .idle i => i.line
  | .entry e => e.line

def entry? : RunLine → Option Entry
  | .idle _ => none
  | .entry e => some e

theorem feed_not_mem (l : RunLine) : '\n' ∉ l.line := by
  cases l with
  | idle i => exact i.feed_not_mem
  | entry e => exact e.feed_not_mem

end RunLine

/-- A settings text, laid out in lines. -/
structure Document where
  before : List Surrounding
  header : SectionHeader
  counts : trim header.inner = runSection
  body : List RunLine
  after : List Surrounding

namespace Document

variable (d : Document)

def lines : List (List Char) :=
  d.before.flatMap Surrounding.lines ++
    d.header.line :: (d.body.map RunLine.line ++ d.after.flatMap Surrounding.lines)

def entries : List Entry := d.body.filterMap RunLine.entry?

theorem feed_not_mem {line : List Char} (h : line ∈ d.lines) : '\n' ∉ line := by
  rcases List.mem_append.mp h with h | h
  · obtain ⟨s, -, h⟩ := List.mem_flatMap.mp h
    exact s.feed_not_mem h
  · rcases List.mem_cons.mp h with rfl | h
    · exact d.header.feed_not_mem
    · rcases List.mem_append.mp h with h | h
      · obtain ⟨l, -, rfl⟩ := List.mem_map.mp h
        exact l.feed_not_mem
      · obtain ⟨s, -, h⟩ := List.mem_flatMap.mp h
        exact s.feed_not_mem h

/-- The document has one line for each field that is set, and no line for any other. -/
structure Sets (r : Settings) : Prop where
  once : (d.entries.map Entry.key).Nodup
  exactly : ∀ k v, (∃ e ∈ d.entries, e.setting = ⟨k, v⟩) ↔ k.get r = some v

end Document

end Settings
end Brainfuck

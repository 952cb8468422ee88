import Brainfuck.Proofs.SettingsLayout

/-!
# Settings written out and read back

Reading the text of a document gives the settings that it was written for and no warning. The lines
are gone through one by one: those around the section that counts leave no trace, its header opens
it, and each line within leaves the key and the bare value. Since no key has two lines, each of them
is the last one of its key.
-/
namespace Brainfuck.Settings
open Text

section Reading

variable {inside : Bool} {found : List Assignment} {rest : List (List Char)} {line : List Char}

/-- A line that says nothing is passed over. -/
theorem assignmentsFrom_idle (h : isIdle line) :
    assignmentsFrom inside found (line :: rest) = assignmentsFrom inside found rest := by
  rw [assignmentsFrom, if_pos h]

theorem assignmentsFrom_header {name : List Char} (h : Header line name) :
    assignmentsFrom inside found (line :: rest) =
      assignmentsFrom (name == runSection) found rest := by
  have hheader := header?_eq_some_iff.mpr h
  rw [assignmentsFrom_cons]
  simp [insideAfter, made?, hheader]

/-- Outside of the section that counts all lines are passed over up to the next header. -/
theorem assignmentsFrom_outside {body : List (List Char)}
    (h : ∀ line ∈ body, ∀ name, ¬Header line name) :
    assignmentsFrom false found (body ++ rest) = assignmentsFrom false found rest := by
  induction body with
  | nil => rfl
  | cons line body ih =>
    obtain ⟨hline, hbody⟩ := List.forall_mem_cons.mp h
    rw [List.cons_append, assignmentsFrom_cons, ← ih hbody]
    simp [insideAfter, made?, header?_eq_none_iff.mpr hline]

theorem assignmentsFrom_entry (e : Entry) :
    assignmentsFrom true found (trim e.line :: rest) =
      assignmentsFrom true (e.assignment :: found) rest := by
  have hmade : made? true (trim e.line) = some e.assignment :=
    made?_eq_some_iff.mpr ⟨rfl, e.assigns⟩
  have hinside : insideAfter true (trim e.line) = true :=
    insideAfter_eq_true_iff.mpr (.inr ⟨e.assigns.2.2.1, rfl⟩)
  rw [assignmentsFrom_cons, hmade, hinside]
  rfl

/-- An empty line at the end changes nothing. -/
theorem assignmentsFrom_append_idle {idle : List (List Char)} (h : idle = [] ∨ idle = [[]])
    (lines : List (List Char)) :
    assignmentsFrom inside found (lines ++ idle) = assignmentsFrom inside found lines := by
  induction lines generalizing inside found with
  | nil => rcases h with rfl | rfl <;> rfl
  | cons line lines ih => rw [List.cons_append, assignmentsFrom_cons, assignmentsFrom_cons, ih]

/-- The lines of a text are gone through one by one, whatever line ends they have. -/
theorem assignments_of_stacked {lines : List (List Char)} {text : List Char}
    (h : Stacked lines text) (hlines : ∀ line ∈ lines, '\n' ∉ line) :
    assignments text = assignmentsFrom false [] (lines.map trim) := by
  obtain ⟨idle₁, hidle₁, heq₁⟩ := trim_lines text
  obtain ⟨idle₂, hidle₂, heq₂⟩ := h.trim_splitOn hlines
  calc assignments text
      = assignmentsFrom false [] ((Text.lines text).map trim ++ idle₁) :=
        (assignmentsFrom_append_idle hidle₁ _).symm
    _ = assignmentsFrom false [] (lines.map trim ++ idle₂) := by rw [heq₁, heq₂]
    _ = assignmentsFrom false [] (lines.map trim) := assignmentsFrom_append_idle hidle₂ _

/-- What stands around the section leaves no trace. -/
theorem assignmentsFrom_surrounding (around : List Surrounding) (inside : Bool)
    (found : List Assignment) (rest : List (List Char)) :
    ∃ inside' : Bool,
      assignmentsFrom inside found ((around.flatMap Surrounding.lines).map trim ++ rest) =
        assignmentsFrom inside' found rest := by
  induction around generalizing inside with
  | nil => exact ⟨inside, rfl⟩
  | cons s around ih =>
    cases s with
    | idle i =>
      obtain ⟨inside', heq⟩ := ih inside
      exact ⟨inside', (assignmentsFrom_idle i.isIdle_trim).trans heq⟩
    | foreign f =>
      obtain ⟨inside', heq⟩ := ih false
      have hname : (trim f.header.inner == runSection) = false := by simpa using f.foreign
      have hbody : ∀ line ∈ f.body.map trim, ∀ name, ¬Header line name := by
        intro line hline
        obtain ⟨raw, hraw, rfl⟩ := List.mem_map.mp hline
        exact f.noHeader raw hraw
      refine ⟨inside', ?_⟩
      rw [← heq, List.flatMap_cons, Surrounding.lines, List.cons_append, List.map_cons,
        List.cons_append, assignmentsFrom_header f.header.header_trim, hname, List.map_append,
        List.append_assoc, assignmentsFrom_outside hbody]

theorem assignmentsFrom_body (body : List RunLine) :
    assignmentsFrom true found ((body.map RunLine.line).map trim ++ rest) =
      assignmentsFrom true
        (((body.filterMap RunLine.entry?).map Entry.assignment).reverse ++ found) rest := by
  induction body generalizing found with
  | nil => rfl
  | cons l body ih =>
    cases l with
    | idle i => exact (assignmentsFrom_idle i.isIdle_trim).trans ih
    | entry e =>
      refine (assignmentsFrom_entry e).trans (ih.trans ?_)
      simp [RunLine.entry?]

end Reading

namespace Document

variable {d : Document} {text : List Char}

/-- What the lines of a document leave behind, the last one first. -/
def found (d : Document) : List Assignment := (d.entries.map Entry.assignment).reverse

theorem mem_found_iff {a : Assignment} : a ∈ d.found ↔ ∃ e ∈ d.entries, e.assignment = a := by
  rw [found, List.mem_reverse, List.mem_map]

theorem assignmentsFrom_lines (d : Document) :
    assignmentsFrom false [] (d.lines.map trim) = d.found := by
  obtain ⟨inside, hbefore⟩ := assignmentsFrom_surrounding d.before false []
    ((d.header.line :: (d.body.map RunLine.line ++ d.after.flatMap Surrounding.lines)).map trim)
  obtain ⟨inside', hafter⟩ := assignmentsFrom_surrounding d.after true d.found []
  have hcounts : (trim d.header.inner == runSection) = true := by simpa using d.counts
  rw [List.append_nil] at hafter
  rw [lines, List.map_append, hbefore, List.map_cons, assignmentsFrom_header d.header.header_trim,
    hcounts, List.map_append, assignmentsFrom_body, List.append_nil]
  exact hafter

/-- Reading the text of a document finds just this. -/
theorem assignments_eq (h : Stacked d.lines text) : assignments text = d.found :=
  (assignments_of_stacked h fun _ => d.feed_not_mem).trans d.assignmentsFrom_lines

end Document

/-- Where each key is assigned to once, every assignment is the last one to its key. -/
theorem lastValue?_of_mem {found : List Assignment} (hn : (found.map Assignment.key).Nodup)
    {a : Assignment} (h : a ∈ found) : lastValue? found a.key = some a.value := by
  induction found with
  | nil => exact nomatch h
  | cons b found ih =>
    rw [List.map_cons, List.nodup_cons] at hn
    rw [lastValue?_cons]
    rcases List.mem_cons.mp h with rfl | h
    · exact if_pos rfl
    · have hne : b.key ≠ a.key := fun hkey => hn.1 (hkey ▸ List.mem_map_of_mem h)
      rw [if_neg hne]
      exact ih hn.2 h

theorem lastValue?_eq_none {found : List Assignment} {key : List Char}
    (h : ∀ a ∈ found, a.key ≠ key) : lastValue? found key = none := by
  simpa [lastValue?] using h

/-- All values are such as their keys can have. -/
def InRange (r : Settings) : Prop := ∀ (k : Key) (v : k.Kind), k.get r = some v → k.InRange v

theorem eq_of_get {r s : Settings} (h : ∀ k : Key, k.get r = k.get s) : r = s := by
  cases r
  cases s
  have hmemory := h .memory
  have hpolicy := h .policy
  have htimeout := h .timeout
  have hstepLimit := h .stepLimit
  simp only [Key.get] at hmemory hpolicy htimeout hstepLimit
  rw [hmemory, hpolicy, htimeout, hstepLimit]

namespace Document

variable {d : Document} {r : Settings}

theorem Sets.nodup_keys (h : d.Sets r) : (d.found.map Assignment.key).Nodup := by
  have hnames : (d.entries.map Entry.assignment).map Assignment.key =
      (d.entries.map Entry.key).map fun k => k.name.toList := by
    simp [Entry.assignment]
  rw [found, List.map_reverse, List.nodup_reverse, hnames]
  exact h.once.map fun k k' => Key.name_injective

/-- A field of the settings is what its line says, without a warning; a field that is not set has no
line. -/
theorem Sets.field_eq (h : d.Sets r) (hr : r.InRange) (k : Key) :
    field d.found k.name k.read? = (k.get r, []) := by
  cases hk : k.get r with
  | none =>
    have hlast : lastValue? d.found k.name.toList = none := by
      refine lastValue?_eq_none fun a ha hkey => ?_
      obtain ⟨e, he, rfl⟩ := mem_found_iff.mp ha
      cases Key.name_injective hkey
      have hset := (h.exactly e.key e.value).mp ⟨e, he, rfl⟩
      exact nomatch hk.symm.trans hset
    rw [field, hlast]
  | some v =>
    obtain ⟨e, he, hsetting⟩ := (h.exactly k v).mpr hk
    cases hsetting
    have hlast : lastValue? d.found e.key.name.toList = some e.raw :=
      lastValue?_of_mem h.nodup_keys (mem_found_iff.mpr ⟨e, he, rfl⟩)
    have hread := Key.read?_eq_some_iff.mpr (Key.says_of_writes e.writes (hr _ _ hk))
    rw [field, hlast]
    simp only [hread]

theorem unknownKeys_eq_nil (d : Document) : unknownKeys d.found = [] := by
  refine List.eq_nil_iff_forall_not_mem.mpr fun key hkey => ?_
  obtain ⟨⟨a, ha, rfl⟩, hunknown⟩ := mem_unknownKeys_iff.mp hkey
  obtain ⟨e, -, rfl⟩ := mem_found_iff.mp ha
  exact hunknown e.key rfl

/-- Reading a document gives what it sets, without a warning. -/
theorem Sets.parse_eq (h : d.Sets r) (hr : r.InRange) {text : String}
    (ht : Stacked d.lines text.toList) : parse text = (r, []) := by
  have hfound := assignments_eq ht
  have hfield := h.field_eq hr
  apply Prod.ext
  · refine eq_of_get fun k => ?_
    rw [get_parse, hfound, hfield]
  · rw [parse_snd, hfound, d.unknownKeys_eq_nil]
    simp [hfield]

/-- The plainest document for some settings. -/
def plain (r : Settings) : Document where
  before := []
  header := { inner := runSection }
  counts := by decide
  body := Key.all.filterMap fun k => (k.get r).map fun v => .entry (.plain k v)
  after := []

theorem entries_plain (r : Settings) :
    (plain r).entries = Key.all.filterMap fun k => (k.get r).map (Entry.plain k) := by
  simp only [entries, plain, List.filterMap_filterMap]
  congr 1
  funext k
  cases k.get r <;> rfl

theorem sets_plain (r : Settings) : (plain r).Sets r where
  once := by
    have hkeys : Key.all.Pairwise fun k k' => k.name ≠ k'.name := by decide
    rw [entries_plain, List.Nodup, List.pairwise_map, List.pairwise_filterMap]
    refine hkeys.imp fun {k k'} hne e he e' he' => ?_
    obtain ⟨v, -, rfl⟩ := Option.map_eq_some_iff.mp he
    obtain ⟨v', -, rfl⟩ := Option.map_eq_some_iff.mp he'
    exact fun hkey => hne (congrArg Key.name hkey)
  exactly k v := by
    rw [entries_plain]
    constructor
    · rintro ⟨e, he, hsetting⟩
      obtain ⟨k', -, he⟩ := List.mem_filterMap.mp he
      obtain ⟨v', hv', rfl⟩ := Option.map_eq_some_iff.mp he
      cases hsetting
      exact hv'
    · intro hv
      refine ⟨.plain k v, List.mem_filterMap.mpr ⟨k, k.mem_all, ?_⟩, rfl⟩
      rw [hv, Option.map_some]

end Document

/-- All settings can be written out, and however this is done, reading them gives them back without
a warning. -/
theorem parse_written_settings {r : Settings} (hr : r.InRange) :
    (∃ (d : Document) (text : String), d.Sets r ∧ Stacked d.lines text.toList) ∧
      ∀ (d : Document) (text : String), d.Sets r → Stacked d.lines text.toList →
        parse text = (r, []) := by
  obtain ⟨text, htext⟩ := exists_stacked (Document.plain r).lines
  exact ⟨⟨.plain r, text, Document.sets_plain r, htext⟩, fun d text h => h.parse_eq hr⟩

/-- The largest memory and a policy in quotes, with letters of both cases, among a comment and
foreign sections that look much the same. -/
theorem parse_among_foreign_sections :
    InRange { memory := some 18446744073709551615, policy := some .bounded } ∧
      parse ("# é\r\n[ colors]\nmemory = 5\n\t[ run ]\r\n  tape=\"FiXeD\" \n\n" ++
        "memory =\t18446744073709551615\r\n[other]\n[run] #") =
        ({ memory := some 18446744073709551615, policy := some .bounded }, []) := by
  have hr : InRange { memory := some 18446744073709551615, policy := some .bounded } := by
    intro k v hv
    cases k with
    | timeout | stepLimit => exact nomatch hv
    | memory | policy =>
      cases hv
      decide
  let tape : Entry :=
    { key := .policy, value := .bounded, raw := "FiXeD".toList, writes := by decide +kernel
      quoted := true, beforeKey := ⟨[' ', ' '], by simp⟩, afterValue := ⟨[' '], by simp⟩ }
  let memory : Entry :=
    { key := .memory, value := 18446744073709551615, raw := "18446744073709551615".toList
      writes := by decide +kernel
      afterKey := ⟨[' '], by simp⟩, beforeValue := ⟨['\t'], by simp⟩ }
  let d : Document :=
    { before :=
        [.idle (.comment .none " é".toList (by decide)),
          .foreign
            { header := { inner := " colors".toList }
              foreign := by decide
              body := ["memory = 5".toList]
              oneLine := by decide
              noHeader := fun line hline => header?_eq_none_iff.mp (by revert line; decide) }]
      header := { before := ⟨['\t'], by simp⟩, inner := " run ".toList }
      counts := by decide
      body := [.entry tape, .idle (.blank .none), .entry memory]
      after :=
        [.foreign
          { header := { inner := "other".toList }
            foreign := by decide
            body := ["[run] #".toList]
            oneLine := by decide
            noHeader := fun line hline => header?_eq_none_iff.mp (by revert line; decide) }] }
  have hsets : d.Sets { memory := some 18446744073709551615, policy := some .bounded } := by
    refine ⟨?_, fun k v => ?_⟩
    · show [Key.policy, .memory].Nodup
      simp
    · show (∃ e ∈ [tape, memory], Entry.setting e = _) ↔ _
      cases k <;> simp [tape, memory, Entry.setting, Key.get, eq_comm]
  have hlines : d.lines = ["# é", "[ colors]", "memory = 5", "\t[ run ]", "  tape=\"FiXeD\" ", "",
      "memory =\t18446744073709551615", "[other]", "[run] #"].map String.toList := by
    decide +kernel
  have htext : ("# é\r\n[ colors]\nmemory = 5\n\t[ run ]\r\n  tape=\"FiXeD\" \n\n" ++
      "memory =\t18446744073709551615\r\n[other]\n[run] #").toList =
        "# é".toList ++ '\r' :: '\n' :: ("[ colors]".toList ++ '\n' :: ("memory = 5".toList ++
          '\n' :: ("\t[ run ]".toList ++ '\r' :: '\n' :: ("  tape=\"FiXeD\" ".toList ++ '\n' ::
          ("".toList ++ '\n' :: ("memory =\t18446744073709551615".toList ++ '\r' :: '\n' ::
          ("[other]".toList ++ '\n' :: "[run] #".toList))))))) := by
    decide +kernel
  refine ⟨hr, (parse_written_settings hr).2 d _ hsets ?_⟩
  rw [hlines, htext]
  exact .returnFeed _ (.feed _ (.feed _ (.returnFeed _ (.feed _ (.feed _ (.returnFeed _
    (.feed _ (.last _))))))))

end Brainfuck.Settings

import TagFormula.Proofs.FreeText
import TagFormula.Proofs.Numerals
import TagFormula.Proofs.Splitting
import TagFormula.Report.Printer

/-!
Reports that are counted by line. A report is made of entries, each meant as one line, and the word in front
says what the line is about. Texts from outside stand in it in three ways: indented line by line, with newlines
escaped, or as they are. Main statement: whatever the texts, the lines with a word in front are as many as the
report counts, and those lines that a text of the third kind starts after a newline of its own.
-/

namespace TagFormula

/-! ### Entries -/

namespace Text

/-- A text up to its first newline. -/
def firstLine (t : Text) : Text := t.takeWhile (· != ch '\n')

/-- The lines that a text takes up behind its first one. -/
def continuation (t : Text) : List Text := (lines (t ++ [ch '\n'])).tail

theorem bne_newline_of_mem {t : Text} (h : ch '\n' ∉ t) : ∀ b ∈ t, b != ch '\n' := by
  intro b hb
  rw [bne_iff_ne]
  rintro rfl
  exact h hb

theorem firstLine_of_notMem {t : Text} (h : ch '\n' ∉ t) : firstLine t = t :=
  List.takeWhile_eq_self_iff.2 (bne_newline_of_mem h)

theorem firstLine_line {u : Text} (hu : ch '\n' ∉ u) (v : Text) : firstLine (u ++ ch '\n' :: v) = u := by
  rw [firstLine, List.takeWhile_append_of_pos (bne_newline_of_mem hu),
    List.takeWhile_cons_of_neg (by simp), List.append_nil]

theorem continuation_line {u : Text} (hu : ch '\n' ∉ u) (v : Text) :
    continuation (u ++ ch '\n' :: v) = lines (v ++ [ch '\n']) := by
  rw [continuation, List.append_assoc, List.cons_append, lines_line hu, List.tail_cons]

theorem continuation_of_notMem {t : Text} (h : ch '\n' ∉ t) : continuation t = [] := by
  rw [continuation, lines_line h]
  rfl

/-- The lines of an entry. -/
theorem lines_entry (t : Text) : lines (t ++ [ch '\n']) = firstLine t :: continuation t := by
  by_cases h : ch '\n' ∈ t
  · obtain ⟨u, v, rfl, hu⟩ := List.eq_append_cons_of_mem h
    rw [firstLine_line hu, continuation_line hu, List.append_assoc, List.cons_append, lines_line hu]
  · rw [firstLine_of_notMem h, continuation_of_notMem h, lines_line h]
    rfl

theorem continuation_eq_nil_iff {t : Text} : continuation t = [] ↔ ch '\n' ∉ t := by
  refine ⟨fun hnil h => ?_, continuation_of_notMem⟩
  obtain ⟨u, v, rfl, hu⟩ := List.eq_append_cons_of_mem h
  rw [continuation_line hu, lines_entry] at hnil
  cases hnil

theorem lines_unlines (ts : List Text) :
    lines (unlines ts) = ts.flatMap fun t => firstLine t :: continuation t := by
  induction ts with
  | nil => rfl
  | cons t ts ih => rw [unlines_cons, lines_append, ih, lines_entry, List.flatMap_cons]

/-- How a text without a newline starts is how its first line starts. -/
theorem isPrefixOf_firstLine {m : Text} (hm : ch '\n' ∉ m) (t : Text) :
    m.isPrefixOf (firstLine t) = m.isPrefixOf t := by
  rw [Bool.eq_iff_iff, List.isPrefixOf_iff_prefix, List.isPrefixOf_iff_prefix]
  constructor
  · exact fun h => h.trans (List.takeWhile_prefix _)
  · rintro ⟨rest, rfl⟩
    rw [firstLine, List.takeWhile_append_of_pos (bne_newline_of_mem hm)]
    exact List.prefix_append ..

theorem notMem_joinWith {c : UInt8} {sep : Text} {ts : List Text} (hsep : c ∉ sep) (h : ∀ t ∈ ts, c ∉ t) :
    c ∉ joinWith sep ts := by
  cases ts with
  | nil => exact List.not_mem_nil
  | cons t ts =>
    rw [List.forall_mem_cons] at h
    rw [joinWith_cons, List.mem_append, List.mem_flatMap]
    rintro (hc | ⟨u, hu, hc⟩)
    · exact h.1 hc
    · rcases List.mem_append.1 hc with hc | hc
      · exact hsep hc
      · exact h.2 u hu hc

theorem notMem_of_mem_lines_go {current : Text} (hcurrent : ch '\n' ∉ current) (t : Text) :
    ∀ line ∈ lines.go current t, ch '\n' ∉ line := by
  fun_induction lines.go current t with
  | case1 current hempty => exact fun _ h => absurd h List.not_mem_nil
  | case2 current hempty =>
    rintro line hline
    rwa [List.mem_singleton.1 hline, List.mem_reverse]
  | case3 current b rest hb ih =>
    rw [List.forall_mem_cons, List.mem_reverse]
    exact ⟨hcurrent, ih List.not_mem_nil⟩
  | case4 current b rest hb ih =>
    refine ih ?_
    rw [List.mem_cons, not_or]
    exact ⟨fun h => hb (by rw [← h, beq_self_eq_true]), hcurrent⟩

theorem notMem_of_mem_lines (t : Text) : ∀ line ∈ lines t, ch '\n' ∉ line :=
  notMem_of_mem_lines_go List.not_mem_nil t

end Text

/-! ### Values -/

namespace Value

open Text

theorem notMem_enclosed {c : UInt8} {start t stop : Text} (hstart : c ∉ start) (h : c ∉ t) (hstop : c ∉ stop) :
    c ∉ start ++ t ++ stop := by
  simp [hstart, h, hstop]

theorem notMem_quoted (t : Text) : ch '\n' ∉ quoted t := by
  change ch '\n' ∉ [ch '"'] ++ t.flatMap quoted.escape ++ [ch '"']
  refine notMem_enclosed (by decide) (fun h => ?_) (by decide)
  obtain ⟨b, -, hb⟩ := List.mem_flatMap.1 h
  unfold quoted.escape at hb
  split_ifs at hb with hescaped hnewline
  · rcases Bool.or_eq_true_iff.1 hescaped with h | h <;> rw [beq_iff_eq.1 h] at hb <;> revert hb <;> decide
  · revert hb
    decide
  · exact hnewline (beq_iff_eq.2 (List.mem_singleton.1 hb).symm)

mutual
/-- A value is described on one line. -/
theorem notMem_describe (v : Value) : ch '\n' ∉ v.describe := by
  cases v with
  | empty => decide
  | integer i => exact notMem_enclosed (by decide) ((numeral_ofInt _).notMem (by decide)) (by decide)
  | float d => exact notMem_enclosed (by decide) ((numeral_toExact d).notMem (by decide)) (by decide)
  | string t => exact notMem_enclosed (by decide) (notMem_quoted t) (by decide)
  | bytes t =>
    have hbytes : ∀ u ∈ t.map fun b => ofNat b.toNat, ch '\n' ∉ u :=
      List.forall_mem_map.2 fun b _ => (numeral_ofNat _).notMem (by decide)
    exact notMem_enclosed (by decide) (notMem_joinWith (by decide) hbytes) (by decide)
  | list items =>
    exact notMem_enclosed (by decide) (notMem_joinWith (by decide) (notMem_describeAll items)) (by decide)

theorem notMem_describeAll : ∀ (vs : List Value), ∀ t ∈ describeAll vs, ch '\n' ∉ t
  | [] => fun _ h => nomatch h
  | v :: vs => List.forall_mem_cons.2 ⟨notMem_describe v, notMem_describeAll vs⟩
end

end Value

/-! ### The entries of a report -/

namespace Report

open Text

/-- What a line that is to be counted begins with. -/
inductive Mark where
  | pass
  | fail
  | error
  deriving DecidableEq

namespace Mark

def text : Mark → Text
  | pass => ascii "PASS "
  | fail => ascii "FAIL "
  | error => ascii "ERROR "

def begins (m : Mark) (line : Text) : Bool := m.text.isPrefixOf line

/-- How many lines a report means to begin so. -/
def number (r : Report) : Mark → Nat
  | pass => r.passedCount
  | fail => r.failedCount
  | error => r.unreadable.length

theorem begins_firstLine (m : Mark) (t : Text) : m.begins (firstLine t) = m.begins t :=
  isPrefixOf_firstLine (by cases m <;> decide) t

theorem begins_append (m n : Mark) (t : Text) : m.begins (n.text ++ t) = decide (m = n) := by
  by_cases h : m = n
  · subst h
    rw [begins, decide_eq_true rfl, List.isPrefixOf_iff_prefix]
    exact List.prefix_append ..
  · have hapart : Apart m.text n.text := by
      cases m <;> cases n <;> first | decide | exact absurd rfl h
    rw [decide_eq_false h, begins, ← Bool.not_eq_true, List.isPrefixOf_iff_prefix]
    rintro ⟨rest, hrest⟩
    exact hapart rest t hrest

/-- All marks begin with a capital letter. -/
theorem begins_of_head? (m : Mark) {t : Text} {b : UInt8} (ht : t.head? = some b) (hb : Byte.isUpper b = false) :
    m.begins t = false := by
  rw [← Bool.not_eq_true, begins, List.isPrefixOf_iff_prefix]
  rintro ⟨rest, rfl⟩
  have hmark : ∃ c ∈ m.text.head?, Byte.isUpper c := by cases m <;> exact ⟨_, rfl, by decide⟩
  obtain ⟨c, hc, hupper⟩ := hmark
  rw [List.head?_append, hc, Option.some_or, Option.some_inj] at ht
  rw [← ht, hupper] at hb
  cases hb

end Mark

/-- A heading and the lines of a text, if there is one. -/
def labelledEntries (heading : String) (t : Text) : List Text :=
  if t.isEmpty then [] else ascii heading :: (lines t).map (ascii "    " ++ ·)

def Unreadable.entry (u : Unreadable) : Text := Mark.error.text ++ (u.path ++ ascii ": " ++ u.message)

namespace Outcome

def caseEntry (o : Outcome) : Text := ascii "  case \"" ++ o.description ++ ascii "\""

def valueEntries (o : Outcome) : List Text :=
  [ascii "    input:    " ++ o.input.describe, ascii "    expected: " ++ o.expected.describe]
    ++ (o.actual.map fun v => ascii "    actual:   " ++ v.describe).toList

def errorEntries (o : Outcome) : List Text :=
  if o.error.isEmpty then [] else [ascii "    error:    " ++ o.error]

def entries (o : Outcome) : List Text :=
  if o.passed then [] else o.caseEntry :: (o.valueEntries ++ o.errorEntries)

/-- The entries with a text from outside as it is. -/
def pasted (o : Outcome) : List Text := if o.passed then [] else o.caseEntry :: o.errorEntries

/-- The texts that are set as they are have no newline. -/
def OneLine (o : Outcome) : Prop := o.passed ∨ ch '\n' ∉ o.description ∧ ch '\n' ∉ o.error

end Outcome

namespace Item

def mark (item : Item) : Mark := if item.passed then .pass else .fail

def headEntry (item : Item) : Text :=
  item.mark.text ++ (item.formula.role.name ++ ascii " " ++ item.formula.text
    ++ if item.source.isEmpty then [] else ascii "  (" ++ item.source ++ ascii ")")

/-- The entries below the first. -/
def details (item : Item) : List Text :=
  if item.passed then item.errorKind.toList.map fun kind => ascii "  expected generation error: " ++ kind.name
  else
    (ascii "  status: " ++ item.status.name)
      :: (labelledEntries "  error:" item.error ++ item.outcomes.flatMap Outcome.entries
        ++ labelledEntries "  generated:" item.generated)

def entries (item : Item) : List Text := item.headEntry :: item.details

/-- The entries with a text from outside as it is. -/
def pasted (item : Item) : List Text :=
  item.headEntry :: if item.passed then [] else item.outcomes.flatMap Outcome.pasted

/-- The texts that are set as they are have no newline. -/
def OneLine (item : Item) : Prop :=
  ch '\n' ∉ item.formula.text ∧ ch '\n' ∉ item.source ∧ (item.passed ∨ ∀ o ∈ item.outcomes, o.OneLine)

end Item

/-- The texts that are set as they are have no newline. -/
def Unreadable.OneLine (u : Unreadable) : Prop := ch '\n' ∉ u.path ∧ ch '\n' ∉ u.message

/-- The end of the last line. -/
def unreadablePart (n : Nat) : Text := if n = 0 then [] else ascii ", " ++ ofNat n ++ ascii " unreadable"

/-- The last line for given counts. -/
def countsLine (passed failed unreadable : Nat) : Text :=
  ofNat passed ++ ascii " passed, " ++ ofNat failed ++ ascii " failed" ++ unreadablePart unreadable

def entries (r : Report) : List Text :=
  r.unreadable.map Unreadable.entry ++ r.items.flatMap Item.entries
    ++ [countsLine r.passedCount r.failedCount r.unreadable.length]

/-- The entries with a text from outside as it is, in order. -/
def pasted (r : Report) : List Text := r.unreadable.map Unreadable.entry ++ r.items.flatMap Item.pasted

/-- The lines that texts from outside start. -/
def continuations (r : Report) : List Text := r.pasted.flatMap continuation

/-! ### A report is its entries -/

theorem ascii_newline : ascii "\n" = [ch '\n'] := rfl

theorem labelled_eq (heading : String) (t : Text) : labelled heading t = unlines (labelledEntries heading t) := by
  rw [labelled, labelledEntries]
  split
  · rfl
  · rw [unlines_cons, List.append_assoc]
    rfl

theorem Outcome.toText_eq (o : Outcome) : o.toText = unlines o.entries := by
  rw [Outcome.toText, entries]
  split
  · rfl
  · have hclose : ascii "\"\n" = ascii "\"" ++ [ch '\n'] := rfl
    cases hactual : o.actual <;> cases herror : o.error.isEmpty <;>
      simp [caseEntry, valueEntries, errorEntries, hactual, herror, unlines, ascii_newline, hclose]

theorem Item.headline_eq (item : Item) : item.headline = item.headEntry ++ ascii "\n" := by
  rw [headline, headEntry, mark]
  cases item.passed <;> simp [Mark.text]

theorem unlines_flatMap {α : Type} {toText : α → Text} {entries : α → List Text}
    (h : ∀ a, toText a = unlines (entries a)) (as : List α) :
    as.flatMap toText = unlines (as.flatMap entries) := by
  induction as with
  | nil => rfl
  | cons a as ih => rw [List.flatMap_cons, List.flatMap_cons, unlines_append, h, ih]

theorem Item.toText_eq (item : Item) : item.toText = unlines item.entries := by
  rw [toText, headline_eq, entries, details, unlines_cons]
  split
  · cases item.errorKind <;> simp [unlines, ascii_newline]
  · rw [labelled_eq, labelled_eq, unlines_flatMap Outcome.toText_eq]
    simp [unlines_append, unlines_cons, ascii_newline]

theorem summary_eq (r : Report) :
    r.summary = countsLine r.passedCount r.failedCount r.unreadable.length ++ [ch '\n'] := by
  rw [summary, countsLine]
  cases r.unreadable <;> rfl

theorem toText_eq (r : Report) : r.toText = unlines r.entries := by
  have hunreadable (u : Unreadable) : u.toText = unlines [u.entry] := by
    simp [Unreadable.toText, Unreadable.entry, Mark.text, unlines, ascii_newline]
  rw [toText, entries, unlines_concat, unlines_append, unlines_flatMap hunreadable,
    unlines_flatMap Item.toText_eq, summary_eq, List.append_assoc _ (countsLine ..), List.map_eq_flatMap]

/-! ### Newlines in entries -/

theorem flatMap_continuation_eq_nil_iff {ts : List Text} :
    ts.flatMap continuation = [] ↔ ∀ t ∈ ts, ch '\n' ∉ t := by
  simp only [List.flatMap_eq_nil_iff, continuation_eq_nil_iff]

/-- Indented texts keep their lines. -/
theorem notMem_of_mem_labelledEntries (heading : String) (hheading : ch '\n' ∉ ascii heading) (t : Text) :
    ∀ entry ∈ labelledEntries heading t, ch '\n' ∉ entry := by
  unfold labelledEntries
  split
  · exact fun _ h => absurd h List.not_mem_nil
  · refine List.forall_mem_cons.2 ⟨hheading, List.forall_mem_map.2 fun line hline => ?_⟩
    rw [List.mem_append, not_or]
    exact ⟨by decide, notMem_of_mem_lines t line hline⟩

theorem Outcome.forall_mem_valueEntries (o : Outcome) {p : Text → Prop}
    (hinput : ∀ v : Value, p (ascii "    input:    " ++ v.describe))
    (hexpected : ∀ v : Value, p (ascii "    expected: " ++ v.describe))
    (hactual : ∀ v : Value, p (ascii "    actual:   " ++ v.describe)) : ∀ t ∈ o.valueEntries, p t := by
  intro t ht
  simp only [valueEntries, List.mem_append, List.mem_cons, List.not_mem_nil, or_false, Option.mem_toList,
    Option.map_eq_some_iff] at ht
  rcases ht with (rfl | rfl) | ⟨v, -, rfl⟩
  · exact hinput o.input
  · exact hexpected o.expected
  · exact hactual v

theorem Outcome.notMem_of_mem_valueEntries (o : Outcome) : ∀ t ∈ o.valueEntries, ch '\n' ∉ t := by
  have hvalue {label : Text} (hlabel : ch '\n' ∉ label) (v : Value) : ch '\n' ∉ label ++ v.describe := by
    rw [List.mem_append, not_or]
    exact ⟨hlabel, v.notMem_describe⟩
  exact o.forall_mem_valueEntries (hvalue (by decide)) (hvalue (by decide)) (hvalue (by decide))

theorem Outcome.flatMap_continuation (o : Outcome) :
    o.entries.flatMap continuation = o.pasted.flatMap continuation := by
  have hvalues := flatMap_continuation_eq_nil_iff.2 o.notMem_of_mem_valueEntries
  unfold entries pasted
  split
  · rfl
  · rw [List.flatMap_cons, List.flatMap_append, hvalues, List.nil_append, List.flatMap_cons]

theorem flatMap_flatMap_congr {α β γ : Type} {f g : α → List β} {k : β → List γ}
    (h : ∀ a, (f a).flatMap k = (g a).flatMap k) (as : List α) :
    (as.flatMap f).flatMap k = (as.flatMap g).flatMap k := by
  simp only [List.flatMap_assoc, h]

theorem Item.flatMap_continuation (item : Item) :
    item.entries.flatMap continuation = item.pasted.flatMap continuation := by
  rw [entries, pasted, List.flatMap_cons, List.flatMap_cons, details]
  congr 1
  split
  · refine flatMap_continuation_eq_nil_iff.2 (List.forall_mem_map.2 fun kind _ => ?_)
    cases kind <;> decide
  · have hstatus : ch '\n' ∉ ascii "  status: " ++ item.status.name := by cases item.status <;> decide
    have herror := notMem_of_mem_labelledEntries "  error:" (by decide) item.error
    have hgenerated := notMem_of_mem_labelledEntries "  generated:" (by decide) item.generated
    rw [List.flatMap_cons, List.flatMap_append, List.flatMap_append, continuation_of_notMem hstatus,
      flatMap_continuation_eq_nil_iff.2 herror, flatMap_continuation_eq_nil_iff.2 hgenerated,
      flatMap_flatMap_congr Outcome.flatMap_continuation, List.nil_append, List.nil_append, List.append_nil]

theorem notMem_countsLine (passed failed unreadable : Nat) :
    ch '\n' ∉ countsLine passed failed unreadable := by
  have hnat (n : Nat) : ch '\n' ∉ ofNat n := (numeral_ofNat n).notMem (by decide)
  have hwords : ∀ w ∈ [ascii " passed, ", ascii " failed", ascii ", ", ascii " unreadable"], ch '\n' ∉ w := by decide
  simp only [List.forall_mem_cons] at hwords
  unfold countsLine unreadablePart
  split_ifs <;> simp [hnat, hwords]

theorem flatMap_continuation (r : Report) : r.entries.flatMap continuation = r.continuations := by
  rw [entries, continuations, pasted, List.flatMap_append, List.flatMap_append, List.flatMap_append,
    List.flatMap_singleton, continuation_of_notMem (notMem_countsLine _ _ _), List.append_nil,
    flatMap_flatMap_congr Item.flatMap_continuation]

theorem Unreadable.notMem_entry_iff (u : Unreadable) : ch '\n' ∉ u.entry ↔ u.OneLine := by
  have hmark : ch '\n' ∉ Mark.error.text := by decide
  have hcolon : ch '\n' ∉ ascii ": " := by decide
  simp [entry, OneLine, hmark, hcolon]

theorem Outcome.forall_mem_pasted_iff (o : Outcome) : (∀ t ∈ o.pasted, ch '\n' ∉ t) ↔ o.OneLine := by
  have hcase : ch '\n' ∉ o.caseEntry ↔ ch '\n' ∉ o.description := by
    have hopen : ch '\n' ∉ ascii "  case \"" := by decide
    have hclose : ch '\n' ∉ ascii "\"" := by decide
    simp [caseEntry, hopen, hclose]
  have herror : (∀ t ∈ o.errorEntries, ch '\n' ∉ t) ↔ ch '\n' ∉ o.error := by
    have hlabel : ch '\n' ∉ ascii "    error:    " := by decide
    unfold errorEntries
    split_ifs with hempty
    · simp [List.isEmpty_iff.1 hempty]
    · simp [hlabel]
  unfold pasted OneLine
  split_ifs with hpassed
  · simp [hpassed]
  · rw [List.forall_mem_cons, hcase, herror, or_iff_right hpassed]

theorem Item.notMem_headEntry_iff (item : Item) :
    ch '\n' ∉ item.headEntry ↔ ch '\n' ∉ item.formula.text ∧ ch '\n' ∉ item.source := by
  have hmark : ch '\n' ∉ item.mark.text := by cases item.mark <;> decide
  have hrole : ch '\n' ∉ item.formula.role.name ++ ascii " " := by cases item.formula.role <;> decide
  have hsource : (ch '\n' ∉ if item.source.isEmpty then [] else ascii "  (" ++ item.source ++ ascii ")")
      ↔ ch '\n' ∉ item.source := by
    have hopen : ch '\n' ∉ ascii "  (" := by decide
    have hclose : ch '\n' ∉ ascii ")" := by decide
    split_ifs with hempty
    · simp [List.isEmpty_iff.1 hempty]
    · simp [hopen, hclose]
  rw [headEntry, List.mem_append, List.mem_append, List.mem_append, not_or, not_or, not_or, hsource]
  tauto

theorem Item.forall_mem_pasted_iff (item : Item) : (∀ t ∈ item.pasted, ch '\n' ∉ t) ↔ item.OneLine := by
  unfold pasted OneLine
  rw [List.forall_mem_cons, notMem_headEntry_iff, and_assoc]
  split_ifs with hpassed
  · simp [hpassed]
  · simp only [hpassed, List.forall_mem_flatMap, Outcome.forall_mem_pasted_iff, false_or, Bool.false_eq_true]

theorem continuations_eq_nil_iff (r : Report) :
    r.continuations = [] ↔ (∀ u ∈ r.unreadable, u.OneLine) ∧ ∀ item ∈ r.items, item.OneLine := by
  rw [continuations, flatMap_continuation_eq_nil_iff, pasted, List.forall_mem_append, List.forall_mem_map,
    List.forall_mem_flatMap]
  simp only [Unreadable.notMem_entry_iff, Item.forall_mem_pasted_iff]

/-! ### Counting -/

theorem countP_begins_lines_unlines (m : Mark) (ts : List Text) :
    (lines (unlines ts)).countP m.begins = ts.countP m.begins + (ts.flatMap continuation).countP m.begins := by
  induction ts with
  | nil => rfl
  | cons t ts ih =>
    rw [lines_unlines] at ih
    rw [lines_unlines, List.flatMap_cons, List.countP_append, ih, List.countP_cons, List.countP_cons,
      List.flatMap_cons, List.countP_append, m.begins_firstLine]
    omega

theorem countP_begins_eq_zero (m : Mark) {ts : List Text} (h : ∀ t ∈ ts, t.head? = some (ch ' ')) :
    ts.countP m.begins = 0 := by
  refine List.countP_eq_zero.2 fun t ht => ?_
  rw [m.begins_of_head? (h t ht) (by decide)]
  exact Bool.false_ne_true

theorem head?_of_mem_labelledEntries {heading : String} (hheading : (ascii heading).head? = some (ch ' '))
    (t : Text) : ∀ entry ∈ labelledEntries heading t, entry.head? = some (ch ' ') := by
  unfold labelledEntries
  split
  · exact fun _ h => absurd h List.not_mem_nil
  · exact List.forall_mem_cons.2 ⟨hheading, List.forall_mem_map.2 fun line _ => rfl⟩

theorem Outcome.head?_of_mem_entries (o : Outcome) : ∀ t ∈ o.entries, t.head? = some (ch ' ') := by
  have hvalues : ∀ t ∈ o.valueEntries, t.head? = some (ch ' ') :=
    o.forall_mem_valueEntries (fun _ => rfl) (fun _ => rfl) fun _ => rfl
  have herror : ∀ t ∈ o.errorEntries, t.head? = some (ch ' ') := by
    unfold errorEntries
    split
    · exact fun _ h => absurd h List.not_mem_nil
    · exact List.forall_mem_singleton.2 rfl
  unfold entries
  split
  · exact fun _ h => absurd h List.not_mem_nil
  · exact List.forall_mem_cons.2 ⟨rfl, List.forall_mem_append.2 ⟨hvalues, herror⟩⟩

/-- Only the first entry of an item begins with a mark. -/
theorem Item.head?_of_mem_details (item : Item) : ∀ t ∈ item.details, t.head? = some (ch ' ') := by
  unfold details
  split
  · exact List.forall_mem_map.2 fun _ _ => rfl
  · rw [List.forall_mem_cons, List.forall_mem_append, List.forall_mem_append, List.forall_mem_flatMap]
    exact ⟨rfl, ⟨head?_of_mem_labelledEntries rfl _, fun o _ => o.head?_of_mem_entries⟩,
      head?_of_mem_labelledEntries rfl _⟩

theorem Item.countP_begins_entries (m : Mark) (item : Item) :
    item.entries.countP m.begins = if m = item.mark then 1 else 0 := by
  rw [entries, List.countP_cons, countP_begins_eq_zero m item.head?_of_mem_details, headEntry, m.begins_append]
  simp

theorem countP_begins_items (m : Mark) (items : List Item) :
    (items.flatMap Item.entries).countP m.begins = items.countP fun item => m = item.mark := by
  induction items with
  | nil => rfl
  | cons item items ih =>
    rw [List.flatMap_cons, List.countP_append, ih, item.countP_begins_entries, List.countP_cons]
    simp [Nat.add_comm]

theorem countP_begins_unreadable (m : Mark) (us : List Unreadable) :
    (us.map Unreadable.entry).countP m.begins = if m = .error then us.length else 0 := by
  induction us with
  | nil => simp
  | cons u us ih =>
    rw [List.map_cons, List.countP_cons, ih, Unreadable.entry, m.begins_append]
    split_ifs <;> simp_all

theorem begins_countsLine (m : Mark) (passed failed unreadable : Nat) :
    m.begins (countsLine passed failed unreadable) = false := by
  obtain ⟨b, t, hb⟩ := List.exists_cons_of_ne_nil (ofNat_ne_nil passed)
  have hdigit : Byte.isDigit b := isDigit_of_mem_ofNat passed b (by rw [hb]; exact List.mem_cons_self ..)
  refine m.begins_of_head? (b := b) ?_ ?_
  · rw [countsLine, hb]
    rfl
  · have hlimit := (Byte.isDigit_iff.1 hdigit).2
    simp only [Byte.isUpper, Bool.and_eq_false_iff, decide_eq_false_iff_not, UInt8.le_iff_toNat_le]
    exact Or.inl (Nat.not_le.2 (Nat.lt_of_le_of_lt hlimit (by decide)))

/-- Each entry begins as it is meant to. -/
theorem countP_begins_entries (m : Mark) (r : Report) : r.entries.countP m.begins = m.number r := by
  rw [entries, List.countP_append, List.countP_append, countP_begins_unreadable, countP_begins_items,
    List.countP_singleton, begins_countsLine]
  cases m with
  | pass => simp [Mark.number, passedCount, Item.mark]
  | fail =>
    have hfail : (r.items.countP fun item => decide (Mark.fail = item.mark))
        = r.items.countP fun item => ¬item.passed := by simp [Item.mark]
    rw [hfail, Mark.number, failedCount, passedCount, r.items.length_eq_countP_add_countP Item.passed,
      Nat.add_sub_cancel_left]
    exact Nat.zero_add _
  | error =>
    have herror : ∀ item ∈ r.items, ¬decide (Mark.error = item.mark) := by
      intro item _
      unfold Item.mark
      split <;> decide
    rw [List.countP_eq_zero.2 herror]
    rfl

/-! ### The last line -/

theorem getLast?_lines_toText (r : Report) :
    (lines r.toText).getLast? = some (countsLine r.passedCount r.failedCount r.unreadable.length) := by
  have hline := notMem_countsLine r.passedCount r.failedCount r.unreadable.length
  rw [toText_eq, lines_unlines, entries, List.flatMap_append, List.flatMap_singleton, firstLine_of_notMem hline,
    continuation_of_notMem hline, List.getLast?_concat]

theorem prefixCode_ofNat_space : PrefixCode fun n => ofNat n ++ [ch ' '] :=
  .delimited Source.ofNat_injective fun n => (numeral_ofNat n).notMem (by decide)

theorem unreadablePart_injective : Function.Injective unreadablePart := by
  intro n m h
  unfold unreadablePart at h
  split_ifs at h with hn hm hm
  · rw [hn, hm]
  · cases h
  · cases h
  · rw [List.append_assoc, List.append_assoc] at h
    exact (prefixCode_ofNat_space n m (ascii "unreadable") (ascii "unreadable") (by
      simpa using List.append_cancel_left h)).1

/-- The last line states the counts. -/
theorem countsLine_inj {p f u p' f' u' : Nat} :
    countsLine p f u = countsLine p' f' u' ↔ p = p' ∧ f = f' ∧ u = u' := by
  refine ⟨fun h => ?_, by rintro ⟨rfl, rfl, rfl⟩; rfl⟩
  have hsplit (p f u : Nat) : countsLine p f u
      = ofNat p ++ [ch ' '] ++ (ascii "passed, " ++ (ofNat f ++ [ch ' '] ++ (ascii "failed" ++ unreadablePart u))) := by
    have hpassed : ascii " passed, " = [ch ' '] ++ ascii "passed, " := rfl
    have hfailed : ascii " failed" = [ch ' '] ++ ascii "failed" := rfl
    rw [countsLine, hpassed, hfailed]
    simp
  rw [hsplit, hsplit] at h
  obtain ⟨hp, h⟩ := prefixCode_ofNat_space p p' _ _ h
  obtain ⟨hf, h⟩ := prefixCode_ofNat_space f f' _ _ (List.append_cancel_left h)
  exact ⟨hp, hf, unreadablePart_injective (List.append_cancel_left h)⟩

/-! ### Reading a report by line -/

/-- A reader who counts the lines behind each mark finds the counts of the report, and on top of them the lines
that pasted texts start and that happen to begin so: the counts are right exactly if there are none of these.
No text starts a line if paths and messages of unreadable files, formulas, their sources, and descriptions and
errors of cases that failed have no newline; nothing is asked of values, errors of items and generated text.
The last line states the counts in any case. -/
theorem countP_begins_lines_toText (r : Report) :
    (∀ m : Mark, (lines r.toText).countP m.begins = m.number r + r.continuations.countP m.begins)
    ∧ ((∀ m : Mark, (lines r.toText).countP m.begins = m.number r)
      ↔ ∀ m : Mark, ∀ line ∈ r.continuations, m.begins line = false)
    ∧ (r.continuations = [] ↔ (∀ u ∈ r.unreadable, u.OneLine) ∧ ∀ item ∈ r.items, item.OneLine)
    ∧ (lines r.toText).getLast? = some (countsLine r.passedCount r.failedCount r.unreadable.length)
    ∧ ∀ p f u : Nat, countsLine p f u = countsLine r.passedCount r.failedCount r.unreadable.length
      ↔ p = r.passedCount ∧ f = r.failedCount ∧ u = r.unreadable.length := by
  have hcount (m : Mark) :
      (lines r.toText).countP m.begins = m.number r + r.continuations.countP m.begins := by
    rw [toText_eq, countP_begins_lines_unlines, countP_begins_entries, flatMap_continuation]
  refine ⟨hcount, forall_congr' fun m => ?_, r.continuations_eq_nil_iff, r.getLast?_lines_toText,
    fun p f u => countsLine_inj⟩
  rw [hcount m, Nat.add_eq_left, List.countP_eq_zero]
  simp only [Bool.not_eq_true]

/-- A formula of two lines, the second of which begins like a line of its own. -/
def twoLineReport : Report where
  items := [{
    source := []
    description := []
    formula := ⟨ascii "1\nPASS 2", .valueConv⟩
    status := .passed
    generated := []
    error := []
    errorKind := none
    outcomes := [] }]
  unreadable := []

/-- One formula passed, and two lines say so. -/
theorem twoLineReport_counted_twice :
    twoLineReport.toText = ascii "PASS ValueConv 1\nPASS 2\n1 passed, 0 failed\n"
    ∧ (lines twoLineReport.toText).countP Mark.pass.begins = 2 ∧ twoLineReport.passedCount = 1 := by
  decide +kernel

end Report
end TagFormula

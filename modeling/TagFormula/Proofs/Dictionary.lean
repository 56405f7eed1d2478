import Mathlib.Data.List.Sort
import TagFormula.Dictionary

/-!
What is found in a dictionary. A key cuts the entries in two, and a new value is put in at the cut. Main
statements: a new value is found under its own key and changes nothing under others, and a dictionary is
known by what is found in it.
-/

namespace TagFormula.Dictionary

variable {α β : Type}

/-- Entries around a key: none before and none behind has it, at most one stands between, and a new value
takes the place between. -/
theorem exists_cut {entries : List (Text × α)} (h : Sorted entries) (key : Text) :
    ∃ before after : List (Text × α), (∀ e ∈ before ++ after, e.1 ≠ key) ∧
      (entries = before ++ after ∨ ∃ old, entries = before ++ (key, old) :: after) ∧
      ∀ v, insertEntry key v entries = before ++ (key, v) :: after := by
  induction entries with
  | nil => exact ⟨[], [], by simp, .inl rfl, fun _ => rfl⟩
  | cons entry rest ih =>
    obtain ⟨hfirst, hrest⟩ := List.pairwise_cons.1 h
    rcases Std.lt_trichotomy key entry.1 with hlt | heq | hgt
    · refine ⟨[], entry :: rest, fun e he => ?_, .inl rfl, fun v => by simp [insertEntry, hlt]⟩
      rcases List.mem_cons.1 he with rfl | he
      · exact (Std.ne_of_lt hlt).symm
      · exact (Std.ne_of_lt (List.lt_trans hlt (hfirst e he))).symm
    · subst heq
      exact ⟨[], rest, fun e he => (Std.ne_of_lt (hfirst e he)).symm, .inr ⟨entry.2, rfl⟩,
        fun v => by simp [insertEntry, List.lt_irrefl]⟩
    · obtain ⟨before, after, hne, hentries, hinsert⟩ := ih hrest
      refine ⟨entry :: before, after, fun e he => ?_, ?_, fun v => ?_⟩
      · rcases List.mem_cons.1 he with rfl | he
        · exact Std.ne_of_lt hgt
        · exact hne e he
      · rcases hentries with hnone | ⟨old, hold⟩
        · exact .inl (by rw [hnone, List.cons_append])
        · exact .inr ⟨old, by rw [hold, List.cons_append]⟩
      · simp [insertEntry, Std.not_gt_of_lt hgt, (Std.ne_of_lt hgt).symm, hinsert v]

theorem find?_key_of_ne {entries : List (Text × α)} {key : Text} (h : ∀ e ∈ entries, e.1 ≠ key) :
    entries.find? (·.1 == key) = none := by
  rw [List.find?_eq_none]
  intro e he
  simpa using h e he

/-- The same cut, in terms of what is found. -/
theorem exists_cut_find? (d : Dictionary α) (key : Text) :
    ∃ before after : List (Text × α), (∀ e ∈ before ++ after, e.1 ≠ key) ∧
      d.entries = before ++ ((d.find? key).map (Prod.mk key)).toList ++ after ∧
      ∀ v, (d.insert key v).entries = before ++ (key, v) :: after := by
  obtain ⟨before, after, hne, hentries, hinsert⟩ := exists_cut d.sorted key
  refine ⟨before, after, hne, ?_, hinsert⟩
  rcases hentries with hnone | ⟨old, hold⟩
  · have hfind : d.find? key = none := by
      rw [find?, hnone, find?_key_of_ne hne]
      rfl
    rw [hfind, hnone]
    simp
  · have hfind : d.find? key = some old := by
      rw [find?, hold, List.find?_append,
        find?_key_of_ne fun e he => hne e (List.mem_append_left after he)]
      simp
    rw [hfind, hold]
    simp

theorem find?_insert_self (d : Dictionary α) (key : Text) (v : α) : (d.insert key v).find? key = some v := by
  obtain ⟨before, after, hne, -, hinsert⟩ := d.exists_cut_find? key
  rw [find?, hinsert, List.find?_append,
    find?_key_of_ne fun e he => hne e (List.mem_append_left after he)]
  simp

theorem find?_insert_of_ne (d : Dictionary α) {key other : Text} (h : other ≠ key) (v : α) :
    (d.insert key v).find? other = d.find? other := by
  obtain ⟨before, after, -, hentries, hinsert⟩ := d.exists_cut_find? key
  rw [find?, find?, hinsert, hentries]
  cases d.find? key with
  | none => simp [List.find?_append, h.symm]
  | some old => simp [List.find?_append, h.symm]

@[simp] theorem find?_mapValues (f : α → β) (d : Dictionary α) (key : Text) :
    (d.mapValues f).find? key = (d.find? key).map f := by
  rw [find?, find?, mapValues, List.find?_map, Option.map_map, Option.map_map]
  rfl

@[simp] theorem values_mapValues (f : α → β) (d : Dictionary α) :
    (d.mapValues f).values = d.values.map f := by
  simp [values, mapValues]

/-- The values around the one under a key. -/
theorem exists_values_cut (d : Dictionary α) (key : Text) : ∃ before after : List α,
    d.values = before ++ (d.find? key).toList ++ after ∧
      ∀ v, (d.insert key v).values = before ++ v :: after := by
  obtain ⟨before, after, -, hentries, hinsert⟩ := d.exists_cut_find? key
  refine ⟨before.map (·.2), after.map (·.2), ?_, fun v => by simp [values, hinsert]⟩
  rw [values, hentries]
  cases d.find? key <;> simp

theorem mem_entries_iff {d : Dictionary α} {e : Text × α} : e ∈ d.entries ↔ d.find? e.1 = some e.2 := by
  obtain ⟨before, after, hne, hentries, -⟩ := d.exists_cut_find? e.1
  have hout : e ∉ before ∧ e ∉ after :=
    ⟨fun he => hne e (List.mem_append_left after he) rfl,
      fun he => hne e (List.mem_append_right before he) rfl⟩
  rw [hentries]
  cases d.find? e.1 with
  | none => simp [hout]
  | some v => simp [hout, Prod.ext_iff, eq_comm]

/-- Dictionaries in which the same is found are the same, for their entries stand in one order. -/
theorem ext_find? {d d' : Dictionary α} (h : ∀ key, d.find? key = d'.find? key) : d = d' := by
  have : Std.Antisymm fun a b : Text × α => a.1 < b.1 :=
    ⟨fun a b hab hba => absurd hba (Std.not_gt_of_lt hab)⟩
  have : Std.Irrefl fun a b : Text × α => a.1 < b.1 := ⟨fun a => List.lt_irrefl a.1⟩
  have hentries : d.entries = d'.entries :=
    List.Pairwise.eq_of_mem_iff d.sorted d'.sorted fun e => by
      rw [mem_entries_iff, mem_entries_iff, h]
  cases d
  cases d'
  cases hentries
  rfl

end TagFormula.Dictionary

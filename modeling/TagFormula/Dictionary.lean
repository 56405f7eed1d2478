import TagFormula.Text.Basic

/-! Dictionaries: values under texts, kept in the order of their bytes. -/

namespace TagFormula

namespace Dictionary

/-- Puts a value under a key, in place of the one that was there. -/
def insertEntry {α : Type} (key : Text) (value : α) : List (Text × α) → List (Text × α)
  | [] => [(key, value)]
  | (k, v) :: rest =>
    if key < k then (key, value) :: (k, v) :: rest
    else if key = k then (key, value) :: rest
    else (k, v) :: insertEntry key value rest

theorem fst_of_mem_insertEntry {α : Type} {key : Text} {value : α} {entries : List (Text × α)}
    {e : Text × α} (h : e ∈ insertEntry key value entries) : e.1 = key ∨ e ∈ entries := by
  induction entries with
  | nil =>
    simp only [insertEntry, List.mem_singleton] at h
    exact .inl (by rw [h])
  | cons entry rest ih =>
    simp only [insertEntry] at h
    split at h
    · rcases List.mem_cons.1 h with rfl | h
      · exact .inl rfl
      · exact .inr h
    · split at h
      · rcases List.mem_cons.1 h with rfl | h
        · exact .inl rfl
        · exact .inr (List.mem_cons_of_mem _ h)
      · rcases List.mem_cons.1 h with rfl | h
        · exact .inr List.mem_cons_self
        · exact (ih h).imp_right (List.mem_cons_of_mem _)

/-- Keys rise from entry to entry. -/
abbrev Sorted {α : Type} (entries : List (Text × α)) : Prop :=
  entries.Pairwise fun a b => a.1 < b.1

theorem Sorted.insertEntry {α : Type} {key : Text} {value : α} {entries : List (Text × α)}
    (h : Sorted entries) : Sorted (insertEntry key value entries) := by
  induction entries with
  | nil => simp [Dictionary.insertEntry]
  | cons entry rest ih =>
    obtain ⟨hfirst, hrest⟩ := List.pairwise_cons.1 h
    simp only [Dictionary.insertEntry]
    split
    · rename_i hlt
      refine List.pairwise_cons.2 ⟨fun e he => ?_, h⟩
      rcases List.mem_cons.1 he with rfl | he
      · exact hlt
      · exact List.lt_trans hlt (hfirst e he)
    · rename_i hnot
      split
      · rename_i heq
        exact List.pairwise_cons.2 ⟨fun e he => heq ▸ hfirst e he, hrest⟩
      · rename_i hne
        refine List.pairwise_cons.2 ⟨fun e he => ?_, ih hrest⟩
        rcases fst_of_mem_insertEntry he with hkey | he
        · rcases Std.lt_trichotomy key entry.1 with hlt | heq | hgt
          · exact absurd hlt hnot
          · exact absurd heq hne
          · exact hkey ▸ hgt
        · exact hfirst e he

theorem Sorted.mapValues {α β : Type} {entries : List (Text × α)} (f : α → β) (h : Sorted entries) :
    Sorted (entries.map fun e => (e.1, f e.2)) :=
  List.pairwise_map.2 h

end Dictionary

/-- A dictionary holds at most one value under each key, and its keys rise. -/
structure Dictionary (α : Type) where
  entries : List (Text × α)
  sorted : Dictionary.Sorted entries

namespace Dictionary

def empty {α : Type} : Dictionary α := ⟨[], .nil⟩

def size {α : Type} (d : Dictionary α) : Nat := d.entries.length

def find? {α : Type} (d : Dictionary α) (key : Text) : Option α :=
  (d.entries.find? (·.1 == key)).map (·.2)

def contains {α : Type} (d : Dictionary α) (key : Text) : Bool := (d.find? key).isSome

def insert {α : Type} (d : Dictionary α) (key : Text) (value : α) : Dictionary α :=
  ⟨insertEntry key value d.entries, d.sorted.insertEntry⟩

/-- Changes every value and keeps the keys. -/
def mapValues {α β : Type} (f : α → β) (d : Dictionary α) : Dictionary β :=
  ⟨d.entries.map fun e => (e.1, f e.2), d.sorted.mapValues f⟩

/-- The values in the order of their keys. -/
def values {α : Type} (d : Dictionary α) : List α := d.entries.map (·.2)

/-- Entries put in one after the other. -/
def ofList {α : Type} (entries : List (Text × α)) : Dictionary α :=
  entries.foldl (fun d e => d.insert e.1 e.2) empty

end Dictionary
end TagFormula

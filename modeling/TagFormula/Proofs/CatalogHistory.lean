import Mathlib.Data.List.Induction
import TagFormula.Catalog.Basic
import TagFormula.Proofs.Dictionary

/-!
What a catalog holds after any sequence of registrations and generations. Main statement: every item stands
under its own identifier with the distinct usages that were registered there, in the order in which they
came, and has a function or an error or neither; the tallies count the items with a function and with an
error; and the items with an error are listed in the order of their identifiers.
-/

namespace TagFormula.Catalog

/-! ### Actions -/

/-- A formula as it is registered: with the tree that was read and a place that uses it. -/
structure Registration where
  formula : Formula
  tree : TokenTree
  usage : Usage

/-- What can be done with a catalog. -/
inductive Action where
  | register (r : Registration)
  | generate (rules : List Rule)

namespace Action

def registration? : Action → Option Registration
  | .register r => some r
  | .generate _ => none

def rules? : Action → Option (List Rule)
  | .register _ => none
  | .generate rules => some rules

end Action

def act (c : Catalog) : Action → Catalog
  | .register r => c.register r.formula r.tree r.usage
  | .generate rules => c.generate rules

/-- The catalog after actions on an empty one. -/
def run (as : List Action) : Catalog := as.foldl act empty

theorem run_append_singleton (as : List Action) (a : Action) : run (as ++ [a]) = (run as).act a :=
  List.foldl_concat ..

/-- The usages that are registered under an identifier, in their order. -/
def usagesUnder (id : Text) (as : List Action) : List Usage :=
  ((as.filterMap Action.registration?).filter (·.formula.identifier = id)).map (·.usage)

theorem usagesUnder_append (id : Text) (as bs : List Action) :
    usagesUnder id (as ++ bs) = usagesUnder id as ++ usagesUnder id bs := by
  simp [usagesUnder]

theorem usagesUnder_register_self (r : Registration) :
    usagesUnder r.formula.identifier [.register r] = [r.usage] := by
  simp [usagesUnder, Action.registration?]

theorem usagesUnder_register_of_ne {id : Text} {r : Registration} (h : r.formula.identifier ≠ id) :
    usagesUnder id [.register r] = [] := by
  simp [usagesUnder, Action.registration?, h]

theorem usagesUnder_generate (id : Text) (rules : List Rule) : usagesUnder id [.generate rules] = [] := rfl

/-! ### Items -/

namespace Item

/-- A usage is added to the distinct usages behind the others, unless it is among them. -/
theorem addUsage_eraseDups (item : Item) (us : List Usage) (u : Usage) :
    { item with usages := us.eraseDups }.addUsage u = { item with usages := (us ++ [u]).eraseDups } := by
  rw [addUsage, List.eraseDups_append]
  by_cases h : u ∈ us
  · simp [List.removeAll, h]
  · simp [List.removeAll, h, List.eraseDups_cons]

/-- No attempt is made behind one that was noted. -/
theorem isPending_record (item : Item) (x : Except Source.Failure FormulaFunction) :
    (item.record x).isPending = false := by
  cases x <;> simp [record, isPending]

theorem generate_record (rules : List Rule) (item : Item) (x : Except Source.Failure FormulaFunction) :
    (item.record x).generate rules = item.record x := by
  rw [generate, isPending_record]
  rfl

/-- A generation does not look at the usages. -/
theorem generate_usages (rules : List Rule) (item : Item) (us : List Usage) :
    { item with usages := us }.generate rules = { item.generate rules with usages := us } := by
  have hpending : { item with usages := us }.isPending = item.isPending := rfl
  rw [generate, generate, hpending]
  cases item.isPending with
  | false => rfl
  | true => cases item.formula.defineFrom rules item.tree <;> rfl

end Item

/-- A registered formula after later actions: attempted with the rules of the first generation among them. -/
def Registration.itemAfter (r : Registration) (later : List Action) : Item :=
  match later.findSome? Action.rules? with
  | none => .fresh r.formula r.tree
  | some rules => (Item.fresh r.formula r.tree).record (r.formula.defineFrom rules r.tree)

theorem Registration.itemAfter_register (r s : Registration) (later : List Action) :
    r.itemAfter (later ++ [.register s]) = r.itemAfter later := by
  simp [itemAfter, List.findSome?_append, Action.rules?]

/-- A generation settles what is pending and keeps what was attempted. -/
theorem Registration.itemAfter_generate (r : Registration) (rules : List Rule) (later : List Action) :
    r.itemAfter (later ++ [.generate rules]) = (r.itemAfter later).generate rules := by
  rw [itemAfter, itemAfter, List.findSome?_append]
  cases later.findSome? Action.rules? with
  | none => rfl
  | some first => exact (Item.generate_record rules _ _).symm

theorem Registration.itemAfter_identity (r : Registration) (later : List Action) :
    (r.itemAfter later).identifier = r.formula.identifier ∧ (r.itemAfter later).formula = r.formula := by
  rw [itemAfter]
  split
  · exact ⟨rfl, rfl⟩
  · cases r.formula.defineFrom _ r.tree <;> exact ⟨rfl, rfl⟩

/-! ### What is found under an identifier -/

/-- What actions leave under an identifier: the formula and the tree of the first registration, the distinct
usages, and what became of the first generation behind that registration. -/
def Recorded (as : List Action) (id : Text) (item : Item) : Prop :=
  ∃ (before : List Action) (r : Registration) (later : List Action), as = before ++ .register r :: later ∧
    r.formula.identifier = id ∧ usagesUnder id before = [] ∧
    item = { r.itemAfter later with usages := (usagesUnder id as).eraseDups }

theorem Recorded.identity {as : List Action} {id : Text} {item : Item} (h : Recorded as id item) :
    item.identifier = id ∧ item.formula.identifier = id ∧ item.usages = (usagesUnder id as).eraseDups := by
  obtain ⟨before, r, later, -, rfl, -, rfl⟩ := h
  obtain ⟨hidentifier, hformula⟩ := r.itemAfter_identity later
  exact ⟨hidentifier, congrArg Formula.identifier hformula, rfl⟩

/-- An item has no function beside an error, and a kind for each error. -/
theorem Recorded.outcome {as : List Action} {id : Text} {item : Item} (h : Recorded as id item) :
    (item.function = none ∨ item.error = none) ∧ (item.errorKind.isSome ↔ item.error.isSome) := by
  obtain ⟨before, r, later, -, -, -, rfl⟩ := h
  simp only [Registration.itemAfter]
  split
  · simp [Item.fresh]
  · cases r.formula.defineFrom _ r.tree <;> simp [Item.fresh, Item.record]

theorem recorded_first {as : List Action} {r : Registration} (h : usagesUnder r.formula.identifier as = []) :
    Recorded (as ++ [.register r]) r.formula.identifier ((Item.fresh r.formula r.tree).addUsage r.usage) := by
  refine ⟨as, r, [], rfl, rfl, h, ?_⟩
  rw [usagesUnder_append, usagesUnder_register_self, h]
  exact Item.addUsage_eraseDups (.fresh r.formula r.tree) [] r.usage

theorem Recorded.again {as : List Action} {r : Registration} {item : Item}
    (h : Recorded as r.formula.identifier item) :
    Recorded (as ++ [.register r]) r.formula.identifier (item.addUsage r.usage) := by
  obtain ⟨before, s, later, has, hid, hnone, rfl⟩ := h
  refine ⟨before, s, later ++ [.register r], by simp [has], hid, hnone, ?_⟩
  rw [Item.addUsage_eraseDups, Registration.itemAfter_register, usagesUnder_append, usagesUnder_register_self]

theorem Recorded.other {as : List Action} {id : Text} {r : Registration} {item : Item}
    (h : Recorded as id item) (hne : r.formula.identifier ≠ id) : Recorded (as ++ [.register r]) id item := by
  obtain ⟨before, s, later, has, hid, hnone, rfl⟩ := h
  refine ⟨before, s, later ++ [.register r], by simp [has], hid, hnone, ?_⟩
  rw [Registration.itemAfter_register, usagesUnder_append, usagesUnder_register_of_ne hne, List.append_nil]

theorem Recorded.generate {as : List Action} {id : Text} {item : Item} (h : Recorded as id item)
    (rules : List Rule) : Recorded (as ++ [.generate rules]) id (item.generate rules) := by
  obtain ⟨before, r, later, has, hid, hnone, rfl⟩ := h
  refine ⟨before, r, later ++ [.generate rules], by simp [has], hid, hnone, ?_⟩
  rw [usagesUnder_append, usagesUnder_generate, List.append_nil, Item.generate_usages,
    Registration.itemAfter_generate]

theorem find?_register (c : Catalog) (r : Registration) : (c.act (.register r)).find? r.formula.identifier
    = some (((c.find? r.formula.identifier).getD (.fresh r.formula r.tree)).addUsage r.usage) :=
  Dictionary.find?_insert_self ..

theorem find?_register_of_ne (c : Catalog) {r : Registration} {id : Text} (h : r.formula.identifier ≠ id) :
    (c.act (.register r)).find? id = c.find? id :=
  Dictionary.find?_insert_of_ne _ h.symm _

theorem find?_generate (c : Catalog) (rules : List Rule) (id : Text) :
    (c.act (.generate rules)).find? id = (c.find? id).map (Item.generate rules) :=
  Dictionary.find?_mapValues ..

/-- What is found under an identifier after actions is what they record there. -/
theorem recorded_of_find?_run (as : List Action) (id : Text) :
    (∀ item, (run as).find? id = some item → Recorded as id item) ∧
      ((run as).find? id = none ↔ usagesUnder id as = []) := by
  induction as using List.reverseRecOn with
  | nil =>
    refine ⟨fun item h => ?_, ⟨fun _ => rfl, fun _ => rfl⟩⟩
    cases h
  | append_singleton as a ih =>
    obtain ⟨hitem, hnone⟩ := ih
    rw [run_append_singleton, usagesUnder_append]
    cases a with
    | register r =>
      by_cases hid : r.formula.identifier = id
      · subst hid
        rw [find?_register, usagesUnder_register_self]
        refine ⟨fun item h => ?_, by simp⟩
        cases h
        cases hfound : (run as).find? r.formula.identifier with
        | none => exact recorded_first (hnone.1 hfound)
        | some item => exact (hitem item hfound).again
      · rw [find?_register_of_ne _ hid, usagesUnder_register_of_ne hid, List.append_nil]
        exact ⟨fun item h => (hitem item h).other hid, hnone⟩
    | generate rules =>
      rw [find?_generate, usagesUnder_generate, List.append_nil]
      refine ⟨fun item h => ?_, by rw [Option.map_eq_none_iff, hnone]⟩
      obtain ⟨old, hold, rfl⟩ := Option.map_eq_some_iff.1 h
      exact (hitem old hold).generate rules

/-! ### Tallies -/

/-- An item of a role that has a function. -/
def Item.hasFunction (r : Role) (item : Item) : Bool :=
  item.formula.role = r && item.function.isSome

/-- An item of a role that has an error. -/
def Item.hasError (r : Role) (item : Item) : Bool :=
  item.formula.role = r && item.error.isSome

/-- A tally agrees with items: it counts those of the role that have a function and those that have an
error, and nothing else was attempted. -/
structure Tally.Counts (t : Tally) (r : Role) (items : List Item) : Prop where
  attempted : t.attempted = t.generated + t.failed
  generated : t.generated = items.countP (Item.hasFunction r)
  failed : t.failed = items.countP (Item.hasError r)

/-- All tallies of a catalog agree with its items. -/
def Counted (c : Catalog) : Prop := ∀ r, (c.tallies r).Counts r c.items.values

/-- What an attempt at one item adds to a tally is what it adds to the items with a function and to those
with an error. -/
theorem countNew_balance (rules : List Rule) (tallies : Role → Tally) (item : Item) (r : Role) :
    let t := tallies r
    let t' := countNew rules tallies item r
    t'.generated + (if item.hasFunction r then 1 else 0)
        = t.generated + (if (item.generate rules).hasFunction r then 1 else 0) ∧
      t'.failed + (if item.hasError r then 1 else 0)
        = t.failed + (if (item.generate rules).hasError r then 1 else 0) ∧
      t'.attempted + (t.generated + t.failed) = t.attempted + (t'.generated + t'.failed) := by
  cases hpending : item.isPending with
  | false => simp [countNew, Item.generate, hpending]
  | true =>
    have hnone : item.function = none ∧ item.error = none := by simpa [Item.isPending] using hpending
    by_cases hr : r = item.formula.role
    · cases h : item.formula.defineFrom rules item.tree <;>
        simp [countNew, Item.generate, hpending, hr, h, Item.hasFunction, Item.hasError, Item.record, hnone,
          Tally.count] <;> omega
    · cases h : item.formula.defineFrom rules item.tree <;>
        simp [countNew, Item.generate, hpending, hr, Ne.symm hr, h, Item.hasFunction, Item.hasError, Item.record]

/-- The same for the attempts at all items. -/
theorem foldl_countNew_balance (rules : List Rule) (items : List Item) (tallies : Role → Tally) (r : Role) :
    let t := tallies r
    let t' := items.foldl (countNew rules) tallies r
    t'.generated + items.countP (Item.hasFunction r)
        = t.generated + (items.map (Item.generate rules)).countP (Item.hasFunction r) ∧
      t'.failed + items.countP (Item.hasError r)
        = t.failed + (items.map (Item.generate rules)).countP (Item.hasError r) ∧
      t'.attempted + (t.generated + t.failed) = t.attempted + (t'.generated + t'.failed) := by
  induction items generalizing tallies with
  | nil => simp
  | cons item items ih =>
    have hfirst := countNew_balance rules tallies item r
    have hrest := ih (countNew rules tallies item)
    simp only [List.foldl_cons, List.map_cons, List.countP_cons] at hfirst hrest ⊢
    omega

/-- A registration adds nothing to a count that leaves out what is new and does not look at usages. -/
theorem countP_register {p : Item → Bool} (hfresh : ∀ f t, p (.fresh f t) = false)
    (husages : ∀ (item : Item) us, p { item with usages := us } = p item) (c : Catalog) (r : Registration) :
    (c.act (.register r)).items.values.countP p = c.items.values.countP p := by
  have hadd : ∀ (item : Item) u, p (item.addUsage u) = p item := by
    intro item u
    rw [Item.addUsage]
    split
    · rfl
    · exact husages item _
  obtain ⟨before, after, hvalues, hinsert⟩ := c.items.exists_values_cut r.formula.identifier
  have hafter : (c.act (.register r)).items.values = _ := hinsert _
  rw [hafter, hvalues]
  cases hfound : c.items.find? r.formula.identifier with
  | none => simp [hadd, hfresh]
  | some item => simp [List.countP_cons, hadd]

theorem counted_act {c : Catalog} (h : Counted c) (a : Action) : Counted (c.act a) := by
  intro role
  obtain ⟨hattempted, hgenerated, hfailed⟩ := h role
  cases a with
  | register r =>
    have hfunction := countP_register (p := Item.hasFunction role)
      (fun f t => by simp [Item.hasFunction, Item.fresh]) (fun item us => rfl) c r
    have herror := countP_register (p := Item.hasError role)
      (fun f t => by simp [Item.hasError, Item.fresh]) (fun item us => rfl) c r
    exact ⟨hattempted, hgenerated.trans hfunction.symm, hfailed.trans herror.symm⟩
  | generate rules =>
    obtain ⟨hg, hf, ha⟩ := foldl_countNew_balance rules c.items.values c.tallies role
    have hvalues : (c.act (.generate rules)).items.values = c.items.values.map (Item.generate rules) :=
      Dictionary.values_mapValues ..
    have htallies : (c.act (.generate rules)).tallies role
        = c.items.values.foldl (countNew rules) c.tallies role := rfl
    refine ⟨?_, ?_, ?_⟩
    · rw [htallies]
      omega
    · rw [htallies, hvalues]
      omega
    · rw [htallies, hvalues]
      omega

theorem counted_run (as : List Action) : Counted (run as) := by
  induction as using List.reverseRecOn with
  | nil => exact fun r => ⟨rfl, rfl, rfl⟩
  | append_singleton as a ih =>
    rw [run_append_singleton]
    exact counted_act ih a

/-! ### Failures -/

/-- Values in the order of their keys, each under its own identifier. -/
theorem pairwise_values {c : Catalog} (h : ∀ id item, c.find? id = some item → item.formula.identifier = id) :
    c.items.values.Pairwise fun a b => a.formula.identifier < b.formula.identifier := by
  refine List.pairwise_map.2 (c.items.sorted.imp_of_mem fun {a b} ha hb hlt => ?_)
  rw [h a.1 a.2 (Dictionary.mem_entries_iff.1 ha), h b.1 b.2 (Dictionary.mem_entries_iff.1 hb)]
  exact hlt

theorem mem_failures_iff {c : Catalog} (h : ∀ id item, c.find? id = some item → item.formula.identifier = id)
    {item : Item} : item ∈ c.failures ↔
      c.find? item.formula.identifier = some item ∧ item.error.isSome := by
  rw [failures, List.mem_filter, Dictionary.values, List.mem_map]
  refine and_congr_left fun _ => ⟨?_, fun hfound => ?_⟩
  · rintro ⟨e, he, rfl⟩
    have hfound := Dictionary.mem_entries_iff.1 he
    rw [h e.1 e.2 hfound]
    exact hfound
  · exact ⟨(item.formula.identifier, item), Dictionary.mem_entries_iff.2 hfound, rfl⟩

/-- A catalog keeps its order under any actions. Whatever is registered is found under its identifier, once,
with the distinct usages in their order; it has a function or an error, and not both; an error has a kind; the
tallies count what was attempted; and the errors are listed by their identifiers. -/
theorem run_consistent (as : List Action) :
    (∀ id, (run as).find? id = none ↔ usagesUnder id as = []) ∧
    (∀ id item, (run as).find? id = some item →
      Recorded as id item ∧
      item.identifier = id ∧ item.formula.identifier = id ∧ item.usages = (usagesUnder id as).eraseDups ∧
      (item.function = none ∨ item.error = none) ∧
      (item.errorKind.isSome ↔ item.error.isSome)) ∧
    (∀ role, ((run as).tallies role).Counts role (run as).items.values) ∧
    (∀ item, item ∈ (run as).failures ↔
      (run as).find? item.formula.identifier = some item ∧ item.error.isSome) ∧
    (run as).failures.Pairwise fun a b => a.formula.identifier < b.formula.identifier := by
  have hrecorded : ∀ id item, (run as).find? id = some item → Recorded as id item :=
    fun id => (recorded_of_find?_run as id).1
  have hkey : ∀ id item, (run as).find? id = some item → item.formula.identifier = id :=
    fun id item hfound => (hrecorded id item hfound).identity.2.1
  refine ⟨fun id => (recorded_of_find?_run as id).2, fun id item hfound => ?_, counted_run as,
    fun item => mem_failures_iff hkey, (pairwise_values hkey).filter _⟩
  have h := hrecorded id item hfound
  obtain ⟨hidentifier, hformula, husages⟩ := h.identity
  exact ⟨h, hidentifier, hformula, husages, h.outcome⟩

end TagFormula.Catalog

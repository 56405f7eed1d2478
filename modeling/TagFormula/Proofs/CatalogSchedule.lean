import TagFormula.Catalog.Module
import TagFormula.Proofs.CatalogHistory

/-!
When functions are generated makes no difference. Main statement: generations with one list of rules, put
anywhere between registrations, leave the same catalog as one generation behind all of them, if both end with
one; so the module is the same, byte for byte.
-/

namespace TagFormula.Catalog

/-! ### Items -/

namespace Item

theorem generate_addUsage (rules : List Rule) (item : Item) (u : Usage) :
    (item.addUsage u).generate rules = (item.generate rules).addUsage u := by
  have hitem := congrArg Item.usages (generate_usages rules item item.usages)
  have husages : (item.generate rules).usages = item.usages := hitem
  rw [addUsage, addUsage, husages]
  split
  · rfl
  · exact generate_usages rules item _

theorem generate_generate (rules : List Rule) (item : Item) :
    (item.generate rules).generate rules = item.generate rules := by
  rw [generate.eq_def rules item]
  split
  · exact generate_record ..
  · rename_i hpending
    exact if_neg hpending

end Item

/-! ### What a generation at the end leaves -/

/-- The items once the pending ones have been attempted. -/
def settled (rules : List Rule) (c : Catalog) : Dictionary Item := c.items.mapValues (Item.generate rules)

theorem settled_generate (rules : List Rule) (c : Catalog) :
    settled rules (c.act (.generate rules)) = settled rules c := by
  refine Dictionary.ext_find? fun id => ?_
  have hitems : (c.act (.generate rules)).items = c.items.mapValues (Item.generate rules) := rfl
  rw [settled, settled, hitems, Dictionary.find?_mapValues, Dictionary.find?_mapValues, Option.map_map]
  congr 1
  exact funext (Item.generate_generate rules)

/-- What is settled behind a registration depends on what was settled before it. A formula that is new is
attempted as registered; one that is known gains the usage, and its attempt is what it was. -/
theorem settled_register (rules : List Rule) (c : Catalog) (r : Registration) :
    settled rules (c.act (.register r)) = (settled rules c).insert r.formula.identifier
      ((((settled rules c).find? r.formula.identifier).getD
        (Item.generate rules (.fresh r.formula r.tree))).addUsage r.usage) := by
  refine Dictionary.ext_find? fun id => ?_
  rw [settled, Dictionary.find?_mapValues]
  by_cases hid : id = r.formula.identifier
  · have hfound := find?_register c r
    rw [find?] at hfound
    rw [hid, hfound, Dictionary.find?_insert_self, Option.map_some, Item.generate_addUsage, settled,
      Dictionary.find?_mapValues, Option.getD_map]
    rfl
  · have hfound := find?_register_of_ne c (Ne.symm hid)
    rw [find?, find?] at hfound
    rw [hfound, Dictionary.find?_insert_of_ne _ hid, settled, Dictionary.find?_mapValues]

/-! ### Schedules -/

/-- Registrations with generations put in between, all with the same rules. -/
inductive Scheduled (rules : List Rule) : List Registration → List Action → Prop
  | nil : Scheduled rules [] []
  | register (r : Registration) {rs : List Registration} {as : List Action} (h : Scheduled rules rs as) :
    Scheduled rules (r :: rs) (.register r :: as)
  | generate {rs : List Registration} {as : List Action} (h : Scheduled rules rs as) :
    Scheduled rules rs (.generate rules :: as)

/-- A schedule and its registrations alone keep catalogs together that settle alike. -/
theorem Scheduled.settled_eq {rules : List Rule} {rs : List Registration} {as : List Action}
    (h : Scheduled rules rs as) {c c' : Catalog} (hc : settled rules c = settled rules c') :
    settled rules (as.foldl act c) = settled rules ((rs.map .register).foldl act c') := by
  induction h generalizing c c' with
  | nil => exact hc
  | register r _ ih =>
    refine ih ?_
    rw [settled_register, settled_register, hc]
  | generate _ ih =>
    refine ih ?_
    rw [settled_generate, hc]

theorem Tally.Counts.eq {t t' : Tally} {r : Role} {items : List Item} (h : t.Counts r items)
    (h' : t'.Counts r items) : t = t' := by
  have hgenerated : t.generated = t'.generated := h.generated.trans h'.generated.symm
  have hfailed : t.failed = t'.failed := h.failed.trans h'.failed.symm
  have hattempted : t.attempted = t'.attempted := by
    rw [h.attempted, h'.attempted, hgenerated, hfailed]
  cases t
  cases t'
  cases hgenerated
  cases hfailed
  cases hattempted
  rfl

/-- The tallies are known from the items. -/
theorem Counted.eq_of_items_eq {c c' : Catalog} (h : Counted c) (h' : Counted c')
    (hitems : c.items = c'.items) : c = c' := by
  have htallies : c.tallies = c'.tallies := by
    funext role
    exact (h role).eq (hitems ▸ h' role)
  cases c
  cases c'
  cases hitems
  cases htallies
  rfl

/-- Generations may stand anywhere between the registrations. -/
theorem run_scheduled {rules : List Rule} {rs : List Registration} {as : List Action}
    (h : Scheduled rules rs as) :
    run (as ++ [.generate rules]) = run (rs.map .register ++ [.generate rules]) ∧
    ∀ header, (run (as ++ [.generate rules])).moduleText header
      = (run (rs.map .register ++ [.generate rules])).moduleText header := by
  have heq : run (as ++ [.generate rules]) = run (rs.map .register ++ [.generate rules]) := by
    refine (counted_run _).eq_of_items_eq (counted_run _) ?_
    rw [run_append_singleton, run_append_singleton]
    exact h.settled_eq rfl
  exact ⟨heq, fun header => by rw [heq]⟩

/-- `$val`, used for a tag. -/
def valueShown (tag : String) : Registration :=
  ⟨⟨ascii "$val", .printConv⟩, .node (.ofClass (ascii "PPI::Token::Symbol") (ascii "$val") [] none) [],
    ⟨ascii "Exif", ascii "Main", ascii tag⟩⟩

/-- A formula of which nothing was read. -/
def emptyCondition : Registration :=
  ⟨⟨[], .condition⟩, .node (.ofClass (ascii "PPI::Document") [] [] none) [], ⟨ascii "Exif", [], []⟩⟩

/-- A usage that comes after the function was generated, behind a formula that has failed by then. -/
theorem run_scheduled_lateUsage :
    let rs := [valueShown "Width", emptyCondition, valueShown "Height"]
    let as := [.generate Rule.standard, .register (valueShown "Width"), .generate Rule.standard,
      .register emptyCondition, .generate Rule.standard, .register (valueShown "Height")]
    Scheduled Rule.standard rs as ∧
      run (as ++ [.generate Rule.standard]) = run (rs.map .register ++ [.generate Rule.standard]) := by
  intro rs as
  have h : Scheduled Rule.standard rs as :=
    .generate (.register _ (.generate (.register _ (.generate (.register _ .nil)))))
  exact ⟨h, (run_scheduled h).1⟩

end TagFormula.Catalog

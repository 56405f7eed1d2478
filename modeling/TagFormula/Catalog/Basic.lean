import TagFormula.Dictionary
import TagFormula.Formula

/-!
A catalog of formulas under their identifiers. A formula that occurs several times is kept once, with
the places that use it, and its function is generated once.
-/

namespace TagFormula

/-- Where a formula is used. -/
structure Usage where
  module : Text
  table : Text
  tag : Text
  deriving DecidableEq, Repr

def Usage.toText (u : Usage) : Text :=
  u.module ++ (if u.table.isEmpty then [] else ascii "::" ++ u.table)
    ++ (if u.tag.isEmpty then [] else ch ' ' :: u.tag)

namespace Catalog

/-- A formula with the places that use it. Once it was attempted, it has a function, or an error with its text
and kind. -/
structure Item where
  identifier : Text
  formula : Formula
  tree : TokenTree
  usages : List Usage
  function : Option FormulaFunction
  error : Option Text
  errorKind : Option Source.DefectKind

namespace Item

/-- A formula that nothing is known about yet. -/
def fresh (formula : Formula) (tree : TokenTree) : Item :=
  ⟨formula.identifier, formula, tree, [], none, none, none⟩

/-- Adds a usage that is not known yet. -/
def addUsage (item : Item) (u : Usage) : Item :=
  if item.usages.contains u then item else { item with usages := item.usages ++ [u] }

/-- Whether the formula was not attempted yet. -/
def isPending (item : Item) : Bool := item.function.isNone && item.error.isNone

/-- Notes what became of an attempt. -/
def record (item : Item) : Except Source.Failure FormulaFunction → Item
  | .ok f => { item with function := some f }
  | .error e => { item with error := some e.message, errorKind := some e.defect.kind }

/-- Generates the function of an item that was not attempted yet. -/
def generate (rules : List Rule) (item : Item) : Item :=
  if item.isPending then item.record (item.formula.defineFrom rules item.tree) else item

end Item

/-- Counts for the formulas of one role. -/
structure Tally where
  attempted : Nat
  generated : Nat
  failed : Nat
  deriving DecidableEq, Repr

/-- Counts an attempt. -/
def Tally.count (t : Tally) : Except Source.Failure FormulaFunction → Tally
  | .ok _ => ⟨t.attempted + 1, t.generated + 1, t.failed⟩
  | .error _ => ⟨t.attempted + 1, t.generated, t.failed + 1⟩

end Catalog

structure Catalog where
  items : Dictionary Catalog.Item
  tallies : Role → Catalog.Tally

namespace Catalog

def empty : Catalog := ⟨.empty, fun _ => ⟨0, 0, 0⟩⟩

/-- Registers a formula that is used somewhere. One that is known only gains the usage. -/
def register (c : Catalog) (formula : Formula) (tree : TokenTree) (u : Usage) : Catalog :=
  let item := (c.items.find? formula.identifier).getD (.fresh formula tree)
  { c with items := c.items.insert formula.identifier (item.addUsage u) }

/-- Counts the attempt at one item, if it is new. -/
def countNew (rules : List Rule) (tallies : Role → Tally) (item : Item) : Role → Tally :=
  if item.isPending then
    fun r =>
      if r = item.formula.role then (tallies r).count (item.formula.defineFrom rules item.tree) else tallies r
  else tallies

/-- Generates every function that was not attempted yet. -/
def generate (rules : List Rule) (c : Catalog) : Catalog :=
  ⟨c.items.mapValues (Item.generate rules), c.items.values.foldl (countNew rules) c.tallies⟩

def find? (c : Catalog) (identifier : Text) : Option Item := c.items.find? identifier

/-- The items with an error, in the order of their identifiers. -/
def failures (c : Catalog) : List Item := c.items.values.filter fun item => item.error.isSome

end Catalog
end TagFormula

import TagFormula.Formula

/-! What a validation found out about formulas: a report for each, and files that could not be read. -/

namespace TagFormula

namespace Report

inductive Status where
  | passed
  | failed
  | generationFailed
  | compileFailed
  deriving DecidableEq, Repr

namespace Status

def all : List Status := [.passed, .failed, .generationFailed, .compileFailed]

def name : Status → Text
  | .passed => ascii "passed"
  | .failed => ascii "failed"
  | .generationFailed => ascii "generation_failed"
  | .compileFailed => ascii "compile_failed"

def ofName? (t : Text) : Option Status := all.find? (·.name == t)

end Status

/-- What became of one case. -/
structure Outcome where
  description : Text
  input : Value
  expected : Value
  actual : Option Value
  /-- Why there is no value, empty if there is one. -/
  error : Text
  passed : Bool

/-- What became of one formula. -/
structure Item where
  source : Text
  description : Text
  formula : Formula
  status : Status
  /-- The text of the function, empty if there is none. -/
  generated : Text
  error : Text
  errorKind : Option Source.DefectKind
  outcomes : List Outcome

def Item.passed (item : Item) : Bool := item.status = .passed

/-- A file that could not be read. -/
structure Unreadable where
  path : Text
  message : Text

end Report

structure Report where
  items : List Report.Item
  unreadable : List Report.Unreadable

namespace Report

def passedCount (r : Report) : Nat := r.items.countP Item.passed

def failedCount (r : Report) : Nat := r.items.length - r.passedCount

def allPassed (r : Report) : Bool := r.failedCount = 0 && r.unreadable.isEmpty

end Report
end TagFormula

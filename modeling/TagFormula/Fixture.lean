import TagFormula.Context
import TagFormula.Formula

/-! Fixtures: a formula as a source parser has read it, with cases that say what it should give. -/

namespace TagFormula

/-- An input, the fields beside it, and the value that is expected. -/
structure Case where
  description : Text
  input : Value
  expected : Value
  context : Context

structure Fixture where
  /-- The file it was read from. -/
  source : Text
  description : Text
  formula : Formula
  tree : TokenTree
  /-- The kind of defect for which no function is expected. -/
  expectError : Option Source.DefectKind
  cases : List Case

end TagFormula

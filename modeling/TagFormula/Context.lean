import TagFormula.Dictionary
import TagFormula.Value.Basic

/-! The fields that a formula may read beside the value it converts. -/

namespace TagFormula

abbrev Context := Dictionary Value

/-- A field's value; a field that is not set is empty. -/
def Context.get (c : Context) (name : Text) : Value := (c.find? name).getD .empty

end TagFormula

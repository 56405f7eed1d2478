import TagFormula.Literal.Number

/-! Decimal integers at the start of a setting, within 32 bits. -/

namespace TagFormula

/-- The integer at the start of a text, behind blanks and a sign, and the text after it; `none` if
there is none or it does not fit in 32 bits. -/
def int32AtStart? (t : Text) : Option (Int × Text) :=
  match DigitRun.read? 10 t with
  | none => none
  | some run =>
    let i : Int := if run.negative then -run.value else run.value
    if -0x80000000 ≤ i && i < 0x80000000 then some (i, run.rest) else none

end TagFormula

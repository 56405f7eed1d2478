import TagFormula.Pattern.Fault
import TagFormula.Value.Basic

/-!
Why an operation on values fails. A type fault comes from the kinds of the operands alone, a
conversion fault from their content.
-/

namespace TagFormula

/-- The two families of faults. -/
inductive FaultFamily where
  | conversion
  | type
  deriving DecidableEq, Repr

/-- Why an operation fails. -/
inductive Fault where
  | wrongKind (wanted actual : Kind)
  | noOperator (op : Text) (kind : Kind)
  | noFunction (name : Text) (kind : Kind)
  | notNumeric (kind : Kind)
  | listAsText
  | zeroDivisor
  | zeroModulus
  | repeatTooLong (copies : Int)
  | noSquareRoot (d : Double)
  | noLogarithm (d : Double)
  | missingSeparator
  | missingFormat
  | unknownConversion (letter : UInt8)
  | unknownTemplateLetter (letter : UInt8)
  | unknownModifier (letter : UInt8)
  | badPattern (pattern : Text) (cause : PatternFault)
  deriving DecidableEq, Repr

namespace Fault

def family : Fault → FaultFamily
  | .wrongKind .. | .noOperator .. | .noFunction .. | .notNumeric .. | .listAsText => .type
  | _ => .conversion

/-- The whole text of a fault. -/
def text : Fault → Text
  | .wrongKind wanted actual =>
    ascii "expected " ++ wanted.name ++ ascii " value, got " ++ actual.name
  | .noOperator op kind =>
    ascii "operator " ++ op ++ ascii " is not defined for " ++ kind.name ++ ascii " values"
  | .noFunction name kind =>
    name ++ ascii "() is not defined for " ++ kind.name ++ ascii " values"
  | .notNumeric kind => ascii "cannot use " ++ kind.name ++ ascii " value as a number"
  | .listAsText => ascii "cannot use List value as a string"
  | .zeroDivisor => ascii "Illegal division by zero"
  | .zeroModulus => ascii "Illegal modulus zero"
  | .repeatTooLong copies =>
    ascii "Out of memory in repeat: " ++ Text.ofInt copies ++ ascii " copies"
  | .noSquareRoot d => ascii "Can't take sqrt of " ++ d.toText
  | .noLogarithm d => ascii "Can't take log of " ++ d.toText
  | .missingSeparator => ascii "join: missing separator argument"
  | .missingFormat => ascii "sprintf: missing format argument"
  | .unknownConversion letter => ascii "sprintf: unsupported conversion %" ++ [letter]
  | .unknownTemplateLetter letter =>
    ascii "unpack: unsupported template letter '" ++ [letter] ++ ascii "'"
  | .unknownModifier letter => ascii "unsupported regex modifier '" ++ [letter] ++ ascii "'"
  | .badPattern pattern cause =>
    ascii "invalid regex /" ++ pattern ++ ascii "/: " ++ cause.message

/-- What is reported: the text up to its first zero byte. -/
def message (f : Fault) : Text := f.text.upToZero

end Fault
end TagFormula

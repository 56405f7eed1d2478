import TagFormula.Double.Reader
import TagFormula.Value.Fault

/-!
Reading a value as a number or as text. Text counts as the longest number it starts with, and as
zero if it starts with none.
-/

namespace TagFormula

namespace Number

/-- The number at the start of a text, as it is written: a sign, digits, and perhaps a point or an
exponent. -/
structure Numeral where
  negative : Bool
  digits : Text
  /-- How many of the digits stand behind the point. -/
  places : Nat
  exponent : Int
  /-- No point and no exponent is written. -/
  isWhole : Bool
  deriving DecidableEq, Repr

/-- The longest numeral at the start of a text. A point needs a digit on one side, an exponent
needs digits. -/
def Numeral.read? (t : Text) : Option Numeral := do
  let (negative, body) := Double.readSign t
  let (digits, places, rest) ← Double.readDigits? Byte.isDigit body
  let hasPoint := (body.dropWhile Byte.isDigit).head? == some (ch '.')
  let (e, after) := Double.readExponent (ch 'e') (ch 'E') rest
  return ⟨negative, digits, places, e, !hasPoint && after.length == rest.length⟩

/-- A whole numeral is an integer if it has 64 bits; every other one is rounded. -/
def Numeral.value (n : Numeral) : Number :=
  let m := Text.natValue n.digits
  let whole : Int := if n.negative then -(m : Int) else m
  let rounded := Double.ofDecimal n.negative m (n.exponent - n.places)
  if n.isWhole then ((int64? whole).map .integer).getD (.real rounded) else .real rounded

/-- The number a text starts with, behind blanks; zero if there is none. -/
def ofText (t : Text) : Number :=
  ((Numeral.read? (Text.dropSpaces t)).map Numeral.value).getD (.integer 0)

end Number

namespace Value

def toNumber : Value → Except Fault Number
  | .empty => .ok (.integer 0)
  | .integer i => .ok (.integer i)
  | .float d => .ok (.real d)
  | .string t => .ok (Number.ofText t)
  | v => .error (.notNumeric v.kind)

def toText : Value → Except Fault Text
  | .empty => .ok []
  | .integer i => .ok (Text.ofInt i.toInt)
  | .float d => .ok d.toText
  | .string t => .ok t
  | .bytes t => .ok t
  | .list _ => .error .listAsText

/-! ### Values of one kind -/

def asInteger : Value → Except Fault Int64
  | .integer i => .ok i
  | v => .error (.wrongKind .integer v.kind)

def asFloat : Value → Except Fault Double
  | .float d => .ok d
  | v => .error (.wrongKind .float v.kind)

def asString : Value → Except Fault Text
  | .string t => .ok t
  | v => .error (.wrongKind .string v.kind)

def asBytes : Value → Except Fault Text
  | .bytes t => .ok t
  | v => .error (.wrongKind .bytes v.kind)

def asList : Value → Except Fault (List Value)
  | .list items => .ok items
  | v => .error (.wrongKind .list v.kind)

/-! ### Operands -/

/-- The numeric view of an operand of the operator `op`. -/
def operand (op : String) : Value → Except Fault Number
  | .bytes _ => .error (.noOperator (ascii op) .bytes)
  | .list _ => .error (.noOperator (ascii op) .list)
  | v => v.toNumber

/-- The text view of an operand of the operator `op`. -/
def textOperand (op : String) : Value → Except Fault Text
  | .list _ => .error (.noOperator (ascii op) .list)
  | v => v.toText

/-- The numeric view of an argument of the function `name`. -/
def argument (name : String) : Value → Except Fault Number
  | .bytes _ => .error (.noFunction (ascii name) .bytes)
  | .list _ => .error (.noFunction (ascii name) .list)
  | v => v.toNumber

end Value
end TagFormula

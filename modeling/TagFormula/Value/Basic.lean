import TagFormula.Double.Decimal

/-!
The values of tags: six kinds, with their views as a number, as text and as a truth value. A view
that a kind does not have is a `Fault`.
-/

namespace TagFormula

/-- The six kinds of value. -/
inductive Kind where
  | empty
  | integer
  | float
  | string
  | bytes
  | list
  deriving DecidableEq, Repr

def Kind.name : Kind → Text
  | .empty => ascii "Empty"
  | .integer => ascii "Integer"
  | .float => ascii "Float"
  | .string => ascii "String"
  | .bytes => ascii "Bytes"
  | .list => ascii "List"

/-- The value of a tag. -/
inductive Value where
  | empty
  | integer (i : Int64)
  | float (d : Double)
  | string (t : Text)
  | bytes (t : Text)
  | list (items : List Value)
  deriving Inhabited

def Value.kind : Value → Kind
  | .empty => .empty
  | .integer _ => .integer
  | .float _ => .float
  | .string _ => .string
  | .bytes _ => .bytes
  | .list _ => .list

/-- The numeric view of a value. -/
inductive Number where
  | integer (i : Int64)
  | real (d : Double)
  deriving DecidableEq, Repr

/-- The 64-bit integer equal to an integer, if there is one. -/
def int64? (i : Int) : Option Int64 :=
  if -0x8000000000000000 ≤ i ∧ i < 0x8000000000000000 then some (Int64.ofInt i) else none

/-- Whether the integer part of a number has 64 bits; never so for a NaN. -/
def Double.fitsInt64 (d : Double) : Bool := d.isFinite && (int64? d.toInt).isSome

/-- The integer part clamped to 64 bits, zero for a NaN. -/
def Double.saturate (d : Double) : Int64 :=
  if d.isNaN then 0
  else if d.fitsInt64 then Int64.ofInt d.toInt
  else if d.isNegative then Int64.minValue
  else Int64.maxValue

/-- Text of a real number: fifteen significant digits. -/
def Double.toText (d : Double) : Text :=
  if d.isNaN then ascii "NaN"
  else if d.isInfinite then (if d.isNegative then ascii "-Inf" else ascii "Inf")
  else d.toGeneral 15

namespace Number

def toDouble : Number → Double
  | .integer i => Double.ofInt i.toInt
  | .real d => d

/-- The integer part, clamped to 64 bits. -/
def toInt64 : Number → Int64
  | .integer i => i
  | .real d => d.saturate

def toValue : Number → Value
  | .integer i => .integer i
  | .real d => .float d

end Number

namespace Value

def bool (b : Bool) : Value := .integer (if b then 1 else 0)

/-- Truth: empty, zero, the empty text, the text `0` and empty collections are false. -/
def truthy : Value → Bool
  | .empty => false
  | .integer i => i != 0
  | .float d => !d.isZero
  | .string t => !t.isEmpty && t != ascii "0"
  | .bytes t => !t.isEmpty
  | .list items => !items.isEmpty

mutual
/-- Equality of kind and content; a NaN equals a NaN and the two zeros are equal. -/
def same : Value → Value → Bool
  | .empty, .empty => true
  | .integer a, .integer b => a == b
  | .float a, .float b => (a.isNaN && b.isNaN) || a.eq b
  | .string a, .string b => a == b
  | .bytes a, .bytes b => a == b
  | .list as, .list bs => sameList as bs
  | _, _ => false

def sameList : List Value → List Value → Bool
  | [], [] => true
  | a :: as, b :: bs => same a b && sameList as bs
  | _, _ => false
end

/-- Text in double quotes, with quotes, backslashes and newlines escaped. -/
def quoted (t : Text) : Text :=
  ch '"' :: t.flatMap escape ++ [ch '"']
where
  escape (b : UInt8) : Text :=
    if b == ch '"' || b == ch '\\' then [ch '\\', b]
    else if b == ch '\n' then ascii "\\n"
    else [b]

mutual
/-- The value with its kind, as reports show it. -/
def describe : Value → Text
  | .empty => ascii "Empty"
  | .integer i => ascii "Integer(" ++ Text.ofInt i.toInt ++ ascii ")"
  | .float d => ascii "Float(" ++ d.toExact ++ ascii ")"
  | .string t => ascii "String(" ++ quoted t ++ ascii ")"
  | .bytes t =>
    ascii "Bytes([" ++ Text.joinWith (ascii ", ") (t.map fun b => Text.ofNat b.toNat) ++ ascii "])"
  | .list items => ascii "List([" ++ Text.joinWith (ascii ", ") (describeAll items) ++ ascii "])"

def describeAll : List Value → List Text
  | [] => []
  | v :: vs => describe v :: describeAll vs
end

mutual
/-- The members of nested lists in order; any other value stands for itself. -/
def flatten : Value → List Value
  | .list items => flattenAll items
  | v => [v]

def flattenAll : List Value → List Value
  | [] => []
  | v :: vs => flatten v ++ flattenAll vs
end

end Value
end TagFormula

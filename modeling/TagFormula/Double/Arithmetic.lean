import TagFormula.Double.Basic

/-!
Arithmetic on binary64 words. Addition, multiplication, division and remainder round the exact
result; a NaN operand passes through, the first one if both are, and an invalid operation yields
the NaN with its sign set.
-/

namespace TagFormula.Double

/-- A finite word as a signed multiple of `2 ^ e`, for an `e` not above its own exponent. -/
def scaledTo (d : Double) (e : Int) : Int :=
  let n := d.significand * Nat.pow 2 (d.exponent - e).toNat
  if d.isNegative then -(n : Int) else n

/-- The sum of two finite words. An exact zero is positive unless both operands are negative. -/
def addFinite (a b : Double) : Double :=
  let e := min a.exponent b.exponent
  let s := a.scaledTo e + b.scaledTo e
  if s = 0 then ofParts (a.isNegative && b.isNegative) 0
  else ofFraction (s < 0) (s.natAbs * Nat.pow 2 e.toNat) (Nat.pow 2 (-e).toNat)

def add (a b : Double) : Double :=
  if a.isNaN then a
  else if b.isNaN then b
  else if a.isInfinite then
    if b.isInfinite && a.isNegative != b.isNegative then invalid else a
  else if b.isInfinite then b
  else addFinite a b

def sub (a b : Double) : Double := if b.isNaN then add a b else add a b.neg

def mul (a b : Double) : Double :=
  let negative := a.isNegative != b.isNegative
  if a.isNaN then a
  else if b.isNaN then b
  else if a.isInfinite || b.isInfinite then
    if a.isZero || b.isZero then invalid else infinity negative
  else
    let (an, ad) := a.fraction
    let (bn, bd) := b.fraction
    ofFraction negative (an * bn) (ad * bd)

def div (a b : Double) : Double :=
  let negative := a.isNegative != b.isNegative
  if a.isNaN then a
  else if b.isNaN then b
  else if a.isInfinite then
    if b.isInfinite then invalid else infinity negative
  else if b.isInfinite then ofParts negative 0
  else if b.isZero then
    if a.isZero then invalid else infinity negative
  else
    let (an, ad) := a.fraction
    let (bn, bd) := b.fraction
    ofFraction negative (an * bd) (ad * bn)

/-- The remainder of truncated division, exact and with the sign of the first operand. -/
def rem (a b : Double) : Double :=
  if a.isNaN then a
  else if b.isNaN then b
  else if a.isInfinite || b.isZero then invalid
  else if b.isInfinite then a
  else
    let e := min a.exponent b.exponent
    let r := (a.scaledTo e).natAbs % (b.scaledTo e).natAbs
    ofFraction a.isNegative (r * Nat.pow 2 e.toNat) (Nat.pow 2 (-e).toNat)

/-! ### Elementary functions -/

def toFloat (d : Double) : Float := Float.ofBits d.bits

/-- The word of a computed number; a NaN is the one of an invalid operation. -/
def ofFloat (x : Float) : Double := if x.isNaN then invalid else ⟨x.toBits⟩

/-- Applies a function of one number, letting a NaN pass through. -/
def lift (f : Float → Float) (d : Double) : Double := if d.isNaN then d else ofFloat (f d.toFloat)

def sqrt : Double → Double := lift Float.sqrt

def exp : Double → Double := lift Float.exp

def log : Double → Double := lift Float.log

/-- The power function. Whatever the other operand, `1 ^ y` and `x ^ 0` are one. -/
def pow (a b : Double) : Double :=
  if a.eq (ofInt 1) || b.isZero then ofInt 1
  else if a.isNaN then a
  else if b.isNaN then b
  else ofFloat (Float.pow a.toFloat b.toFloat)

end TagFormula.Double

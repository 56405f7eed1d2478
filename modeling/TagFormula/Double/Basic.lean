import TagFormula.Text.Basic

/-!
IEEE 754 binary64 numbers as 64-bit words. A finite word stands for `± m · 2 ^ q`; every inexact
operation computes its exact result first and rounds it once, to the nearest word and, at a tie, to
the even one. A NaN keeps its sign, since printing shows it.
-/

namespace TagFormula

/-- A binary64 word: one sign bit, eleven exponent bits, fifty-two fraction bits. -/
structure Double where
  bits : UInt64
  deriving DecidableEq, Repr, Inhabited

/-- `num / den` rounded to the nearest integer, a half to the even neighbour. -/
def roundHalfEven (num den : Nat) : Nat :=
  let q := num / den
  let r := num % den
  if 2 * r < den then q else if den < 2 * r then q + 1 else q + q % 2

/-- The largest `k` with `2 ^ k ≤ num / den`, for positive `num` and `den`. -/
def floorLogTwo (num den : Nat) : Int :=
  let k : Int := (num.log2 : Int) - (den.log2 : Int)
  if num * Nat.pow 2 (-k).toNat < den * Nat.pow 2 k.toNat then k - 1 else k

namespace Double

/-- The magnitude word of infinity; larger ones are NaN. -/
def infinityWord : Nat := 0x7ff0000000000000

/-- A word from its sign and its remaining 63 bits. -/
def ofParts (negative : Bool) (magnitude : Nat) : Double :=
  ⟨(if negative then 0x8000000000000000 else 0) ||| magnitude.toUInt64⟩

def zero : Double := ⟨0⟩

def infinity (negative : Bool) : Double := ofParts negative infinityWord

/-- The quiet NaN with a given sign. -/
def nan (negative : Bool) : Double := ofParts negative 0x7ff8000000000000

/-- The NaN that an invalid operation on numbers yields: its sign bit is set. -/
def invalid : Double := nan true

def isNegative (d : Double) : Bool := 0x8000000000000000 ≤ d.bits

/-- The word without its sign. Magnitudes are ordered as the absolute values are. -/
def magnitude (d : Double) : Nat := (d.bits &&& 0x7fffffffffffffff).toNat

def isNaN (d : Double) : Bool := infinityWord < d.magnitude

def isInfinite (d : Double) : Bool := d.magnitude == infinityWord

def isFinite (d : Double) : Bool := d.magnitude < infinityWord

def isZero (d : Double) : Bool := d.magnitude == 0

/-- How many fractions there are for each exponent: `2 ^ 52`. -/
def fractionSize : Nat := 0x10000000000000

/-- The exponent field. -/
def exponentField (d : Double) : Nat := d.magnitude / fractionSize

/-- `m` in `|d| = m · 2 ^ q`. -/
def significand (d : Double) : Nat :=
  if d.exponentField = 0 then d.magnitude % fractionSize else fractionSize + d.magnitude % fractionSize

/-- `q` in `|d| = m · 2 ^ q`. -/
def exponent (d : Double) : Int := (max d.exponentField 1 : Int) - 1075

/-- The absolute value of a finite word as a fraction. -/
def fraction (d : Double) : Nat × Nat :=
  (d.significand * Nat.pow 2 d.exponent.toNat, Nat.pow 2 (-d.exponent).toNat)

def neg (d : Double) : Double := ⟨d.bits ^^^ 0x8000000000000000⟩

def abs (d : Double) : Double := ofParts false d.magnitude

/-- The word nearest to `± num / den`, or an infinity past the largest finite one. -/
def ofFraction (negative : Bool) (num den : Nat) : Double :=
  if num = 0 then ofParts negative 0
  else
    -- The spacing of words around the value is `2 ^ q`.
    let q : Int := max (floorLogTwo num den - 52) (-1074)
    let m := roundHalfEven (num * Nat.pow 2 (-q).toNat) (den * Nat.pow 2 q.toNat)
    let word := (q + 1074).toNat * fractionSize + m
    ofParts negative (min word infinityWord)

/-- The word nearest to an integer. -/
def ofInt (i : Int) : Double := ofFraction (i < 0) i.natAbs 1

/-! ### Order -/

/-- Position on the number line: the words that are not NaN compare as their keys do. -/
def key (d : Double) : Int := if d.isNegative then -(d.magnitude : Int) else d.magnitude

/-- Numeric less-than, false as soon as a NaN takes part. -/
def lt (a b : Double) : Bool := !a.isNaN && !b.isNaN && a.key < b.key

/-- Numeric equality: the two zeros are equal and a NaN equals nothing. -/
def eq (a b : Double) : Bool := !a.isNaN && !b.isNaN && a.key == b.key

def le (a b : Double) : Bool := !a.isNaN && !b.isNaN && a.key ≤ b.key

/-- Below zero. -/
def isBelowZero (d : Double) : Bool := !d.isNaN && d.key < 0

/-! ### Integer part -/

/-- The integer part of a finite word, toward zero. -/
def toInt (d : Double) : Int :=
  let n := d.significand * Nat.pow 2 d.exponent.toNat / Nat.pow 2 (-d.exponent).toNat
  if d.isNegative then -(n : Int) else n

/-- Drops the fraction and keeps the sign, also of zero; infinities and NaN stay. -/
def trunc (d : Double) : Double :=
  if d.isFinite then ofFraction d.isNegative d.toInt.natAbs 1 else d

end Double
end TagFormula

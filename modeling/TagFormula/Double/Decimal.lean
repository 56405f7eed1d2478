import TagFormula.Double.Basic

/-!
Decimal text of binary64 words: fixed, scientific and general notation with a given precision. The
digits come from the exact value, rounded once with a half going to the even digit.
-/

namespace TagFormula

/-- The largest `k` with `10 ^ k ≤ num / den`, for positive `num` and `den`. -/
def floorLogTen (num den : Nat) : Int :=
  let k : Int := ((Text.ofNat num).length : Int) - ((Text.ofNat den).length : Int)
  if num * Nat.pow 10 (-k).toNat < den * Nat.pow 10 k.toNat then k - 1 else k

namespace Double

/-- How a number is written out in digits. -/
inductive Style where
  | fixed
  | scientific
  | general
  deriving DecidableEq, Repr

/-- A decimal in scientific form: `places + 1` digits and the exponent of the first one. -/
structure Scientific where
  digits : Text
  exponent : Int
  deriving DecidableEq, Repr

/-- Rounds a fraction to `places` digits after the first one. -/
def Scientific.ofFraction (num den places : Nat) : Scientific :=
  if num = 0 then ⟨List.replicate (places + 1) (ch '0'), 0⟩
  else
    let x := floorLogTen num den
    let shift := (places : Int) - x
    let m := roundHalfEven (num * Nat.pow 10 shift.toNat) (den * Nat.pow 10 (-shift).toNat)
    -- Rounding up may reach the next power of ten.
    if m = Nat.pow 10 (places + 1) then ⟨Text.ofNat (Nat.pow 10 places), x + 1⟩ else ⟨Text.ofNat m, x⟩

/-- The point and the digits after it; a bare point is written only if `keepPoint`. -/
def pointAnd (keepPoint : Bool) (digits : Text) : Text :=
  if digits.isEmpty && !keepPoint then [] else ch '.' :: digits

/-- An exponent with its sign and at least two digits. -/
def exponentText (x : Int) : Text :=
  let digits := Text.ofNat x.natAbs
  (if x < 0 then ch '-' else ch '+') :: (if digits.length < 2 then ch '0' :: digits else digits)

def fixedText (keepPoint : Bool) (num den places : Nat) : Text :=
  let digits := Text.ofNat (roundHalfEven (num * Nat.pow 10 places) den)
  let padded := List.replicate (places + 1 - digits.length) (ch '0') ++ digits
  let whole := padded.length - places
  padded.take whole ++ pointAnd keepPoint (padded.drop whole)

def scientificText (keepPoint : Bool) (num den places : Nat) : Text :=
  let s := Scientific.ofFraction num den places
  s.digits.take 1 ++ pointAnd keepPoint (s.digits.drop 1) ++ ch 'e' :: exponentText s.exponent

/-- Drops the zeros at the end. -/
def dropTrailingZeros (t : Text) : Text := (t.reverse.dropWhile (· == ch '0')).reverse

/-- General notation with `precision` significant digits: scientific for exponents below `-4` and
from `precision` on. Trailing zeros of the fraction go unless `keepPoint`. -/
def generalText (keepPoint : Bool) (num den precision : Nat) : Text :=
  let p := max precision 1
  let s := Scientific.ofFraction num den (p - 1)
  let fractionDigits (t : Text) : Text := if keepPoint then t else dropTrailingZeros t
  if -4 ≤ s.exponent ∧ s.exponent < p then
    let places := ((p : Int) - 1 - s.exponent).toNat
    let text := fixedText keepPoint num den places
    let whole := text.takeWhile (· != ch '.')
    whole ++ pointAnd keepPoint (fractionDigits (text.drop (whole.length + 1)))
  else
    s.digits.take 1 ++ pointAnd keepPoint (fractionDigits (s.digits.drop 1))
      ++ ch 'e' :: exponentText s.exponent

/-- The absolute value of a word in a notation; `inf` and `nan` for what is not finite. -/
def magnitudeText (style : Style) (keepPoint : Bool) (precision : Nat) (d : Double) : Text :=
  if d.isNaN then ascii "nan"
  else if d.isInfinite then ascii "inf"
  else
    let (num, den) := d.fraction
    match style with
    | .fixed => fixedText keepPoint num den precision
    | .scientific => scientificText keepPoint num den precision
    | .general => generalText keepPoint num den precision

/-- General notation with a sign and a number of significant digits. -/
def toGeneral (precision : Nat) (d : Double) : Text :=
  (if d.isNegative then [ch '-'] else []) ++ magnitudeText .general false precision d

/-- Seventeen digits, enough to tell any two words apart. -/
def toExact (d : Double) : Text := toGeneral 17 d

end Double
end TagFormula

import TagFormula.Value.Operator

/-!
The named functions on values: joining and splitting text, integer parts, roots and logarithms,
reading digits in other bases, letter case, and division that answers zero for a false divisor.
-/

namespace TagFormula

namespace Text

/-- The parts before and after the first occurrence of a separator. -/
def cutAt? (sep : Text) : Text → Option (Text × Text)
  | [] => if sep.isEmpty then some ([], []) else none
  | b :: rest =>
    if sep.isPrefixOf (b :: rest) then some ([], (b :: rest).drop sep.length)
    else (cutAt? sep rest).map fun (before, after) => (b :: before, after)

theorem length_lt_of_cutAt? {sep t before after : Text} (hsep : sep ≠ [])
    (h : cutAt? sep t = some (before, after)) : after.length < t.length := by
  induction t generalizing before with
  | nil => simp [cutAt?, hsep] at h
  | cons b rest ih =>
    rw [cutAt?] at h
    split at h
    · have hafter : (b :: rest).drop sep.length = after := by simp_all
      have hpos := List.length_pos_iff.2 hsep
      rw [← hafter, List.length_drop, List.length_cons]
      omega
    · obtain ⟨⟨pre, suf⟩, hcut, heq⟩ := Option.map_eq_some_iff.1 h
      have hsuf : suf = after := by simp_all
      exact Nat.lt_succ_of_lt (ih (hsuf ▸ hcut))

/-- The fields between the occurrences of a non-empty separator, empty ones included. -/
def fieldsBetween (sep t : Text) : List Text :=
  if hsep : sep = [] then [t]
  else
    match h : cutAt? sep t with
    | none => [t]
    | some (before, after) =>
      have := length_lt_of_cutAt? hsep h
      before :: fieldsBetween sep after
termination_by t.length

/-- The runs of bytes that are no blanks. -/
def words (t : Text) : List Text := go [] t
where
  /-- `current` holds the unfinished word in reverse. -/
  go (current : Text) : Text → List Text
    | [] => if current.isEmpty then [] else [current.reverse]
    | b :: rest =>
      if !Byte.isSpace b then go (b :: current) rest
      else if current.isEmpty then go [] rest
      else current.reverse :: go [] rest

/-- Splits at a separator. A single space separates words; without a separator every byte is a
field. Empty fields at the end are dropped. -/
def splitAtEach (sep t : Text) : List Text :=
  if sep = ascii " " then words t
  else if sep.isEmpty then t.map fun b => [b]
  else ((fieldsBetween sep t).reverse.dropWhile List.isEmpty).reverse

/-- The digits of a base at the start of a text, underscores skipped. -/
def leadingDigits (base : Nat) : Text → List Nat
  | [] => []
  | b :: rest =>
    if b == ch '_' then leadingDigits base rest
    else match Byte.digitValue? base b with
      | some d => d :: leadingDigits base rest
      | none => []

end Text

namespace Number

/-- Digits read so far: their value in a 64-bit word that wraps around, whether it did, and the real
that accumulates beside it. -/
structure Accumulator where
  word : UInt64
  overflowed : Bool
  real : Double
  deriving DecidableEq, Repr

namespace Accumulator

def empty : Accumulator := ⟨0, false, Double.zero⟩

/-- Appends a digit. The word is compared before it is multiplied, and an overflow is never taken
back. -/
def push (base : Nat) (a : Accumulator) (digit : Nat) : Accumulator where
  word := a.word * base.toUInt64 + digit.toUInt64
  overflowed := a.overflowed || (0xffffffffffffffff - digit.toUInt64) / base.toUInt64 < a.word
  real := (a.real.mul (Double.ofInt base)).add (Double.ofInt digit)

/-- The word while it has 63 bits, else the real. -/
def toNumber (a : Accumulator) : Number :=
  if a.overflowed || 0x7fffffffffffffff < a.word then .real a.real else .integer a.word.toInt64

end Accumulator

/-- The value of digits in a base: exact while it has 63 bits, else the real that accumulates digit
by digit. -/
def ofDigits (base : Nat) (digits : List Nat) : Number :=
  (digits.foldl (Accumulator.push base) .empty).toNumber

end Number

namespace Value

/-- Joins the flattened arguments with the first one between them. -/
def join : List Value → Except Fault Value
  | [] => .error .missingSeparator
  | separator :: rest => do
    let sep ← separator.toText
    let parts ← (flattenAll rest).mapM toText
    return .string (Text.joinWith sep parts)

def split (separator text : Value) : Except Fault Value := do
  let sep ← separator.toText
  let input ← text.toText
  return .list ((Text.splitAtEach sep input).map .string)

/-- The number of bytes; an empty value has no length. -/
def length : Value → Except Fault Value
  | .empty => .ok .empty
  | v => return .integer (Int64.ofNat (← v.toText).length)

/-- The integer part. A real stays one if its integer part exceeds 64 bits. -/
def intPart (v : Value) : Except Fault Value := do
  match ← v.argument "int" with
  | .integer i => return .integer i
  | .real d => return if d.fitsInt64 then .integer (Int64.ofInt d.toInt) else .float d.trunc

def abs (v : Value) : Except Fault Value := do
  match ← v.argument "abs" with
  | .integer i => return (Number.exactOr i.toInt.natAbs (Double.ofInt i.toInt).neg).toValue
  | .real d => return .float d.abs

def sqrt (v : Value) : Except Fault Value := do
  let d := (← v.argument "sqrt").toDouble
  if d.isBelowZero then throw (.noSquareRoot d)
  return .float d.sqrt

def exp (v : Value) : Except Fault Value := return .float (← v.argument "exp").toDouble.exp

def log (v : Value) : Except Fault Value := do
  let d := (← v.argument "log").toDouble
  if d.isBelowZero || d.isZero then throw (.noLogarithm d)
  return .float d.log

/-- Drops a letter, given in lower case, from the start. -/
def dropLetter? (letter : Char) : Text → Option Text
  | b :: rest => if Byte.toLower b == ch letter then some rest else none
  | [] => none

/-- Drops a letter, or a zero and a letter, from the start. -/
def dropMarker? (letter : Char) (t : Text) : Option Text :=
  match t with
  | b :: rest => if b == ch '0' then dropLetter? letter rest else dropLetter? letter t
  | [] => none

/-- Reads hexadecimal digits, behind `0x` or `x` if it is there. -/
def hex (v : Value) : Except Fault Value := do
  let t := Text.dropSpaces (← v.toText)
  return (Number.ofDigits 16 (Text.leadingDigits 16 ((dropMarker? 'x' t).getD t))).toValue

/-- Reads octal digits, or those of the base that `x`, `b` or `o`, perhaps behind a zero, names. -/
def oct (v : Value) : Except Fault Value := do
  let t := Text.dropSpaces (← v.toText)
  let (base, digits) : Nat × Text :=
    match dropMarker? 'x' t, dropMarker? 'b' t, dropMarker? 'o' t with
    | some rest, _, _ => (16, rest)
    | _, some rest, _ => (2, rest)
    | _, _, some rest => (8, rest)
    | none, none, none => (8, t)
  return (Number.ofDigits base (Text.leadingDigits base digits)).toValue

def uc (v : Value) : Except Fault Value := return .string (Text.toUpper (← v.toText))

def lc (v : Value) : Except Fault Value := return .string (Text.toLower (← v.toText))

/-- Real division that answers zero for a divisor that is false or zero. The divisor is read
first. -/
def safeDivision (numerator divisor : Value) : Except Fault Value := do
  if !divisor.truthy then return .float Double.zero
  let d := (← divisor.argument "safe_division").toDouble
  if d.isZero then return .float Double.zero
  return .float ((← numerator.argument "safe_division").toDouble.div d)

def safeReciprocal (divisor : Value) : Except Fault Value := safeDivision (.integer 1) divisor

end Value
end TagFormula

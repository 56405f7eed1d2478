import TagFormula.Double.Arithmetic
import TagFormula.Value.View

/-!
Arithmetic on values. Two integers give the exact integer while it has 64 bits and a rounded real
otherwise; every other pair is computed with reals.
-/

namespace TagFormula

namespace Number

/-- The exact result if it has 64 bits, and the rounded one otherwise. -/
def exactOr (exact : Int) (rounded : Double) : Number :=
  ((int64? exact).map .integer).getD (.real rounded)

def isZero : Number → Bool
  | .integer i => i == 0
  | .real d => d.isZero

def add : Number → Number → Number
  | .integer x, .integer y => exactOr (x.toInt + y.toInt) ((Double.ofInt x.toInt).add (Double.ofInt y.toInt))
  | x, y => .real (x.toDouble.add y.toDouble)

def sub : Number → Number → Number
  | .integer x, .integer y => exactOr (x.toInt - y.toInt) ((Double.ofInt x.toInt).sub (Double.ofInt y.toInt))
  | x, y => .real (x.toDouble.sub y.toDouble)

def mul : Number → Number → Number
  | .integer x, .integer y => exactOr (x.toInt * y.toInt) ((Double.ofInt x.toInt).mul (Double.ofInt y.toInt))
  | x, y => .real (x.toDouble.mul y.toDouble)

/-- Two integers give an integer if the division leaves no remainder. The least integer divided by
minus one is the one quotient past 64 bits. -/
def div (x y : Number) : Except Fault Number :=
  if y.isZero then .error .zeroDivisor
  else
    let rounded := x.toDouble.div y.toDouble
    match x, y with
    | .integer x, .integer y =>
      let overflows := x == Int64.minValue && y == -1
      if !overflows && x % y == 0 then .ok (.integer (x / y)) else .ok (.real rounded)
    | _, _ => .ok (.real rounded)

/-- The remainder of whole reals, moved to the sign of the divisor. -/
def modReal (x y : Double) : Except Fault Number :=
  if y.isZero then .error .zeroModulus
  else
    let r := x.rem y
    .ok (.real (if !r.isZero && r.isBelowZero != y.isBelowZero then r.add y else r))

/-- The remainder of two words, moved to the sign of the divisor, by a remainder toward zero and a sum. Minus
one divides everything and is settled first, since its quotient may leave the range. -/
def modWordBy {m : Type → Type} [Monad m] (rem add : Int64 → Int64 → m Int64) (x y : Int64) : m Int64 :=
  if y == -1 then return 0
  else do
    let r ← rem x y
    if r != 0 && (r < 0) != (y < 0) then add r y else return r

def modWord (x y : Int64) : Int64 := Id.run (modWordBy (fun x y => pure (x % y)) (fun r y => pure (r + y)) x y)

/-- The remainder of the integer parts, with the sign of the divisor. Reals past the 64-bit range
stay reals. -/
def mod (x y : Number) : Except Fault Number :=
  let fits : Number → Bool
    | .integer _ => true
    | .real d => d.fitsInt64
  if fits x && fits y then
    if y.toInt64 == 0 then .error .zeroModulus else .ok (.integer (modWord x.toInt64 y.toInt64))
  else modReal x.toDouble.trunc y.toDouble.trunc

/-- Square and multiply on 64-bit integers: `result · factor ^ n`, or nothing as soon as a product
leaves the range. -/
def powExact? (result factor : Int) (n : Nat) : Option Int :=
  if h : n = 0 then some result
  else do
    let result ← if n % 2 = 1 then (int64? (result * factor)).map Int64.toInt else some result
    if n / 2 = 0 then return result
    let factor ← (int64? (factor * factor)).map Int64.toInt
    powExact? result factor (n / 2)
termination_by n
decreasing_by omega

/-- A power with an integer base and a natural exponent is exact while it has 64 bits. -/
def pow (x y : Number) : Number :=
  let rounded := x.toDouble.pow y.toDouble
  match x, y with
  | .integer b, .integer e =>
    if 0 ≤ e then
      match powExact? 1 b.toInt e.toInt.toNat with
      | some r => .integer (Int64.ofInt r)
      | none => .real rounded
    else .real rounded
  | _, _ => .real rounded

/-- Integers compare exactly, any other pair as reals; a NaN counts as equal to everything. -/
def compare : Number → Number → Ordering
  | .integer x, .integer y => Ord.compare x y
  | x, y =>
    if x.toDouble.lt y.toDouble then .lt else if y.toDouble.lt x.toDouble then .gt else .eq

/-- The 64-bit word of a number: negative ones in two's complement, reals by their integer part,
clamped at both ends. -/
def toWord : Number → UInt64
  | .integer i => i.toUInt64
  | .real d =>
    if d.isNaN then 0
    else if d.isBelowZero then d.saturate.toUInt64
    else if d.isInfinite || 0x10000000000000000 ≤ d.toInt then 0xffffffffffffffff
    else d.toInt.toNat.toUInt64

/-- A word as a number: an integer if it has 63 bits, else a real. -/
def ofWord (w : UInt64) : Number :=
  if w < 0x8000000000000000 then .integer w.toInt64 else .real (Double.ofInt w.toNat)

end Number

namespace Value

/-- Applies an operation to the numeric views of two operands, left before right. -/
def onNumbers (op : String) (f : Number → Number → Except Fault Number) (a b : Value) :
    Except Fault Value := do
  let x ← a.operand op
  let y ← b.operand op
  return (← f x y).toValue

def add : Value → Value → Except Fault Value := onNumbers "+" fun x y => .ok (x.add y)

def sub : Value → Value → Except Fault Value := onNumbers "-" fun x y => .ok (x.sub y)

def mul : Value → Value → Except Fault Value := onNumbers "*" fun x y => .ok (x.mul y)

def div : Value → Value → Except Fault Value := onNumbers "/" Number.div

def mod : Value → Value → Except Fault Value := onNumbers "%" Number.mod

def pow : Value → Value → Except Fault Value := onNumbers "**" fun x y => .ok (x.pow y)

/-! ### Bits -/

/-- The word of an operand. -/
def wordOperand (op : String) (v : Value) : Except Fault UInt64 := return (← v.operand op).toWord

def onWords (op : String) (f : UInt64 → UInt64 → UInt64) (a b : Value) : Except Fault Value := do
  let x ← a.wordOperand op
  let y ← b.wordOperand op
  return (Number.ofWord (f x y)).toValue

def bitAnd : Value → Value → Except Fault Value := onWords "&" (· &&& ·)

def bitOr : Value → Value → Except Fault Value := onWords "|" (· ||| ·)

def bitXor : Value → Value → Except Fault Value := onWords "^" (· ^^^ ·)

/-- A shift by 64 places or more is zero, whatever is shifted; the distance is read first. -/
def shift (op : String) (f : UInt64 → UInt64 → UInt64) (a b : Value) : Except Fault Value := do
  let distance ← b.wordOperand op
  if 64 ≤ distance then return .integer 0
  let word ← a.wordOperand op
  return (Number.ofWord (f word distance)).toValue

def shiftLeft : Value → Value → Except Fault Value := shift "<<" (· <<< ·)

def shiftRight : Value → Value → Except Fault Value := shift ">>" (· >>> ·)

/-- The complement of the low 32 bits. -/
def bitNot (a : Value) : Except Fault Value := do
  let low := (← a.wordOperand "~").toUInt32
  return .integer (Int64.ofNat (low ^^^ 0xffffffff).toNat)

end Value
end TagFormula

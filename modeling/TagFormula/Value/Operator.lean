import TagFormula.Value.Arithmetic

/-!
Comparison, text and logical operators, and element access. Comparisons and logical operators
answer with the integers one and zero.
-/

namespace TagFormula.Value

/-! ### Comparison -/

def orderInt : Ordering → Int64
  | .lt => -1
  | .eq => 0
  | .gt => 1

/-- Compares as numbers; the second operand is read first. -/
def compareNumbers (op : String) (a b : Value) : Except Fault Ordering := do
  let y ← b.operand op
  let x ← a.operand op
  return x.compare y

def compareTexts (op : String) (a b : Value) : Except Fault Ordering := do
  let x ← a.textOperand op
  let y ← b.textOperand op
  return if x < y then .lt else if x = y then .eq else .gt

def numEq (a b : Value) : Except Fault Value := return bool (← compareNumbers "==" a b).isEq

def numNe (a b : Value) : Except Fault Value := return bool (← compareNumbers "!=" a b).isNe

def numLt (a b : Value) : Except Fault Value := return bool (← compareNumbers "<" a b).isLT

def numGt (a b : Value) : Except Fault Value := return bool (← compareNumbers ">" a b).isGT

def numLe (a b : Value) : Except Fault Value := return bool (← compareNumbers "<=" a b).isLE

def numGe (a b : Value) : Except Fault Value := return bool (← compareNumbers ">=" a b).isGE

def numCmp (a b : Value) : Except Fault Value :=
  return .integer (orderInt (← compareNumbers "<=>" a b))

def strEq (a b : Value) : Except Fault Value := return bool (← compareTexts "eq" a b).isEq

def strNe (a b : Value) : Except Fault Value := return bool (← compareTexts "ne" a b).isNe

def strLt (a b : Value) : Except Fault Value := return bool (← compareTexts "lt" a b).isLT

def strGt (a b : Value) : Except Fault Value := return bool (← compareTexts "gt" a b).isGT

def strLe (a b : Value) : Except Fault Value := return bool (← compareTexts "le" a b).isLE

def strGe (a b : Value) : Except Fault Value := return bool (← compareTexts "ge" a b).isGE

def strCmp (a b : Value) : Except Fault Value :=
  return .integer (orderInt (← compareTexts "cmp" a b))

/-! ### Text -/

def concat (a b : Value) : Except Fault Value := do
  let x ← a.textOperand "."
  let y ← b.textOperand "."
  return .string (x ++ y)

/-- The longest text that repetition builds, in bytes. -/
def maxRepeatSize : Nat := 0x40000000

/-- Copies of a text one after the other; none for a count that is not positive. -/
def repeatText (value count : Value) : Except Fault Value := do
  let unit ← value.textOperand "x"
  let times := (← count.operand "x").toInt64.toInt
  if times ≤ 0 ∨ unit = [] then return .string []
  if times > maxRepeatSize / unit.length then throw (.repeatTooLong times)
  return .string (List.replicate times.toNat unit).flatten

/-! ### Logic -/

def logicalNot (a : Value) : Value := bool (!a.truthy)

def logicalXor (a b : Value) : Value := bool (a.truthy != b.truthy)

/-- The first operand if it is false, else what the second yields. -/
def logicalAnd (a : Value) (b : Unit → Except Fault Value) : Except Fault Value :=
  if a.truthy then b () else .ok a

/-- The first operand if it is true, else what the second yields. -/
def logicalOr (a : Value) (b : Unit → Except Fault Value) : Except Fault Value :=
  if a.truthy then .ok a else b ()

/-- The first operand unless it is empty. -/
def definedOr (a : Value) (b : Unit → Except Fault Value) : Except Fault Value :=
  match a with
  | .empty => b ()
  | v => .ok v

/-! ### Elements -/

/-- A position counted from the end if negative. -/
def position? (size : Nat) (index : Int64) : Option Nat :=
  let at' := if index < 0 then (size : Int) + index.toInt else index.toInt
  if 0 ≤ at' ∧ at' < size then some at'.toNat else none

/-- The element of a list or of bytes. A single value is a list of one; what is not there is empty. -/
def element (v : Value) (index : Int64) : Value :=
  match v with
  | .list items => ((position? items.length index).bind (items[·]?)).getD .empty
  | .bytes t =>
    ((position? t.length index).bind (t[·]?)).elim .empty fun b => .integer (Int64.ofNat b.toNat)
  | .empty => .empty
  | v => if index = 0 ∨ index = -1 then v else .empty

end TagFormula.Value

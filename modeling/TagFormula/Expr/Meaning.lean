import TagFormula.Context
import TagFormula.Expr.Basic
import TagFormula.Value.Format
import TagFormula.Value.Function
import TagFormula.Value.Match
import TagFormula.Value.Template

/-!
What a canonical expression computes from the value and the context: operands from left to right,
then the operation; a conditional, `&&`, `||` and `//` evaluate only what they need.
-/

namespace TagFormula

/-- A computation on the converted value and the context. -/
abbrev Meaning := Value → Context → Except Fault Value

namespace Meaning

/-- Operations that need both operands. -/
def strict : List (String × (Value → Value → Except Fault Value)) :=
  [("+", Value.add), ("-", Value.sub), ("*", Value.mul), ("/", Value.div), ("%", Value.mod),
    ("**", Value.pow), (".", Value.concat), ("x", Value.repeatText), ("==", Value.numEq),
    ("!=", Value.numNe), ("<", Value.numLt), (">", Value.numGt), ("<=", Value.numLe),
    (">=", Value.numGe), ("<=>", Value.numCmp), ("eq", Value.strEq), ("ne", Value.strNe),
    ("lt", Value.strLt), ("gt", Value.strGt), ("le", Value.strLe), ("ge", Value.strGe),
    ("cmp", Value.strCmp), ("&", Value.bitAnd), ("|", Value.bitOr), ("^", Value.bitXor),
    ("<<", Value.shiftLeft), (">>", Value.shiftRight), ("xor", fun a b => .ok (a.logicalXor b))]

/-- Operations that may not need their second operand. -/
def lazily : List (String × (Value → (Unit → Except Fault Value) → Except Fault Value)) :=
  [("&&", Value.logicalAnd), ("and", Value.logicalAnd), ("||", Value.logicalOr),
    ("or", Value.logicalOr), ("//", Value.definedOr)]

def functions : List (String × (List Value → Option (Except Fault Value))) :=
  let one (f : Value → Except Fault Value) : List Value → Option (Except Fault Value)
    | [a] => some (f a)
    | _ => none
  let two (f : Value → Value → Except Fault Value) : List Value → Option (Except Fault Value)
    | [a, b] => some (f a b)
    | _ => none
  [("sprintf", fun args => some (Value.format args)), ("join", fun args => some (Value.join args)),
    ("unpack", two Value.unpack), ("split", two Value.split), ("length", one Value.length),
    ("int", one Value.intPart), ("abs", one Value.abs), ("sqrt", one Value.sqrt),
    ("exp", one Value.exp), ("log", one Value.log), ("hex", one Value.hex), ("oct", one Value.oct),
    ("uc", one Value.uc), ("lc", one Value.lc), ("safe_division", two Value.safeDivision),
    ("safe_reciprocal", one Value.safeReciprocal)]

/-- The entry of a table under a name. -/
def named? {α : Type} (table : List (String × α)) (name : Text) : Option α :=
  (table.find? (ascii ·.1 == name)).map (·.2)

/-- An operation with two operands. -/
def binary? (op : Text) (l r : Meaning) : Option Meaning :=
  match named? strict op, named? lazily op with
  | some f, _ => some fun v c => do f (← l v c) (← r v c)
  | none, some f => some fun v c => do f (← l v c) fun _ => r v c
  | none, none => none

def unary? (op : Text) (x : Meaning) : Option Meaning :=
  if op == ascii "-" then some fun v c => do Value.sub (.integer 0) (← x v c)
  else if op == ascii "+" then some x
  else if op == ascii "!" then some fun v c => return (← x v c).logicalNot
  else if op == ascii "~" then some fun v c => do Value.bitNot (← x v c)
  else none

def conditional (test yes no : Meaning) : Meaning := fun v c => do
  if (← test v c).truthy then yes v c else no v c

/-- A match. Pattern and flags end at their first zero byte, as all text in a compiled formula. -/
def regexMatch (subject : Meaning) (pattern flags : Text) (negated : Bool) : Meaning := fun v c => do
  let t ← subject v c
  let program ← Pattern.compile pattern.upToZero flags.upToZero
  let found ← t.isMatch program
  return if negated then found.logicalNot else found

def literal : Literal → Value
  | .integer i => .integer i
  | .float d => .float d
  | .string t => .string t.upToZero

/-- A call, if the function takes that many arguments. -/
def call? (name : Text) (args : List Meaning) : Option Meaning :=
  match named? functions name with
  | none => none
  | some f =>
    if (f (args.map fun _ => Value.empty)).isSome then
      some fun v c => do
        let values ← args.mapM fun arg => arg v c
        (f values).getD (.ok .empty)
    else none

end Meaning

namespace Expr

mutual
/-- What an expression computes; `none` if it is not canonical. -/
def meaning? : Expr → Option Meaning
  | .hole => none
  | .literal l => some fun _ _ => .ok (Meaning.literal l)
  | .value => some fun v _ => .ok v
  | .element i => some fun v _ => .ok (v.element i)
  | .field name => some fun _ c => .ok (c.get name.upToZero)
  | .binary op l r => do Meaning.binary? op (← meaning? l) (← meaning? r)
  | .unary op x => do Meaning.unary? op (← meaning? x)
  | .conditional c y n => return Meaning.conditional (← meaning? c) (← meaning? y) (← meaning? n)
  | .call name args => do Meaning.call? name (← meanings? args)
  | .repeated x n => do Meaning.binary? (ascii "x") (← meaning? x) (← meaning? n)
  | .regexMatch s pattern flags negated => return Meaning.regexMatch (← meaning? s) pattern flags negated
  | .group .. => none

def meanings? : List Expr → Option (List Meaning)
  | [] => some []
  | e :: es => do return (← meaning? e) :: (← meanings? es)
end

end Expr
end TagFormula

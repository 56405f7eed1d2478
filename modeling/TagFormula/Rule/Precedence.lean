import TagFormula.Rule.Basic

/-!
Operands with operators between them as one operation, by precedence climbing: an operand is read, and then
operators for as long as they bind tightly enough, each with an operation of its own behind it. What is left of
the items is handed from one to the next.
-/

namespace TagFormula

/-- The least precedence of an operator at the top of the right operand. Only an operator that groups to the
right has its equals there. -/
def Operator.rightMinimum (op : Operator) : Nat :=
  if op.rightAssociative then op.precedence else op.precedence + 1

/-- The operator that a token between two operands stands for. -/
def Expr.binaryOperator? (e : Expr) : Option Operator := e.operatorSymbol?.bind Operator.find?

namespace Climb

/-- Takes an operand from the front of the items. -/
def operand? : List Expr → Option (Expr × List Expr)
  | [] => none
  | x :: rest => if x.isOperand then some (x, rest) else none

mutual
/-- Reads an operation from the front of the items, with the operators that bind at least as tightly as
`minimum` says, and what is left. At most `bound` items are taken. -/
def expression? : (bound minimum : Nat) → List Expr → Option (Expr × List Expr)
  | 0, _, _ => none
  | bound + 1, minimum, items => do
    let (left, rest) ← operand? items
    extend? bound minimum left rest

/-- Makes an operation the left operand of the operators behind it, as far as they bind tightly enough. -/
def extend? : (bound minimum : Nat) → Expr → List Expr → Option (Expr × List Expr)
  | _, _, left, [] => some (left, [])
  | 0, _, _, _ :: _ => none
  | bound + 1, minimum, left, o :: rest =>
    match o.binaryOperator? with
    | none => some (left, o :: rest)
    | some op =>
      if op.precedence < minimum then some (left, o :: rest)
      else do
        let (right, rest) ← expression? bound op.rightMinimum rest
        extend? bound minimum (.binary op.symbol left right) rest
end

end Climb

/-- The operation that a run of operands and operators stands for; no item may be left. -/
def Expr.ofRun? (items : List Expr) : Option Expr :=
  match Climb.expression? items.length 0 items with
  | some (e, []) => some e
  | _ => none

end TagFormula

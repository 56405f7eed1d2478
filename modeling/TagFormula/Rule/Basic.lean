import TagFormula.Expr.Basic
import TagFormula.Operator

/-! Reduction rules on expressions, and what their definitions share. -/

namespace TagFormula

/-- A named reduction rule; `none` where it does not apply. -/
structure Rule where
  name : String
  reduce? : Expr → Option Expr

/-- Replaces items from left to right. `step` sees an item and the items behind it, and may give a
replacement for the item and the next `n`. The number says how many items are already covered. The
result is `none` if nothing is replaced. -/
def replaceItems? (step : Expr → List Expr → Option (Expr × Nat)) : Nat → List Expr → Option (List Expr)
  | _, [] => none
  | covered + 1, _ :: rest => replaceItems? step covered rest
  | 0, item :: rest =>
    match step item rest with
    | some (e, n) => some (e :: (replaceItems? step n rest).getD (rest.drop n))
    | none => (replaceItems? step 0 rest).map (item :: ·)

namespace Expr

/-- Items that are not resolved yet as one group. -/
def wrap (items : List Expr) : Expr :=
  .group ⟨.expression, ascii "PPI::Statement::Expression", [], [], none⟩ items

/-- A single item stands for itself. -/
def collapseOrWrap : List Expr → Expr
  | [e] => e
  | items => wrap items

def isComma (e : Expr) : Bool := e.isSymbol "," || e.isSymbol "=>"

/-- Commas and the two signs of a conditional: no operation reaches across one. -/
def isBarrier (e : Expr) : Bool := e.isComma || e.isSymbol "?" || e.isSymbol ":"

/-- Whether an item can be operated on. -/
def isOperand : Expr → Bool
  | .hole => false
  | .group t _ => !(t.kind = .operator || t.kind = .word || t.kind = .cast || t.kind = .separator)
  | _ => true

/-- The content of an operator token. -/
def operatorSymbol? : Expr → Option Text
  | .group t _ => if t.kind = .operator then some t.content else none
  | _ => none

/-- Whether an item is an operator that binds less tightly than a conditional. -/
def bindsBelowConditional (e : Expr) : Bool :=
  (e.operatorSymbol?.bind Operator.precedence?).any (· < Operator.conditionalPrecedence)

/-- A conditional beside an operator that binds less tightly has no agreed reading. -/
def mixesConditional (items : List Expr) : Bool :=
  items.any (·.isSymbol "?") && items.any bindsBelowConditional

end Expr
end TagFormula

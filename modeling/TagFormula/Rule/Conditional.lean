import TagFormula.Rule.Basic

/-! Conditionals: `test ? yes : no`, split at the first `?` and the `:` that belongs to it, so that
a chain of them nests to the right. -/

namespace TagFormula

namespace Conditional

/-- The items up to the `:` that belongs to a `?` in front of them, and those behind it. The number
counts the `?` met on the way whose `:` is still to come. -/
def splitAtColon? : Nat → List Expr → Option (List Expr × List Expr)
  | _, [] => none
  | depth, e :: rest =>
    let goOn (depth : Nat) : Option (List Expr × List Expr) :=
      (splitAtColon? depth rest).map fun (before, after) => (e :: before, after)
    if e.isSymbol "?" then goOn (depth + 1)
    else if e.isSymbol ":" then
      match depth with
      | 0 => some ([], rest)
      | depth + 1 => goOn depth
    else goOn depth

/-- The three parts of a conditional; none of them is empty. -/
def parts? (items : List Expr) : Option (List Expr × List Expr × List Expr) := do
  let isMark (e : Expr) : Bool := e.isSymbol "?"
  let test := items.takeWhile fun e => !isMark e
  let (yes, no) ← splitAtColon? 0 ((items.dropWhile fun e => !isMark e).drop 1)
  if test.isEmpty || yes.isEmpty || no.isEmpty then none else some (test, yes, no)

def reduce? : Expr → Option Expr
  | .group t children =>
    if children.any Expr.isComma || Expr.mixesConditional children then none
    else
      (parts? children).map fun (test, yes, no) =>
        .group t [.conditional (Expr.collapseOrWrap test) (Expr.collapseOrWrap yes)
          (Expr.collapseOrWrap no)]
  | _ => none

end Conditional

def Rule.conditional : Rule := ⟨"ternary", Conditional.reduce?⟩

end TagFormula

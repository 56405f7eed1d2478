import TagFormula.Rule.Precedence

/-!
Operations in a group: prefix operators go to their operands, then each run between commas and
conditional signs becomes one tree.
-/

namespace TagFormula

namespace Operation

/-- The symbol of a prefix operator. -/
def prefixSymbol? (e : Expr) : Option Text := e.operatorSymbol?.filter Operator.isPrefix

/-- Puts prefix operators on the operands directly behind them. `ready` says that one may stand
here: at the start or behind an operator. In front of `**` none is taken, which binds more tightly. -/
def applyPrefixes : Bool → List Expr → List Expr
  | ready, p :: x :: rest =>
    match prefixSymbol? p with
    | some symbol =>
      if ready && x.isOperand && !rest.head?.any (·.isSymbol "**") then
        .unary symbol x :: applyPrefixes false rest
      else p :: applyPrefixes p.isOperator (x :: rest)
    | none => p :: applyPrefixes p.isOperator (x :: rest)
  | _, items => items

/-- Puts prefix operators on their operands until none is left that can be; of several in a row the
innermost comes first. -/
def collapsePrefixes (items : List Expr) : List Expr :=
  let next := applyPrefixes true items
  if next.length < items.length then collapsePrefixes next else items
termination_by items.length

/-- The operation that a run of at least two items stands for. -/
def resolve? (run : List Expr) : Option Expr :=
  if run.length < 2 then none
  else
    match collapsePrefixes run with
    | [e] => some e
    | items => Expr.ofRun? items

/-- The items up to the first barrier, and each barrier with the items behind it. -/
def splitAtBarriers : List Expr → List Expr × List (Expr × List Expr)
  | [] => ([], [])
  | e :: rest =>
    let (run, more) := splitAtBarriers rest
    if e.isBarrier then ([], (e, run) :: more) else (e :: run, more)

/-- A run with its operation resolved, if it can be. -/
def resolved (run : List Expr) : List Expr :=
  match resolve? run with
  | some e => [e]
  | none => run

def reduce? : Expr → Option Expr
  | .group t children =>
    let (first, more) := splitAtBarriers children
    if children.length < 2 || Expr.mixesConditional children then none
    else if (first :: more.map (·.2)).any fun run => (resolve? run).isSome then
      some (.group t (resolved first ++ more.flatMap fun (barrier, run) => barrier :: resolved run))
    else none
  | _ => none

end Operation

def Rule.operation : Rule := ⟨"operator-resolution", Operation.reduce?⟩

end TagFormula

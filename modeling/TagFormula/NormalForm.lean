import TagFormula.Expr.Printer
import TagFormula.Rule.Call
import TagFormula.Rule.Conditional
import TagFormula.Rule.Leaf
import TagFormula.Rule.Operation
import TagFormula.Rule.Shape

/-!
Normal forms: every node, innermost first, is reduced by a list of rules until all of them decline.
The depth of the tree and the number of rounds at one node are bounded.
-/

namespace TagFormula

namespace Rule

/-- The rules that turn token groups into canonical expressions, in their order. -/
def standard : List Rule :=
  [leaf, call, operation, bindMatch, conditional, repetition, guardedDivision, collapse]

/-- One round: each rule once, on what the rules before it left. `none` if all decline. -/
def round? : List Rule → Expr → Option Expr
  | [], _ => none
  | rule :: rest, e =>
    match rule.reduce? e with
    | none => round? rest e
    | some next => some ((round? rest next).getD next)

/-- Rounds until all rules decline, at most as many as given; the parts are brought to normal form
after each. -/
def settle (below : Expr → Expr) (rules : List Rule) : Nat → Expr → Expr
  | 0, e => e
  | n + 1, e =>
    match round? rules e with
    | none => e
    | some next => settle below rules n (next.mapChildren below)

def maxRounds : Nat := 64

/-- Nodes deeper than this are left as they are. -/
def maxDepth : Nat := 512

/-- The normal form of a node, with the number of levels that may still be entered. -/
def normalizeWithin (rules : List Rule) : Nat → Expr → Expr
  | 0, e => e
  | _ + 1, .hole => .hole
  | levels + 1, e =>
    let below := normalizeWithin rules levels
    settle below rules maxRounds (e.mapChildren below)

def normalize (rules : List Rule) (e : Expr) : Expr := normalizeWithin rules (maxDepth + 1) e

/-! ### Steps on the way -/

/-- An application of a rule. -/
structure Application where
  rule : String
  before : Expr
  after : Expr

/-- The applications in a round. -/
def roundSteps : List Rule → Expr → List Application
  | [], _ => []
  | rule :: rest, e =>
    match rule.reduce? e with
    | none => roundSteps rest e
    | some next => ⟨rule.name, e, next⟩ :: roundSteps rest next

/-- The applications until all rules decline. -/
def settleSteps (below : Expr → Expr) (belowSteps : Expr → List Application) (rules : List Rule) :
    Nat → Expr → List Application
  | 0, _ => []
  | n + 1, e =>
    match round? rules e with
    | none => []
    | some next =>
      roundSteps rules e ++ next.children.flatMap belowSteps
        ++ settleSteps below belowSteps rules n (next.mapChildren below)

/-- The applications of rules on the way to the normal form, in order. -/
def stepsWithin (rules : List Rule) : Nat → Expr → List Application
  | 0, _ => []
  | _ + 1, .hole => []
  | levels + 1, e =>
    let below := normalizeWithin rules levels
    let belowSteps := stepsWithin rules levels
    e.children.flatMap belowSteps
      ++ settleSteps below belowSteps rules maxRounds (e.mapChildren below)

def steps (rules : List Rule) (e : Expr) : List Application := stepsWithin rules (maxDepth + 1) e

def Application.toText (a : Application) : Text :=
  ascii a.rule ++ ascii ": " ++ a.before.toText ++ ascii " -> " ++ a.after.toText

end Rule

end TagFormula

import TagFormula.Rule.Basic

/-! Rules for expressions of one shape: bound matches, repetition, guarded division, and groups that
hold a single expression. -/

namespace TagFormula

namespace Literal

def isZero : Literal → Bool
  | .integer i => i == 0
  | .float d => d.isZero
  | .string _ => false

def isOne : Literal → Bool
  | .integer i => i == 1
  | .float d => d.eq (Double.ofInt 1)
  | .string _ => false

end Literal

namespace Expr

def isLiteralZero : Expr → Bool
  | .literal l => l.isZero
  | _ => false

def isLiteralOne : Expr → Bool
  | .literal l => l.isOne
  | _ => false

end Expr

namespace Shape

/-- `x =~ /p/` and `x !~ /p/` bind the match to its subject. -/
def bindMatch : Expr → Option Expr
  | .binary op subject (.regexMatch .hole pattern flags _) =>
    if op == ascii "=~" then some (.regexMatch subject pattern flags false)
    else if op == ascii "!~" then some (.regexMatch subject pattern flags true)
    else none
  | _ => none

/-- `text x count` is a repetition. -/
def repetition : Expr → Option Expr
  | .binary op unit count => if op == ascii "x" then some (.repeated unit count) else none
  | _ => none

/-- `d ? n / d : 0` is a division that yields zero where it cannot divide. -/
def guardedDivision : Expr → Option Expr
  | .conditional guard (.binary op n d) no =>
    if op == ascii "/" && no.isLiteralZero && guard.same d then
      if n.isLiteralOne then some (.call (ascii "safe_reciprocal") [d])
      else some (.call (ascii "safe_division") [n, d])
    else none
  | _ => none

/-- A document, statement or expression that holds one expression is that expression. -/
def collapse : Expr → Option Expr
  | .group t [inner] =>
    if (t.kind = .document || t.kind = .statement || t.kind = .expression) && !inner.isHole then
      some inner
    else none
  | _ => none

end Shape

namespace Rule

def bindMatch : Rule := ⟨"regex-match", Shape.bindMatch⟩

def repetition : Rule := ⟨"string-repeat", Shape.repetition⟩

def guardedDivision : Rule := ⟨"guarded-division", Shape.guardedDivision⟩

def collapse : Rule := ⟨"grouping-collapse", Shape.collapse⟩

end Rule
end TagFormula

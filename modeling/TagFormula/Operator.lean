import TagFormula.Text.Basic

/-! The operators of formulas: which ones take two operands, how tightly each binds, and to which
side it groups. -/

namespace TagFormula

/-- An operator between two operands. -/
structure Operator where
  symbol : Text
  precedence : Nat
  rightAssociative : Bool
  deriving DecidableEq, Repr

namespace Operator

/-- Symbols of one precedence. Only `**` groups to the right. -/
def levels : List (Nat × List String) :=
  [(180, ["**"]), (160, ["=~", "!~"]), (150, ["*", "/", "%", "x"]), (140, ["+", "-", "."]),
    (130, ["<<", ">>"]), (100, ["<", ">", "<=", ">=", "lt", "gt", "le", "ge"]),
    (90, ["==", "!=", "<=>", "eq", "ne", "cmp"]), (80, ["&"]), (70, ["|", "^"]), (60, ["&&"]),
    (50, ["||", "//"]), (3, ["and"]), (1, ["or", "xor"])]

def table : List Operator :=
  levels.flatMap fun level => level.2.map fun s => ⟨ascii s, level.1, level.1 == 180⟩

/-- The operator with a symbol. -/
def find? (symbol : Text) : Option Operator := table.find? (·.symbol == symbol)

/-- The precedence of `?` and `:`. -/
def conditionalPrecedence : Nat := 30

/-- Assignments: `=`, alone or behind an operator that may be combined with it. -/
def isAssignment (symbol : Text) : Bool :=
  let bases := ["", "+", "-", "*", "/", ".", "%", "**", "x", "&", "|", "^", "<<", ">>", "&&", "||", "//"]
  bases.any fun base => ascii base ++ ascii "=" == symbol

/-- How tightly a symbol binds, also where it is not an operator between two operands. -/
def precedence? (symbol : Text) : Option Nat :=
  let isOne (symbols : List String) : Bool := symbols.any (ascii · == symbol)
  match find? symbol with
  | some op => some op.precedence
  | none =>
    if isOne [".."] then some 40
    else if isOne ["?", ":"] then some conditionalPrecedence
    else if isAssignment symbol then some 20
    else if isOne [",", "=>"] then some 10
    else if isOne ["not"] then some 5
    else none

/-- Symbols that may stand in front of an operand. -/
def isPrefix (symbol : Text) : Bool := ["-", "!", "~", "+"].any (ascii · == symbol)

end Operator
end TagFormula

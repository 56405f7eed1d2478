import TagFormula.Expr.Basic
import TagFormula.Value.Fault

/-! Why an expression has no source: a defect and the place of the node that has it. -/

namespace TagFormula.Source

/-- The families of defects. -/
inductive DefectKind where
  | missingContent
  | wrongArity
  | unsupportedStructure
  | unsupportedOperator
  deriving DecidableEq, Repr

namespace DefectKind

def name : DefectKind → Text
  | .missingContent => ascii "MissingContent"
  | .wrongArity => ascii "WrongArity"
  | .unsupportedStructure => ascii "UnsupportedStructure"
  | .unsupportedOperator => ascii "UnsupportedOperator"

def ofName? (t : Text) : Option DefectKind :=
  [.missingContent, .wrongArity, .unsupportedStructure, .unsupportedOperator].find? (·.name == t)

end DefectKind

/-- How many arguments a function takes. -/
inductive Arity where
  | exactly (n : Nat)
  | atLeast (n : Nat)
  deriving DecidableEq, Repr

namespace Arity

def allows (n : Nat) : Arity → Bool
  | .exactly k => n == k
  | .atLeast k => k ≤ n

def toText : Arity → Text
  | .exactly k => Text.ofNat k
  | .atLeast k => ascii "at least " ++ Text.ofNat k

end Arity

/-- What is wrong with one node. -/
inductive Defect where
  | missingPart
  | fieldWithoutName
  | binaryWithoutOperator
  | unaryWithoutOperator
  | callWithoutName
  | unknownBinary (op : Text)
  | unknownUnary (op : Text)
  | unknownFunction (name : Text)
  | wrongArity (name : Text) (arity : Arity) (given : Nat)
  | notFinite
  /-- A division that yields zero where its guard is false, with a guard other than the divisor. -/
  | foreignGuard
  | matchWithoutSubject
  | badPattern (fault : Fault)
  | unresolved (token : Token) (children : Nat)

namespace Defect

def kind : Defect → DefectKind
  | .missingPart | .fieldWithoutName | .binaryWithoutOperator | .unaryWithoutOperator
  | .callWithoutName => .missingContent
  | .unknownBinary _ | .unknownUnary _ => .unsupportedOperator
  | .wrongArity .. => .wrongArity
  | .unknownFunction _ | .notFinite | .foreignGuard | .matchWithoutSubject | .badPattern _
  | .unresolved .. => .unsupportedStructure

/-- Text in single quotes. -/
def inQuotes (t : Text) : Text := ch '\'' :: t ++ [ch '\'']

def detail : Defect → Text
  | .missingPart => ascii "missing child node"
  | .fieldWithoutName => ascii "field reference without a name"
  | .binaryWithoutOperator => ascii "binary operation without an operator"
  | .unaryWithoutOperator => ascii "unary operation without an operator"
  | .callWithoutName => ascii "call without a function name"
  | .unknownBinary op => ascii "unsupported binary operator " ++ inQuotes op
  | .unknownUnary op => ascii "unsupported unary operator " ++ inQuotes op
  | .unknownFunction name => ascii "unsupported function " ++ inQuotes name
  | .wrongArity name arity given =>
    name ++ ascii " expects " ++ arity.toText ++ ascii " argument(s), got " ++ Text.ofNat given
  | .notFinite => ascii "non-finite numeric literal"
  | .foreignGuard => ascii "guarded division whose guard differs from its divisor"
  | .matchWithoutSubject => ascii "regex match without a subject"
  | .badPattern fault => fault.message
  | .unresolved token children =>
    let className :=
      if token.kind = .opaqueToken && !token.className.isEmpty then ch ' ' :: token.className else []
    let content := if token.content.isEmpty then [] else ch ' ' :: inQuotes token.content
    let parts :=
      if children = 0 then [] else ascii " with " ++ Text.ofNat children ++ ascii " children"
    ascii "unresolved " ++ token.kind.name ++ className ++ ascii " node" ++ content ++ parts

end Defect

/-- A step from a node to one of its parts. -/
inductive Step where
  | left
  | right
  | operand
  | test
  | yes
  | no
  | arg (i : Nat)
  | unit
  | count
  | subject
  deriving DecidableEq, Repr

def Step.toText : Step → Text
  | .left => ascii ".left"
  | .right => ascii ".right"
  | .operand => ascii ".operand"
  | .test => ascii ".condition"
  | .yes => ascii ".true_branch"
  | .no => ascii ".false_branch"
  | .arg i => ascii ".args[" ++ Text.ofNat i ++ ascii "]"
  | .unit => ascii ".value"
  | .count => ascii ".count"
  | .subject => ascii ".subject"

/-- The way from the root to a node. -/
abbrev Path := List Step

def pathText (p : Path) : Text := ascii "root" ++ p.flatMap Step.toText

/-- A defect with the place where it was found. -/
structure Failure where
  defect : Defect
  path : Path
  /-- The formula that was given, empty if none was. -/
  formula : Text

namespace Failure

def text (f : Failure) : Text :=
  let source :=
    if f.formula.isEmpty then []
    else ascii " (expression: " ++ Text.oneLine f.formula ++ ascii ")"
  f.defect.kind.name ++ ascii " at " ++ pathText f.path ++ ascii ": " ++ f.defect.detail ++ source

/-- The text as it is reported, up to the first zero byte. -/
def message (f : Failure) : Text := f.text.upToZero

end Failure
end TagFormula.Source

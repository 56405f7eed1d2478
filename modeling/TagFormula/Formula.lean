import TagFormula.Digest
import TagFormula.Log
import TagFormula.NormalForm
import TagFormula.Source.Expression

/-!
Formulas: an expression of a tag definition with the role it plays there. A formula is known by its
identifier, a digest of both, and becomes one C++ function.
-/

namespace TagFormula

/-- What an expression of a tag definition is for. -/
inductive Role where
  /-- Turns a stored value into its meaning. -/
  | valueConv
  /-- Turns a value into text for people. -/
  | printConv
  /-- Decides whether a tag applies. -/
  | condition
  deriving DecidableEq, Repr

namespace Role

def all : List Role := [.valueConv, .printConv, .condition]

def name : Role → Text
  | .valueConv => ascii "ValueConv"
  | .printConv => ascii "PrintConv"
  | .condition => ascii "Condition"

def ofName? (t : Text) : Option Role := all.find? (·.name == t)

/-- The C++ type that a function of this role returns. -/
def returnType : Role → Text
  | .valueConv => ascii "ConversionResult"
  | .printConv => ascii "TagValue"
  | .condition => ascii "bool"

/-- How the names of functions of this role start. -/
def functionStart : Role → Text
  | .valueConv => ascii "value_conv_"
  | .printConv => ascii "print_conv_"
  | .condition => ascii "condition_"

def functionName (r : Role) (identifier : Text) : Text := r.functionStart ++ identifier

end Role

structure Formula where
  text : Text
  role : Role
  deriving DecidableEq, Repr

namespace Formula

/-- The first sixteen hexadecimal digits of the digest of role and text. -/
def identifier (f : Formula) : Text :=
  (Text.toHex (Digest.ofPieces [f.role.name, ascii ":", f.text])).take 16

def functionName (f : Formula) : Text := f.role.functionName f.identifier

/-- The first line of the function, without what ends it. -/
def signature (f : Formula) : Text :=
  f.role.returnType ++ ascii " " ++ f.functionName
    ++ ascii "(const TagValue& val, const EvalContext& ctx)"

def declaration (f : Formula) : Text := f.signature ++ ascii ";"

end Formula

namespace Expr

mutual
/-- Whether the converted value occurs. -/
def usesValue : Expr → Bool
  | .value | .element _ => true
  | .hole | .literal _ | .field _ => false
  | .binary _ l r => usesValue l || usesValue r
  | .unary _ x => usesValue x
  | .conditional c y n => usesValue c || usesValue y || usesValue n
  | .call _ args => anyUsesValue args
  | .repeated x n => usesValue x || usesValue n
  | .regexMatch s _ _ _ => usesValue s
  | .group _ children => anyUsesValue children

def anyUsesValue : List Expr → Bool
  | [] => false
  | e :: es => usesValue e || anyUsesValue es
end

mutual
/-- Whether a field of the context occurs. -/
def usesContext : Expr → Bool
  | .field _ => true
  | .hole | .literal _ | .value | .element _ => false
  | .binary _ l r => usesContext l || usesContext r
  | .unary _ x => usesContext x
  | .conditional c y n => usesContext c || usesContext y || usesContext n
  | .call _ args => anyUsesContext args
  | .repeated x n => usesContext x || usesContext n
  | .regexMatch s _ _ _ => usesContext s
  | .group _ children => anyUsesContext children

def anyUsesContext : List Expr → Bool
  | [] => false
  | e :: es => usesContext e || anyUsesContext es
end

end Expr

/-- A formula with the text of its function. -/
structure FormulaFunction where
  formula : Formula
  source : Text
  deriving DecidableEq, Repr

namespace Formula

/-- The lines of a function's body around an expression. -/
def bodyLines (role : Role) (expression : Text) : List Text :=
  match role with
  | .valueConv =>
    [ascii "  try \x7b", ascii "    return ConversionResult::success(" ++ expression ++ ascii ");",
      ascii "  \x7d catch (const ConversionError& ex) \x7b",
      ascii "    return ConversionResult::failure(ex.what());", ascii "  \x7d"]
  | .printConv => [ascii "  return " ++ expression ++ ascii ";"]
  | .condition => [ascii "  return (" ++ expression ++ ascii ").truthy();"]

/-- The function of a formula, around the C++ text of its expression. -/
def functionText (f : Formula) (e : Expr) (expression : Text) : Text :=
  let comment := ascii "// " ++ f.role.name ++ ascii ": \"" ++ Text.oneLine f.text ++ ascii "\""
  let unused (used : Bool) (name : String) : List Text :=
    if used then [] else [ascii "  (void)" ++ ascii name ++ ascii ";"]
  let lines := [comment, f.signature ++ ascii " \x7b"] ++ unused e.usesValue "val"
    ++ unused e.usesContext "ctx" ++ bodyLines f.role expression ++ [ascii "\x7d"]
  Text.unlines lines

/-- The function of a formula whose expression is given. -/
def define (f : Formula) (e : Expr) : Except Source.Failure FormulaFunction :=
  match Source.ofExpr e with
  | .ok expression => .ok ⟨f, f.functionText e expression⟩
  | .error fault => .error { fault with formula := f.text }

/-- The function of a formula that a source parser has read. -/
def defineFrom (rules : List Rule) (f : Formula) (tree : TokenTree) : Except Source.Failure FormulaFunction :=
  f.define (Rule.normalize rules (Expr.ofTokenTree tree))

/-- The messages on the way to a function, at a level: the applications of rules, the normal form,
and the name if there is no defect. -/
def defineLog (level : Log.Level) (rules : List Rule) (f : Formula) (e : Expr) : Text :=
  let normal := Rule.normalize rules e
  let shown := Text.oneLine f.text
  let applications := (Rule.steps rules e).flatMap fun a => Log.report level .trace a.toText
  let tree := Log.report level .trace
    (ascii "canonical tree for " ++ shown ++ ascii ": " ++ normal.toText)
  let generated := match Source.ofExpr normal with
    | .ok _ => Log.report level .debug (ascii "generated " ++ f.functionName ++ ascii " for " ++ shown)
    | .error _ => []
  applications ++ tree ++ generated

end Formula
end TagFormula

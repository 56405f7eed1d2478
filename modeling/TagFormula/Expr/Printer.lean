import TagFormula.Expr.Basic

/-! Expressions as compact text: `(/ (unary - $val) 256)`, with groups in square brackets. -/

namespace TagFormula

/-- A real has a point, an exponent or a name in its text, so that it never looks like an integer. -/
def Literal.toText : Literal → Text
  | .integer i => Text.ofInt i.toInt
  | .float d =>
    let text := d.toExact
    if text.any fun b => (ascii ".eni").contains b then text else text ++ ascii ".0"
  | .string t => ch '"' :: t.flatMap escape ++ [ch '"']
where
  escape (b : UInt8) : Text := if b == ch '"' || b == ch '\\' then [ch '\\', b] else [b]

namespace Expr

mutual
def toText : Expr → Text
  | .hole => ascii "<null>"
  | .literal l => l.toText
  | .value => ascii "$val"
  | .element i => ascii "$val[" ++ Text.ofInt i.toInt ++ ascii "]"
  | .field name => ascii "$$self\x7b" ++ name ++ ascii "\x7d"
  | .binary op l r =>
    ascii "(" ++ op ++ ascii " " ++ toText l ++ ascii " " ++ toText r ++ ascii ")"
  | .unary op x => ascii "(unary " ++ op ++ ascii " " ++ toText x ++ ascii ")"
  | .conditional c y n =>
    ascii "(? " ++ toText c ++ ascii " " ++ toText y ++ ascii " " ++ toText n ++ ascii ")"
  | .call name args => ascii "(call " ++ name ++ spaced args ++ ascii ")"
  | .repeated x n => ascii "(repeat " ++ toText x ++ ascii " " ++ toText n ++ ascii ")"
  | .regexMatch .hole pattern flags _ => ascii "/" ++ pattern ++ ascii "/" ++ flags
  | .regexMatch subject pattern flags negated =>
    ascii (if negated then "(!~ " else "(=~ ") ++ toText subject ++ ascii " /" ++ pattern
      ++ ascii "/" ++ flags ++ ascii ")"
  | .group t children =>
    ascii "[" ++ t.kind.name ++ (if t.content.isEmpty then [] else ch ' ' :: t.content)
      ++ spaced children ++ ascii "]"

/-- Each part with a space in front. -/
def spaced : List Expr → Text
  | [] => []
  | e :: es => ch ' ' :: toText e ++ spaced es
end

end Expr
end TagFormula

import TagFormula.Double.Decimal
import TagFormula.Rule.Shape
import TagFormula.Source.Escape
import TagFormula.Source.Failure
import TagFormula.Value.Match

/-! Canonical expressions as C++ expressions over the value library. -/

namespace TagFormula.Source

/-- How an operation with two operands is written. -/
inductive Form where
  /-- The sign stands between the operands. -/
  | sign (s : String)
  | function (name : String)
  /-- A function whose second argument is evaluated only if it is needed. -/
  | delayed (name : String)
  deriving DecidableEq, Repr

def binaryForms : List (String × Form) :=
  [("+", .sign "+"), ("-", .sign "-"), ("*", .sign "*"), ("/", .sign "/"), ("%", .sign "%"),
    ("**", .function "rt::power"), (".", .function "rt::concat"), ("x", .function "rt::repeat"),
    ("==", .function "rt::num_eq"), ("!=", .function "rt::num_ne"), ("<", .function "rt::num_lt"),
    (">", .function "rt::num_gt"), ("<=", .function "rt::num_le"), (">=", .function "rt::num_ge"),
    ("<=>", .function "rt::num_cmp"), ("eq", .function "rt::str_eq"), ("ne", .function "rt::str_ne"),
    ("lt", .function "rt::str_lt"), ("gt", .function "rt::str_gt"), ("le", .function "rt::str_le"),
    ("ge", .function "rt::str_ge"), ("cmp", .function "rt::str_cmp"), ("&", .function "rt::bit_and"),
    ("|", .function "rt::bit_or"), ("^", .function "rt::bit_xor"),
    ("<<", .function "rt::shift_left"), (">>", .function "rt::shift_right"),
    ("&&", .delayed "rt::logical_and"), ("and", .delayed "rt::logical_and"),
    ("||", .delayed "rt::logical_or"), ("or", .delayed "rt::logical_or"),
    ("//", .delayed "rt::defined_or"), ("xor", .function "rt::logical_xor")]

def binaryForm? (op : Text) : Option Form := (binaryForms.find? (ascii ·.1 == op)).map (·.2)

/-- A call: the function's name and its argument count. With any number of arguments they are passed
as one list. -/
structure CallForm where
  function : String
  arity : Arity
  deriving DecidableEq, Repr

def callForms : List (String × CallForm) :=
  [("sprintf", ⟨"rt::sprintf", .atLeast 1⟩), ("join", ⟨"rt::join", .atLeast 1⟩),
    ("unpack", ⟨"rt::unpack", .exactly 2⟩), ("split", ⟨"rt::split", .exactly 2⟩),
    ("length", ⟨"rt::length", .exactly 1⟩), ("int", ⟨"rt::int_part", .exactly 1⟩),
    ("abs", ⟨"rt::abs", .exactly 1⟩), ("sqrt", ⟨"rt::sqrt", .exactly 1⟩),
    ("exp", ⟨"rt::exp", .exactly 1⟩), ("log", ⟨"rt::log", .exactly 1⟩),
    ("hex", ⟨"rt::hex", .exactly 1⟩), ("oct", ⟨"rt::oct", .exactly 1⟩),
    ("uc", ⟨"rt::uc", .exactly 1⟩), ("lc", ⟨"rt::lc", .exactly 1⟩),
    ("safe_division", ⟨"rt::safe_division", .exactly 2⟩),
    ("safe_reciprocal", ⟨"rt::safe_reciprocal", .exactly 1⟩)]

def callForm? (name : Text) : Option CallForm := (callForms.find? (ascii ·.1 == name)).map (·.2)

/-! ### Texts -/

/-- A call of a function. -/
def callText (function args : Text) : Text := function ++ ascii "(" ++ args ++ ascii ")"

/-- Arguments with commas between them. -/
def argsText (args : List Text) : Text := Text.joinWith (ascii ", ") args

/-- Integers outside 32 bits are marked as long. -/
def integerText (i : Int64) : Text :=
  let mark := if 0x7fffffff < i.toInt || i.toInt < -0x80000000 then ascii "LL" else []
  callText (ascii "TagValue::integer") (Text.ofInt i.toInt ++ mark)

/-- Seventeen digits, with a point if the text has neither point nor exponent. -/
def realText (d : Double) : Text :=
  let digits := d.toExact
  let point := if digits.any fun b => b == ch '.' || b == ch 'e' then [] else ascii ".0"
  callText (ascii "TagValue::real") (digits ++ point)

def binaryText (form : Form) (left right : Text) : Text :=
  match form with
  | .sign s => ascii "(" ++ left ++ ascii " " ++ ascii s ++ ascii " " ++ right ++ ascii ")"
  | .function name => callText (ascii name) (argsText [left, right])
  | .delayed name =>
    callText (ascii name) (argsText [left, ascii "[&]() \x7b return " ++ right ++ ascii "; \x7d"])

/-- The writer of an operation with one operand. -/
def unaryText? (op : Text) : Option (Text → Text) :=
  if op == ascii "-" then
    some fun x => ascii "(TagValue::integer(0) - " ++ x ++ ascii ")"
  else if op == ascii "+" then some id
  else if op == ascii "!" then some (callText (ascii "rt::logical_not"))
  else if op == ascii "~" then some (callText (ascii "rt::bit_not"))
  else none

def conditionalText (test yes no : Text) : Text :=
  ascii "((" ++ test ++ ascii ").truthy() ? TagValue(" ++ yes ++ ascii ") : TagValue(" ++ no
    ++ ascii "))"

def CallForm.text (form : CallForm) (args : List Text) : Text :=
  match form.arity with
  | .exactly _ => callText (ascii form.function) (argsText args)
  | .atLeast _ => callText (ascii form.function) (ascii "\x7b" ++ argsText args ++ ascii "\x7d")

/-- A match; its pattern is compiled once. -/
def matchText (subject pattern flags : Text) (negated : Bool) : Text :=
  let compiled := callText (ascii "rt::make_regex") (argsText [quoted pattern, quoted flags])
  let once := ascii "[]() -> const std::regex& \x7b static const std::regex re = " ++ compiled
    ++ ascii "; return re; \x7d()"
  let isMatch := callText (ascii "rt::regex_match") (argsText [subject, once])
  if negated then callText (ascii "rt::logical_not") isMatch else isMatch

/-! ### Expressions -/

/-- A numeric literal other than zero. -/
def isNonzeroLiteral : Expr → Bool
  | .literal (.integer i) => i != 0
  | .literal (.float d) => !d.isZero && !d.isNaN
  | _ => false

/-- `g ? n / d : 0` where the guard is not known to keep the divisor from being zero. -/
def hasForeignGuard (yes no : Expr) : Bool :=
  match yes with
  | .binary op _ d => op == ascii "/" && no.isLiteralZero && !isNonzeroLiteral d
  | _ => false

mutual
/-- The C++ text of an expression, or its first defect; `path` leads to the expression. -/
def ofExprAt (path : Path) : Expr → Except Failure Text
  | .hole => fail .missingPart
  | .literal (.integer i) => .ok (integerText i)
  | .literal (.float d) => if d.isFinite then .ok (realText d) else fail .notFinite
  | .literal (.string t) => .ok (callText (ascii "TagValue::string") (quoted t))
  | .value => .ok (ascii "val")
  | .element i => .ok (callText (ascii "rt::element") (argsText [ascii "val", Text.ofInt i.toInt]))
  | .field name =>
    if name.isEmpty then fail .fieldWithoutName else .ok (callText (ascii "ctx.get") (quoted name))
  | .binary op l r =>
    if op.isEmpty then fail .binaryWithoutOperator
    else
      match binaryForm? op with
      | none => fail (.unknownBinary op)
      | some form => do
        let left ← ofExprAt (path ++ [.left]) l
        let right ← ofExprAt (path ++ [.right]) r
        return binaryText form left right
  | .unary op x =>
    if op.isEmpty then fail .unaryWithoutOperator
    else
      match unaryText? op with
      | none => fail (.unknownUnary op)
      | some write => return write (← ofExprAt (path ++ [.operand]) x)
  | .conditional c y n =>
    if hasForeignGuard y n then fail .foreignGuard
    else do
      let test ← ofExprAt (path ++ [.test]) c
      let yes ← ofExprAt (path ++ [.yes]) y
      let no ← ofExprAt (path ++ [.no]) n
      return conditionalText test yes no
  | .call name args =>
    if name.isEmpty then fail .callWithoutName
    else
      match callForm? name with
      | none => fail (.unknownFunction name)
      | some form =>
        if form.arity.allows args.length then
          return form.text (← ofArgsAt path 0 args)
        else fail (.wrongArity name form.arity args.length)
  | .repeated x n => do
    let unit ← ofExprAt (path ++ [.unit]) x
    let count ← ofExprAt (path ++ [.count]) n
    return callText (ascii "rt::repeat") (argsText [unit, count])
  | .regexMatch .hole _ _ _ => fail .matchWithoutSubject
  | .regexMatch s pattern flags negated =>
    match Pattern.compile pattern flags with
    | .error fault => fail (.badPattern fault)
    | .ok _ => return matchText (← ofExprAt (path ++ [.subject]) s) pattern flags negated
  | .group t children => fail (.unresolved t children.length)
where
  /-- A defect of the node itself. -/
  fail (d : Defect) : Except Failure Text := .error ⟨d, path, []⟩

/-- The texts of arguments, the first of which has the given number. -/
def ofArgsAt (path : Path) (i : Nat) : List Expr → Except Failure (List Text)
  | [] => .ok []
  | e :: es => do
    let first ← ofExprAt (path ++ [.arg i]) e
    let rest ← ofArgsAt path (i + 1) es
    return first :: rest
end

/-- The C++ text of an expression, or its first defect. -/
def ofExpr (e : Expr) : Except Failure Text := ofExprAt [] e

end TagFormula.Source

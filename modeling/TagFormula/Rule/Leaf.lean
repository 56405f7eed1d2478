import TagFormula.Literal.Matcher
import TagFormula.Rule.Basic

/-! Literals, matches and references to the value and the context, from their tokens. -/

namespace TagFormula

namespace Leaf

/-- The name in `$$self{name}`, without quotes around it. -/
def fieldOfSymbol? (content : Text) : Option Text :=
  let start := ascii "$$self\x7b"
  if start.isPrefixOf content && content.getLast? == some (ch '\x7d') then
    let name := (content.drop start.length).dropLast
    let name := match Quoted.enclosed? name with
      | some (_, inner) => inner
      | none => name
    if name.isEmpty then none else some name
  else none

/-- The bracket that opens a subscript; zero if the token does not show it. -/
def opener (t : Token) : UInt8 := (t.bounds.head?.or t.content.head?).getD 0

/-- The index in a subscript. -/
def index? : Expr → Option Int64
  | .group t [inner] =>
    if t.kind = .subscript && opener t != ch '\x7b' then
      match inner with
      | .literal (.integer i) => some i
      | .unary op (.literal (.integer i)) => if op == ascii "-" then some (-i) else none
      | _ => none
    else none
  | _ => none

/-- The field name in a subscript. -/
def fieldOfSubscript? : Expr → Option Text
  | .group t [inner] =>
    if t.kind = .subscript && opener t != ch '[' then
      match inner with
      | .group word _ => if word.kind = .word && !word.content.isEmpty then some word.content else none
      | .literal (.string name) => if name.isEmpty then none else some name
      | _ => none
    else none
  | _ => none

def isValue : Expr → Bool
  | .value => true
  | _ => false

/-- A token with a given kind and content. -/
def isToken (kind : TokenKind) (content : String) (e : Expr) : Bool :=
  e.token?.any fun t => t.kind = kind && t.content == ascii content

/-- References written with several tokens: `$val [N]`, `$ $self {F}`, `$$self {F}` and
`$self -> {F}`. -/
def reference? (item : Expr) (rest : List Expr) : Option (Expr × Nat) :=
  let oneMore (e : Expr) : Expr × Nat := (e, 1)
  match rest with
  | [] => none
  | next :: after =>
    if isValue item then (index? next).map fun i => oneMore (.element i)
    else if isToken .cast "$" item && isToken .symbol "$self" next
        || isToken .symbol "$self" item && next.isSymbol "->" then
      (after.head?.bind fieldOfSubscript?).map fun name => (.field name, 2)
    else if isToken .symbol "$$self" item then
      (fieldOfSubscript? next).map fun name => oneMore (.field name)
    else none

def reduce? : Expr → Option Expr
  | .group t children =>
    match t.kind with
    | .number => (Literal.ofNumberToken t.content).map .literal
    | .quote => t.quotedText?.map .string
    | .regexp => (Matcher.read? t.content).map fun (p, flags) => .regexMatch .hole p flags false
    | .symbol =>
      if t.content == ascii "$val" then some .value else (fieldOfSymbol? t.content).map .field
    | _ => (replaceItems? reference? 0 children).map (.group t)
  | _ => none

end Leaf

def Rule.leaf : Rule := ⟨"leaf-lowering", Leaf.reduce?⟩

end TagFormula

import TagFormula.Rule.Basic

/-!
Calls, with and without parentheses. A list operator takes everything behind it; a named unary
operator takes what binds more tightly than a comparison. Other parentheses only group.
-/

namespace TagFormula

namespace Call

def isListOperator (word : Text) : Bool :=
  ["sprintf", "join", "unpack", "split", "pack"].any (ascii · == word)

def isNamedUnary (word : Text) : Bool :=
  ["length", "int", "abs", "sqrt", "exp", "log", "hex", "oct", "uc", "lc", "ucfirst", "lcfirst",
    "ord", "chr", "defined", "sin", "cos"].any (ascii · == word)

def isList (e : Expr) : Bool := e.isKind .list

/-- Operators in words that end a bare argument list. -/
def endsArguments (e : Expr) : Bool := ["and", "or", "xor", "not"].any e.isSymbol

/-- The word of a token. -/
def word? : Expr → Option Text
  | .group t _ => if t.kind = .word then some t.content else none
  | _ => none

/-- Whether an item is a list operator without parentheses behind it. -/
def isBareListOperator (item : Expr) (rest : List Expr) : Bool :=
  (word? item).any isListOperator && !rest.head?.any isList

/-- Adds the argument collected so far, last item first. Nothing between two commas is no argument. -/
def flush (current : List Expr) (args : List Expr) : List Expr :=
  if current.isEmpty then args else Expr.collapseOrWrap current.reverse :: args

/-- The arguments between commas. A bare list operator at the start of one takes all that follows,
commas included. -/
def arguments (items : List Expr) : List Expr := go [] items
where
  go (current : List Expr) : List Expr → List Expr
    | [] => flush current []
    | item :: rest =>
      if item.isComma then flush current (go [] rest)
      else if current.isEmpty && isBareListOperator item rest then
        [Expr.collapseOrWrap (item :: rest)]
      else go (item :: current) rest

/-- The items between parentheses, seen through a group that is all they hold. -/
def listItems : List Expr → List Expr
  | [.group t items] =>
    if t.kind = .expression || t.kind = .statement then items else [.group t items]
  | items => items

/-- The items that belong to a named unary operator without parentheses: operands, and operators
that bind more tightly than a comparison or stand in front of an operand. -/
def unaryOperand (items : List Expr) : List Expr := go true items
where
  /-- `ready` says that a prefix operator may follow. -/
  go (ready : Bool) : List Expr → List Expr
    | [] => []
    | item :: rest =>
      if item.isBarrier then []
      else
        match item.operatorSymbol? with
        | none => item :: go false rest
        | some symbol =>
          if (ready && Operator.isPrefix symbol) || (Operator.precedence? symbol).any (100 < ·) then
            item :: go true rest
          else []

/-- The call that a word starts, and how many items behind the word it covers. -/
def ofWord? (word : Text) (rest : List Expr) : Option (Expr × Nat) :=
  let parenthesised := match rest with
    | .group t items :: _ =>
      if t.kind = .list then some (Expr.call word (arguments (listItems items)), 1) else none
    | _ => none
  let bare := rest.takeWhile fun e => !endsArguments e
  let operand := unaryOperand rest
  match parenthesised with
  | some r => some r
  | none =>
    if isListOperator word && !bare.isEmpty then some (.call word (arguments bare), bare.length)
    else if isNamedUnary word && !operand.isEmpty then
      some (.call word [Expr.collapseOrWrap operand], operand.length)
    else none

/-- The single item in parentheses, unless it is a list of several. -/
def grouped? : Expr → Option Expr
  | .group t [inner] =>
    if t.kind = .list && !inner.isComma then
      match inner with
      | .group u items => if u.kind = .expression && items.any Expr.isComma then none else some inner
      | _ => some inner
    else none
  | _ => none

def step? (item : Expr) (rest : List Expr) : Option (Expr × Nat) :=
  match (word? item).bind (ofWord? · rest) with
  | some r => some r
  | none => (grouped? item).map (·, 0)

def reduce? : Expr → Option Expr
  | .group t children => (replaceItems? step? 0 children).map (.group t)
  | _ => none

end Call

def Rule.call : Rule := ⟨"call-form", Call.reduce?⟩

end TagFormula

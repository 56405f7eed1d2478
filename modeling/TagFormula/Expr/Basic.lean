import TagFormula.TokenTree
import TagFormula.Value.Basic

/-!
Expressions, from the token groups a formula starts as to the canonical form it ends in. A tree is
canonical once no group of tokens is left in it.
-/

namespace TagFormula

inductive Literal where
  | integer (i : Int64)
  | float (d : Double)
  | string (t : Text)
  deriving DecidableEq, Repr

inductive Expr where
  /-- A part that is missing. -/
  | hole
  | literal (l : Literal)
  /-- The value that is converted. -/
  | value
  /-- An element of that value. -/
  | element (index : Int64)
  /-- A field of the context. -/
  | field (name : Text)
  | binary (op : Text) (left right : Expr)
  | unary (op : Text) (operand : Expr)
  | conditional (test yes no : Expr)
  | call (name : Text) (args : List Expr)
  | repeated (unit count : Expr)
  /-- A match; its subject is a hole until one is bound to it. -/
  | regexMatch (subject : Expr) (pattern flags : Text) (negated : Bool)
  /-- Tokens that no rule has resolved yet. -/
  | group (token : Token) (children : List Expr)
  deriving Inhabited

namespace Expr

def integer (i : Int64) : Expr := .literal (.integer i)

def float (d : Double) : Expr := .literal (.float d)

def string (t : Text) : Expr := .literal (.string t)

def isHole : Expr → Bool
  | .hole => true
  | _ => false

/-! ### From token trees -/

mutual
/-- A token tree as an expression. Tokens without meaning are left out. -/
def ofTokenTree : TokenTree → Expr
  | .node t children => .group t (ofTokenTrees children)

def ofTokenTrees : List TokenTree → List Expr
  | [] => []
  | c :: rest =>
    if c.token.isIgnorable then ofTokenTrees rest else ofTokenTree c :: ofTokenTrees rest
end

/-! ### Parts -/

/-- Applies a function to every direct part. The subject that a match lacks stays missing. -/
def mapChildren (f : Expr → Expr) : Expr → Expr
  | .binary op l r => .binary op (f l) (f r)
  | .unary op x => .unary op (f x)
  | .conditional c y n => .conditional (f c) (f y) (f n)
  | .call name args => .call name (args.map f)
  | .repeated x n => .repeated (f x) (f n)
  | .regexMatch .hole p fl neg => .regexMatch .hole p fl neg
  | .regexMatch s p fl neg => .regexMatch (f s) p fl neg
  | .group t children => .group t (children.map f)
  | e => e

/-- The direct parts in order. -/
def children : Expr → List Expr
  | .binary _ l r => [l, r]
  | .unary _ x => [x]
  | .conditional c y n => [c, y, n]
  | .call _ args => args
  | .repeated x n => [x, n]
  | .regexMatch .hole _ _ _ => []
  | .regexMatch s _ _ _ => [s]
  | .group _ children => children
  | _ => []

/-! ### Tokens -/

/-- The token of a group. -/
def token? : Expr → Option Token
  | .group t _ => some t
  | _ => none

def isKind (kind : TokenKind) (e : Expr) : Bool := e.token?.any (·.kind = kind)

def isOperator (e : Expr) : Bool := e.isKind .operator

/-- An operator token with a given symbol. -/
def isSymbol (symbol : String) (e : Expr) : Bool :=
  e.token?.any fun t => t.kind = .operator && t.content == ascii symbol

def isWord (e : Expr) : Bool := e.isKind .word

end Expr

/-! ### Equality -/

/-- Equality of literals; a NaN equals a NaN and the two zeros are equal. -/
def Literal.same : Literal → Literal → Bool
  | .integer a, .integer b => a == b
  | .float a, .float b => a.eq b || (a.isNaN && b.isNaN)
  | .string a, .string b => a == b
  | _, _ => false

namespace Expr

mutual
/-- Structural equality. Groups compare by class, content and parts. -/
def same : Expr → Expr → Bool
  | .hole, .hole => true
  | .literal a, .literal b => a.same b
  | .value, .value => true
  | .element i, .element j => i == j
  | .field a, .field b => a == b
  | .binary op l r, .binary op' l' r' => op == op' && same l l' && same r r'
  | .unary op x, .unary op' x' => op == op' && same x x'
  | .conditional c y n, .conditional c' y' n' => same c c' && same y y' && same n n'
  | .call f args, .call f' args' => f == f' && sameAll args args'
  | .repeated x n, .repeated x' n' => same x x' && same n n'
  | .regexMatch s p fl neg, .regexMatch s' p' fl' neg' =>
    p == p' && fl == fl' && neg == neg' && same s s'
  | .group t cs, .group t' cs' =>
    t.kind = t'.kind && t.className == t'.className && t.content == t'.content && sameAll cs cs'
  | _, _ => false

def sameAll : List Expr → List Expr → Bool
  | [], [] => true
  | a :: as, b :: bs => same a b && sameAll as bs
  | _, _ => false
end

mutual
/-- No group and no missing part is left, other than the subject of a match. -/
def isCanonical : Expr → Bool
  | .hole => false
  | .group .. => false
  | .literal _ | .value | .element _ | .field _ => true
  | .binary _ l r => isCanonical l && isCanonical r
  | .unary _ x => isCanonical x
  | .conditional c y n => isCanonical c && isCanonical y && isCanonical n
  | .call _ args => allCanonical args
  | .repeated x n => isCanonical x && isCanonical n
  | .regexMatch .hole _ _ _ => true
  | .regexMatch s _ _ _ => isCanonical s

def allCanonical : List Expr → Bool
  | [] => true
  | e :: es => isCanonical e && allCanonical es
end

end Expr
end TagFormula

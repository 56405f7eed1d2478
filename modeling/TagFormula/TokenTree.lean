import TagFormula.Text.Basic

/-!
Token trees: what a source parser makes of a formula. Every node has a class, which decides its kind;
containers hold their parts in source order, blanks and comments included.
-/

namespace TagFormula

/-- The kinds of token and container. -/
inductive TokenKind where
  | document
  | statement
  | expression
  | operator
  | symbol
  | cast
  | number
  | quote
  | word
  | list
  | subscript
  | whitespace
  | comment
  | separator
  | regexp
  /-- Any class that no rule knows. -/
  | opaqueToken
  deriving DecidableEq, Repr

namespace TokenKind

def name : TokenKind → Text
  | .document => ascii "Document"
  | .statement => ascii "Statement"
  | .expression => ascii "Expression"
  | .operator => ascii "Operator"
  | .symbol => ascii "Symbol"
  | .cast => ascii "Cast"
  | .number => ascii "Number"
  | .quote => ascii "Quote"
  | .word => ascii "Word"
  | .list => ascii "List"
  | .subscript => ascii "Subscript"
  | .whitespace => ascii "Whitespace"
  | .comment => ascii "Comment"
  | .separator => ascii "Separator"
  | .regexp => ascii "Regexp"
  | .opaqueToken => ascii "Opaque"

/-- Classes whose whole name decides the kind. -/
def ofExactClass : List (String × TokenKind) :=
  [("PPI::Document", .document), ("PPI::Statement::Expression", .expression),
    ("PPI::Token::Operator", .operator), ("PPI::Token::Symbol", .symbol),
    ("PPI::Token::Magic", .symbol), ("PPI::Token::Cast", .cast), ("PPI::Token::Word", .word),
    ("PPI::Structure::List", .list), ("PPI::Structure::Subscript", .subscript),
    ("PPI::Token::Whitespace", .whitespace), ("PPI::Token::Comment", .comment),
    ("PPI::Token::Pod", .comment), ("PPI::Token::Structure", .separator),
    ("PPI::Token::Regexp::Match", .regexp)]

/-- Classes that are decided by how their name starts. -/
def ofClassStart : List (String × TokenKind) :=
  [("PPI::Statement", .statement), ("PPI::Token::Number", .number), ("PPI::Token::Quote", .quote)]

def ofClass (className : Text) : TokenKind :=
  match ofExactClass.find? fun entry => ascii entry.1 == className with
  | some entry => entry.2
  | none =>
    match ofClassStart.find? fun entry => (ascii entry.1).isPrefixOf className with
    | some entry => entry.2
    | none => .opaqueToken

end TokenKind

/-- A token or container without its parts. -/
structure Token where
  kind : TokenKind
  className : Text
  content : Text
  /-- The brackets of a structure. -/
  bounds : Text
  /-- The text of a quote as the source parser decoded it. -/
  decoded : Option Text
  deriving DecidableEq, Repr

/-- A token of a class. -/
def Token.ofClass (className content bounds : Text) (decoded : Option Text) : Token :=
  ⟨TokenKind.ofClass className, className, content, bounds, decoded⟩

/-- A tree of tokens. -/
inductive TokenTree where
  | node (token : Token) (children : List TokenTree)

/-- Tokens without meaning: blanks, comments and semicolons. -/
def Token.isIgnorable (t : Token) : Bool :=
  t.kind = .whitespace || t.kind = .comment || (t.kind = .separator && t.content == ascii ";")

namespace TokenTree

def token : TokenTree → Token
  | .node t _ => t

/-! ### Source text -/

/-- Appends a token, with a space in front unless it opens the text or follows an opening bracket. -/
def appendToken (out token : Text) : Text :=
  if token.isEmpty then out
  else if out.getLast?.all fun b => (ascii "([\x7b").contains b then out ++ token
  else out ++ ch ' ' :: token

/-- The brackets that a container is written in. -/
def brackets (t : Token) : Text × Text :=
  if t.kind = .list then (ascii "(", ascii ")")
  else if t.kind = .subscript then
    if t.bounds.head? = some (ch '[') then (ascii "[", ascii "]") else (ascii "\x7b", ascii "\x7d")
  else ([], [])

mutual
/-- Appends the source text of a tree. -/
def appendSource (out : Text) : TokenTree → Text
  | .node t children =>
    if t.isIgnorable then out
    else if children.isEmpty then appendToken out t.content
    else appendAll (appendToken out (brackets t).1) children ++ (brackets t).2

def appendAll (out : Text) : List TokenTree → Text
  | [] => out
  | c :: rest => appendAll (appendSource out c) rest
end

/-- The tokens of a tree as text, separated by single spaces. -/
def sourceText (t : TokenTree) : Text := appendSource [] t

end TokenTree
end TagFormula

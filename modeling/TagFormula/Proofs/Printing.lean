import TagFormula.Proofs.NumberToken
import TagFormula.Proofs.Replacement
import TagFormula.Proofs.Runs

/-!
Printing and reading back. A canonical expression is printed as a token tree in which every compound
operand stands in parentheses; the normal form of that tree is the expression.
-/

namespace TagFormula

/-! ### Token trees -/

namespace TokenKind

/-- The class that tokens of a kind are printed with. -/
def printedClass? : TokenKind → Option String
  | .operator => some "PPI::Token::Operator"
  | .number => some "PPI::Token::Number"
  | .symbol => some "PPI::Token::Symbol"
  | .word => some "PPI::Token::Word"
  | .quote => some "PPI::Token::Quote::Single"
  | .list => some "PPI::Structure::List"
  | .subscript => some "PPI::Structure::Subscript"
  | .expression => some "PPI::Statement::Expression"
  | .statement => some "PPI::Statement"
  | .document => some "PPI::Document"
  | _ => none

theorem ofClass_printed {kind : TokenKind} {name : String} (h : kind.printedClass? = some name) :
    ofClass (ascii name) = kind := by
  cases kind <;> cases h <;> decide +kernel

end TokenKind

theorem Token.kind_printed {kind : TokenKind} {name : String} (h : kind.printedClass? = some name)
    {content bounds : Text} {decoded : Option Text} :
    (Token.ofClass (ascii name) content bounds decoded).kind = kind := TokenKind.ofClass_printed h

namespace TokenTree

mutual
/-- The number of levels below the top. -/
def depth : TokenTree → Nat
  | .node _ children => depthAll children

def depthAll : List TokenTree → Nat
  | [] => 0
  | c :: rest => max (depth c + 1) (depthAll rest)
end

/-- A token without parts. -/
def leaf (className : String) (content : Text) : TokenTree :=
  .node (Token.ofClass (ascii className) content [] none) []

def operator (symbol : Text) : TokenTree := leaf "PPI::Token::Operator" symbol

def number (digits : Text) : TokenTree := leaf "PPI::Token::Number" digits

def symbol (content : Text) : TokenTree := leaf "PPI::Token::Symbol" content

def word (content : Text) : TokenTree := leaf "PPI::Token::Word" content

/-- A text between single quotes, with quotes and backslashes escaped. -/
def quote (t : Text) : TokenTree :=
  leaf "PPI::Token::Quote::Single" (ch '\'' :: t.flatMap escape ++ [ch '\''])
where
  escape (b : UInt8) : Text := if b == ch '\\' || b == ch '\'' then [ch '\\', b] else [b]

/-- A container without content of its own. -/
def container (className : String) (bounds : Text) (children : List TokenTree) : TokenTree :=
  .node (Token.ofClass (ascii className) [] bounds none) children

def list (children : List TokenTree) : TokenTree :=
  container "PPI::Structure::List" (ascii "()") children

def subscript (children : List TokenTree) : TokenTree :=
  container "PPI::Structure::Subscript" (ascii "[]") children

def expression (children : List TokenTree) : TokenTree :=
  container "PPI::Statement::Expression" [] children

def statement (children : List TokenTree) : TokenTree := container "PPI::Statement" [] children

def document (children : List TokenTree) : TokenTree := container "PPI::Document" [] children

/-- Items in parentheses. -/
def parenthesised (items : List TokenTree) : TokenTree := list [expression items]

end TokenTree

/-! ### The printer -/

namespace Expr

/-- Expressions that are a single token. -/
def isAtom : Expr → Bool
  | .literal _ | .value | .field _ => true
  | _ => false

/-- Expressions that need no parentheses to hold their tokens together. -/
def isCompact : Expr → Bool
  | .element _ | .call .. => true
  | _ => false

/-- The tokens of an operand or argument. `bare` says which elements and calls stand without
parentheses; all else that is not a single token has them. -/
def enclose (bare : Expr → Bool) (e : Expr) (tokens : List TokenTree) : List TokenTree :=
  if e.isAtom || (e.isCompact && bare e) then tokens else [TokenTree.parenthesised tokens]

mutual
/-- The tokens of an expression. -/
def tokens (bare : Expr → Bool) : Expr → List TokenTree
  | .literal (.integer i) => [.number (Text.ofInt i.toInt)]
  | .literal (.string t) => [.quote t]
  | .value => [.symbol (ascii "$val")]
  | .element i => [.symbol (ascii "$val"), .subscript [.number (Text.ofInt i.toInt)]]
  | .field name => [.symbol (ascii "$$self\x7b" ++ name ++ ascii "\x7d")]
  | .unary op x => .operator op :: enclose bare x (tokens bare x)
  | .binary op l r =>
    enclose bare l (tokens bare l) ++ .operator op :: enclose bare r (tokens bare r)
  | .conditional c y n =>
    enclose bare c (tokens bare c) ++ .operator (ascii "?") :: (enclose bare y (tokens bare y)
      ++ .operator (ascii ":") :: enclose bare n (tokens bare n))
  | .repeated x n =>
    enclose bare x (tokens bare x) ++ .operator (ascii "x") :: enclose bare n (tokens bare n)
  | .call name [] => [.word name, .list []]
  | .call name (a :: rest) =>
    [.word name, .parenthesised (enclose bare a (tokens bare a) ++ furtherTokens bare rest)]
  | _ => []

/-- The tokens of further arguments, each behind a comma. -/
def furtherTokens (bare : Expr → Bool) : List Expr → List TokenTree
  | [] => []
  | a :: rest =>
    .operator (ascii ",") :: (enclose bare a (tokens bare a) ++ furtherTokens bare rest)
end

/-- The token tree of a formula. -/
def print (bare : Expr → Bool) (e : Expr) : TokenTree :=
  .document [.statement (tokens bare e)]

mutual
/-- Expressions that the printer has tokens for and that no rule on whole expressions applies to. -/
def Printable : Expr → Prop
  | .literal (.integer i) => 0 ≤ i
  | .literal (.string _) | .value => True
  | .element i => 0 ≤ i
  | .field name => name ≠ [] ∧ ¬(2 ≤ name.length ∧ name.head? = name.getLast? ∧
      (name.head? = some (ch '\'') ∨ name.head? = some (ch '"')))
  | .unary op x => op ∈ ["-", "+", "!", "~"].map ascii ∧ Printable x
  | .binary op l r =>
    (∃ o ∈ Operator.table, o.symbol = op) ∧ op ∉ ["x", "=~", "!~"].map ascii ∧ Printable l ∧ Printable r
  | .conditional c y n =>
    (¬∃ m d, y = .binary (ascii "/") m d ∧ n = .integer 0 ∧ c.same d) ∧
      Printable c ∧ Printable y ∧ Printable n
  | .repeated x n => Printable x ∧ Printable n
  | .call _ args => AllPrintable args
  | _ => False

def AllPrintable : List Expr → Prop
  | [] => True
  | e :: es => Printable e ∧ AllPrintable es
end

/-! ### Items that stand for operands -/

/-- Neither a group nor missing. -/
structure IsResolved (e : Expr) : Prop where
  token? : e.token? = none
  isHole : e.isHole = false

theorem IsResolved.isOperand {x : Expr} (hx : x.IsResolved) : x.isOperand := by
  obtain ⟨htoken, hhole⟩ := hx
  cases x <;> simp_all [Expr.isOperand, Expr.token?, Expr.isHole]

theorem IsResolved.isBarrier {x : Expr} (hx : x.IsResolved) : x.isBarrier = false :=
  isBarrier_of_isOperand hx.isOperand

/-- The items that stand for an operand once their own parts are in normal form. -/
inductive Segment : Expr → List Expr → Prop
  | self {x : Expr} (hx : x.IsResolved) : Segment x [x]
  | enclosed {x : Expr} {t : Token} (ht : t.kind = .list) (hx : x.IsResolved) :
      Segment x [.group t [x]]
  | element {i : Int64} {t : Token} (ht : t.kind = .subscript) (ho : Leaf.opener t ≠ ch '\x7b') :
      Segment (.element i) [.value, .group t [.integer i]]
  | call {args items : List Expr} {w t : Token} (hw : w.kind = .word) (ht : t.kind = .list)
      (ha : Call.arguments (Call.listItems items) = args) :
      Segment (.call w.content args) [.group w [], .group t items]

/-- Operands and operators, and the items they are read from. An operand is followed by an operator or
by nothing. -/
inductive Layout : List Expr → List Expr → Prop
  | nil : Layout [] []
  | operator {o : Expr} {xs items : List Expr} (ho : o.isOperator) (h : Layout xs items) :
      Layout (o :: xs) (o :: items)
  | operand {x : Expr} {segment xs items : List Expr} (hs : Segment x segment)
      (hstop : ∀ e ∈ items.head?, e.isOperator) (h : Layout xs items) :
      Layout (x :: xs) (segment ++ items)

/-- An operator token. -/
theorem isOperator_iff {o : Expr} : o.isOperator ↔ ∃ t parts, o = .group t parts ∧ t.kind = .operator := by
  cases o <;> simp [isOperator, isKind, token?]

theorem reference?_operator {o : Expr} (ho : o.isOperator) (rest : List Expr) :
    Leaf.reference? o rest = none := by
  obtain ⟨t, parts, rfl, hk⟩ := isOperator_iff.1 ho
  exact Leaf.reference?_group (by simp [hk]) (by simp [hk]) parts rest

theorem step?_operator {o : Expr} (ho : o.isOperator) (rest : List Expr) :
    Call.step? o rest = none := by
  obtain ⟨t, parts, rfl, hk⟩ := isOperator_iff.1 ho
  exact Call.step?_group (by simp [hk]) (by simp [hk]) parts rest

theorem reference?_of_not_token {x : Expr} (hx : x.IsResolved) {rest : List Expr}
    (hstop : ∀ e ∈ rest.head?, e.isOperator) : Leaf.reference? x rest = none := by
  cases rest with
  | nil => rfl
  | cons next after =>
    obtain ⟨t, parts, rfl, hk⟩ := isOperator_iff.1 (hstop next rfl)
    have hindex : Leaf.index? (.group t parts) = none := by
      unfold Leaf.index?
      split <;> simp_all
    simp [Leaf.reference?, Leaf.isToken, hx.token?, hindex]

theorem step?_resolved {x : Expr} (hx : x.IsResolved) (rest : List Expr) :
    Call.step? x rest = none := by
  have h := hx.token?
  cases x <;> simp_all [token?, Call.step?, Call.word?, Call.grouped?]

/-- What is left of a segment once references are read. -/
theorem Segment.references {x : Expr} {segment : List Expr} (hs : Segment x segment) {items : List Expr}
    (hstop : ∀ e ∈ items.head?, e.isOperator) :
    ∃ segment', replaceAll Leaf.reference? (segment ++ items)
        = segment' ++ replaceAll Leaf.reference? items ∧
      ∀ rest, replaceAll Call.step? (segment' ++ rest) = x :: replaceAll Call.step? rest := by
  cases hs with
  | self hx =>
    exact ⟨[x], replaceAll_of_none (reference?_of_not_token hx hstop),
      fun rest => replaceAll_of_none (step?_resolved hx rest)⟩
  | @enclosed _ t ht hx =>
    refine ⟨[.group t [x]], replaceAll_of_none ?_, fun rest => ?_⟩
    · exact Leaf.reference?_group (by simp [ht]) (by simp [ht]) _ _
    · have hgrouped : Call.grouped? (.group t [x]) = some x := by
        have h := hx.token?
        cases x <;> simp_all [token?, Call.grouped?, isComma, isSymbol]
      have hstep : Call.step? (.group t [x]) rest = some (x, 0) := by
        simp [Call.step?, Call.word?, ht, hgrouped]
      exact replaceAll_of_some hstep
  | @element i t ht ho =>
    refine ⟨[.element i], ?_, fun rest => ?_⟩
    · have hreference : Leaf.reference? .value (.group t [.integer i] :: items)
          = some (.element i, 1) := by
        simp [Leaf.reference?, Leaf.isValue, Leaf.index?, integer, ht, ho]
      exact replaceAll_of_some hreference
    · exact replaceAll_of_none (step?_resolved ⟨rfl, rfl⟩ rest)
  | @call args parts w t hw ht ha =>
    refine ⟨[.group w [], .group t parts], ?_, fun rest => ?_⟩
    · have hword := Leaf.reference?_group (t := w) (by simp [hw]) (by simp [hw]) []
      have hlist := Leaf.reference?_group (t := t) (by simp [ht]) (by simp [ht]) parts
      exact (replaceAll_of_none (hword _)).trans (congrArg _ (replaceAll_of_none (hlist _)))
    · have hstep : Call.step? (.group w []) (.group t parts :: rest)
          = some (.call w.content args, 1) := by
        simp [Call.step?, Call.word?, Call.ofWord?, hw, ht, ha]
      exact replaceAll_of_some hstep

/-- References and calls turn the items into the operands and operators they stand for. -/
theorem Layout.resolve {xs items : List Expr} (h : Layout xs items) :
    replaceAll Call.step? (replaceAll Leaf.reference? items) = xs := by
  induction h with
  | nil => rfl
  | operator ho _ ih =>
    rw [replaceAll_of_none (reference?_operator ho _), replaceAll_of_none (step?_operator ho _), ih]
  | operand hs hstop _ ih =>
    obtain ⟨segment', hleaf, hcall⟩ := hs.references hstop
    rw [hleaf, hcall, ih]

end Expr

/-! ### One round over operands and operators -/

/-- Kinds of group that are replaced by the single expression they hold. -/
def TokenKind.isWrapper (kind : TokenKind) : Bool :=
  kind = .document || kind = .statement || kind = .expression

theorem TokenKind.isContainer_of_isWrapper {kind : TokenKind} (h : kind.isWrapper) :
    kind.isContainer := by
  cases kind <;> simp_all [isWrapper, isContainer]

namespace Rule

/-- The rules that follow those for tokens and calls. -/
def forOperands : List Rule := [operation, bindMatch, conditional, repetition, guardedDivision, collapse]

theorem foldl_standard_of_layout {t : Token} (ht : t.kind.isWrapper) {xs items : List Expr}
    (h : Expr.Layout xs items) :
    standard.foldl apply (.group t items) = forOperands.foldl apply (.group t xs) := by
  rw [standard, List.foldl_cons, apply_leaf_group (TokenKind.isContainer_of_isWrapper ht),
    List.foldl_cons, apply_call_group, h.resolve, forOperands]

theorem parts?_single (x : Expr) : Conditional.parts? [x] = none := by
  have hcolon : Conditional.splitAtColon? 0 [] = none := rfl
  cases h : x.isSymbol "?" <;> simp [Conditional.parts?, h, hcolon]

theorem conditional_single (t : Token) (x : Expr) : conditional.reduce? (.group t [x]) = none := by
  simp [conditional, Conditional.reduce?, parts?_single]

theorem collapse_single {t : Token} (ht : t.kind.isWrapper) {x : Expr} (hx : x.isHole = false) :
    collapse.reduce? (.group t [x]) = some x := by
  have h : (t.kind = .document || t.kind = .statement || t.kind = .expression) = true := ht
  simp only [collapse, Shape.collapse, h, hx]
  rfl

/-- A wrapper with a single item becomes that item. -/
theorem foldl_single {t : Token} (ht : t.kind.isWrapper) {x : Expr} (hx : x.isHole = false) :
    [bindMatch, conditional, repetition, guardedDivision, collapse].foldl apply (.group t [x]) = x := by
  rw [List.foldl_cons, apply_of_none rfl, List.foldl_cons, apply_of_none (conditional_single t x),
    List.foldl_cons, apply_of_none rfl, List.foldl_cons, apply_of_none rfl, List.foldl_cons,
    apply_of_some (collapse_single ht hx), List.foldl_nil]

theorem foldl_of_operation {t : Token} (ht : t.kind.isWrapper) {x : Expr} (hx : x.isHole = false)
    {xs : List Expr} (h : operation.reduce? (.group t xs) = some (.group t [x])) :
    forOperands.foldl apply (.group t xs) = x := by
  rw [forOperands, List.foldl_cons, apply_of_some h, foldl_single ht hx]

theorem foldl_operand {t : Token} (ht : t.kind.isWrapper) {x : Expr} (hx : x.isHole = false) :
    forOperands.foldl apply (.group t [x]) = x := by
  rw [forOperands, List.foldl_cons, apply_of_none, foldl_single ht hx]
  simp [operation, Operation.reduce?]

/-! ### Single operations -/

/-- A run without barriers and conditional signs is resolved as a whole. -/
theorem operation_of_resolve? {t : Token} {xs : List Expr} {x : Expr}
    (hbarrier : ∀ e ∈ xs, e.isBarrier = false) (h : Operation.resolve? xs = some x) :
    operation.reduce? (.group t xs) = some (.group t [x]) := by
  have hsplit := Operation.splitAtBarriers_run hbarrier
  have hlength : ¬xs.length < 2 := by
    intro hlt
    rw [Operation.resolve?, if_pos hlt] at h
    cases h
  have hmixes : Expr.mixesConditional xs = false := by
    have hmark : xs.any (·.isSymbol "?") = false := by
      refine List.any_eq_false.2 fun e he => ?_
      have := hbarrier e he
      simp_all [Expr.isBarrier]
    simp [Expr.mixesConditional, hmark]
  simp [operation, Operation.reduce?, hsplit, hlength, hmixes, h, Operation.resolved]

theorem collapsePrefixes_of_length_le {items : List Expr}
    (h : items.length ≤ (Operation.applyPrefixes true items).length) :
    Operation.collapsePrefixes items = items := by
  rw [Operation.collapsePrefixes, if_neg (by omega)]

/-- Symbols of operators that only group. -/
def isGrouping (symbol : Text) : Bool := ["?", ":", ",", "=>"].any (symbol == ascii ·)

theorem isBarrier_operator {t : Token} (hk : t.kind = .operator) (hg : isGrouping t.content = false)
    (parts : List Expr) : (Expr.group t parts).isBarrier = false := by
  simp_all [isGrouping, Expr.isBarrier, Expr.isComma, Expr.isSymbol, Expr.token?]

/-- Operators of the table are found by their symbols, and none of them only groups. -/
theorem find?_symbol :
    ∀ o ∈ Operator.table, Operator.find? o.symbol = some o ∧ isGrouping o.symbol = false := by
  decide

/-- A prefix operator and an operand. -/
theorem foldl_unary {t u : Token} (ht : t.kind.isWrapper) (hu : u.kind = .operator)
    (hp : Operator.isPrefix u.content) (hg : isGrouping u.content = false) {x : Expr}
    (hx : x.IsResolved) (parts : List Expr) :
    forOperands.foldl apply (.group t [.group u parts, x]) = .unary u.content x := by
  have hprefix : Operation.prefixSymbol? (.group u parts) = some u.content := by
    simp [Operation.prefixSymbol?, Expr.operatorSymbol?, hu, hp]
  have hcollapse : Operation.collapsePrefixes [.group u parts, x] = [.unary u.content x] := by
    have happly : Operation.applyPrefixes true [.group u parts, x] = [.unary u.content x] := by
      simp [Operation.applyPrefixes, hprefix, hx.isOperand]
    rw [Operation.collapsePrefixes, happly]
    simp [collapsePrefixes_of_length_le, Operation.applyPrefixes]
  refine foldl_of_operation ht rfl (operation_of_resolve? ?_ ?_)
  · simpa using ⟨isBarrier_operator hu hg parts, hx.isBarrier⟩
  · simp [Operation.resolve?, hcollapse]

/-- Two operands with an operator between them. -/
theorem foldl_binary {t u : Token} (ht : t.kind.isWrapper) (hu : u.kind = .operator) {op : Operator}
    (hop : Operator.find? u.content = some op) (hg : isGrouping u.content = false) {l r : Expr}
    (hl : l.IsResolved) (hr : r.IsResolved) (parts : List Expr) :
    forOperands.foldl apply (.group t [l, .group u parts, r]) = .binary op.symbol l r := by
  have hoperator : l.isOperator = false := by simp [Expr.isOperator, Expr.isKind, hl.token?]
  have happly : Operation.applyPrefixes true [l, .group u parts, r] = [l, .group u parts, r] := by
    cases hprefix : Operation.prefixSymbol? (.group u parts) <;>
      simp [Operation.applyPrefixes, Operation.prefixSymbol?_of_isOperand hl.isOperand, hoperator,
        hprefix]
  have hcollapse := collapsePrefixes_of_length_le (Nat.le_of_eq (congrArg List.length happly.symm))
  refine foldl_of_operation ht rfl (operation_of_resolve? ?_ ?_)
  · simpa using ⟨hl.isBarrier, isBarrier_operator hu hg parts, hr.isBarrier⟩
  · have hrun := Expr.ofRun?_pair hl.isOperand ⟨u, parts, rfl, hu, hop⟩ hr.isOperand
    simp [Operation.resolve?, hcollapse, hrun]

/-- Three operands with the signs of a conditional between them. -/
theorem foldl_conditional {t q k : Token} (ht : t.kind.isWrapper) (hq : q.kind = .operator)
    (hqc : q.content = ascii "?") (hk : k.kind = .operator) (hkc : k.content = ascii ":")
    {c y n : Expr} (hc : c.IsResolved) (hy : y.IsResolved) (hn : n.IsResolved) (ps ps' : List Expr) :
    forOperands.foldl apply (.group t [c, .group q ps, y, .group k ps', n]) = .conditional c y n := by
  have hmark : ∀ (s : String) {x : Expr}, x.IsResolved → x.isSymbol s = false := by
    intro s x hx
    simp [Expr.isSymbol, hx.token?]
  have hquestion : ∀ s, (Expr.group q ps).isSymbol s = (ascii "?" == ascii s) := by
    intro s
    simp [Expr.isSymbol, Expr.token?, hq, hqc]
  have hcolon : ∀ s, (Expr.group k ps').isSymbol s = (ascii ":" == ascii s) := by
    intro s
    simp [Expr.isSymbol, Expr.token?, hk, hkc]
  have hlow : ∀ {x : Expr}, x.IsResolved → x.bindsBelowConditional = false := by
    intro x hx
    simp [Expr.bindsBelowConditional, Expr.operatorSymbol?_of_isOperand hx.isOperand]
  have hmixes : Expr.mixesConditional [c, .group q ps, y, .group k ps', n] = false := by
    have hq' : (Expr.group q ps).bindsBelowConditional = false := by
      simp only [Expr.bindsBelowConditional, Expr.operatorSymbol?, hq, hqc]
      decide
    have hk' : (Expr.group k ps').bindsBelowConditional = false := by
      simp only [Expr.bindsBelowConditional, Expr.operatorSymbol?, hk, hkc]
      decide
    simp [Expr.mixesConditional, hlow hc, hlow hy, hlow hn, hq', hk']
  have hnone : operation.reduce? (.group t [c, .group q ps, y, .group k ps', n]) = none := by
    have hqb : (Expr.group q ps).isBarrier = true := by simp [Expr.isBarrier, hquestion]
    have hkb : (Expr.group k ps').isBarrier = true := by simp [Expr.isBarrier, hcolon]
    simp [operation, Operation.reduce?, Operation.splitAtBarriers, hc.isBarrier,
      hy.isBarrier, hn.isBarrier, hqb, hkb, Operation.resolve?]
  have hsome : conditional.reduce? (.group t [c, .group q ps, y, .group k ps', n])
      = some (.group t [.conditional c y n]) := by
    have hcomma : [c, .group q ps, y, .group k ps', n].any Expr.isComma = false := by
      have hneq : (ascii "?" == ascii ",") = false ∧ (ascii "?" == ascii "=>") = false ∧
          (ascii ":" == ascii ",") = false ∧ (ascii ":" == ascii "=>") = false := by decide
      simp [Expr.isComma, hmark, hc, hy, hn, hquestion, hcolon, hneq]
    have hneq : (ascii "?" == ascii ":") = false ∧ (ascii ":" == ascii "?") = false := by decide
    simp [conditional, Conditional.reduce?, hcomma, hmixes, Conditional.parts?,
      Conditional.splitAtColon?, hmark, hc, hy, hquestion, hcolon, hneq, Expr.collapseOrWrap]
  rw [forOperands, List.foldl_cons, apply_of_none hnone, List.foldl_cons, apply_of_none rfl,
    List.foldl_cons, apply_of_some hsome, List.foldl_cons, apply_of_none rfl, List.foldl_cons,
    apply_of_none rfl, List.foldl_cons, apply_of_some (collapse_single ht rfl), List.foldl_nil]

end Rule
end TagFormula

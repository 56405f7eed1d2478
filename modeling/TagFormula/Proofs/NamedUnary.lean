import TagFormula.Proofs.BareCalls
import TagFormula.Proofs.FlatSequence

/-!
Named unary operators without parentheses. Such an operator takes the operand behind it and the operators
that bind more tightly than a comparison, and the call is the first operand of the operators behind. Main
statement: a statement of a named unary operator, operands and operators between them becomes the tree over
the call, and the argument of the call becomes the tree over what the operator takes, unless so many
operators stand above the call that its argument is too deep.
-/

namespace TagFormula

open Expr Rule

/-! ### Items of a statement -/

/-- Items that are read as a literal or as the value. -/
inductive Expr.ReadsAs : Expr → Expr → Prop
  | literal (l : Literal) : ReadsAs (.literal l) (.literal l)
  | value : ReadsAs .value .value
  | number {t : Token} {parts : List Expr} {l : Literal} (hk : t.kind = .number)
      (h : Literal.ofNumberToken t.content = some l) : ReadsAs (.group t parts) (.literal l)
  | quote {t : Token} {parts : List Expr} {s : Text} (hk : t.kind = .quote) (h : t.quotedText? = some s) :
      ReadsAs (.group t parts) (.string s)
  | symbol {t : Token} {parts : List Expr} (hk : t.kind = .symbol) (h : t.content = ascii "$val") :
      ReadsAs (.group t parts) .value

namespace Expr.ReadsAs

variable {item x : Expr}

theorem isCanonical (h : item.ReadsAs x) : x.isCanonical := by cases h <;> rfl

theorem isResolved (h : item.ReadsAs x) : x.IsResolved := by cases h <;> exact ⟨rfl, rfl⟩

theorem children (h : item.ReadsAs x) : x.children = [] := by cases h <;> rfl

theorem settled (h : item.ReadsAs x) : Settled standard x :=
  .node (declined_of_children_eq_nil h.isResolved.token? h.children) (by simp [h.children])

theorem normalizeWithin_succ (h : item.ReadsAs x) (n : Nat) : normalizeWithin standard (n + 1) item = x := by
  have hsettled := h.settled
  cases h with
  | literal | value => exact normalizeWithin_of_settled hsettled _
  | number hk h => exact normalizeWithin_of_leaf (fun parts => by rw [leaf_number hk, h]; rfl) rfl rfl n _
  | quote hk h => exact normalizeWithin_of_leaf (fun parts => by rw [leaf_quote hk, h]; rfl) rfl rfl n _
  | symbol hk h => exact normalizeWithin_of_leaf (fun parts => by rw [leaf_symbol hk, h]; rfl) rfl rfl n _

end Expr.ReadsAs

/-- Operations of the operator are no repetition and bind no match. -/
def Operator.StaysBinary (op : Operator) : Prop := ∀ s ∈ ["x", "=~", "!~"], op.symbol ≠ ascii s

instance (op : Operator) : Decidable op.StaysBinary :=
  inferInstanceAs (Decidable (∀ s ∈ ["x", "=~", "!~"], op.symbol ≠ ascii s))

/-- An operator between two operands with the operand behind it. -/
structure Link where
  token : Token
  operator : Operator
  item : Expr
  operand : Expr
  kind_token : token.kind = .operator
  find?_token : Operator.find? token.content = some operator
  staysBinary : operator.StaysBinary
  reads : item.ReadsAs operand

namespace Link

def sign (l : Link) : Expr := .group l.token []

def written (l : Link) : List Expr := [l.sign, l.item]

/-- The items once the operand is read. -/
def read (l : Link) : List Expr := [l.sign, l.operand]

def pair (l : Link) : Operator × Expr := (l.operator, l.operand)

/-- Whether the operator binds more tightly than a comparison. -/
def isTight (l : Link) : Bool := 100 < l.operator.precedence

theorem isInfix_sign (l : Link) : l.sign.IsInfix l.operator :=
  ⟨l.token, [], rfl, l.kind_token, l.find?_token⟩

theorem isOperator_sign (l : Link) : l.sign.isOperator := isOperator_of_isInfix l.isInfix_sign

theorem settled_sign (l : Link) : Settled standard l.sign := settled_token (Or.inl l.kind_token)

theorem flatMap_written (n : Nat) (links : List Link) :
    (links.flatMap written).map (normalizeWithin standard (n + 1)) = links.flatMap read := by
  rw [List.map_flatMap]
  refine List.flatMap_congr fun l _ => ?_
  simp only [written, read, List.map_cons, List.map_nil, normalizeWithin_of_settled l.settled_sign,
    l.reads.normalizeWithin_succ]

/-! ### Rounds over operands and operators -/

theorem sign_or_operand {links : List Link} {e : Expr} (h : e ∈ links.flatMap read) :
    ∃ l : Link, e = l.sign ∨ e = l.operand := by
  obtain ⟨l, -, he⟩ := List.mem_flatMap.1 h
  exact ⟨l, by simpa [read] using he⟩

theorem isPlain_of_mem (links : List Link) : ∀ e ∈ links.flatMap read, e.IsPlain := by
  intro e he
  obtain ⟨l, rfl | rfl⟩ := sign_or_operand he
  · exact Or.inr ⟨l.token, l.kind_token, rfl⟩
  · exact Or.inl l.reads.isCanonical

theorem settled_of_mem (links : List Link) : ∀ e ∈ links.flatMap read, Settled standard e := by
  intro e he
  obtain ⟨l, rfl | rfl⟩ := sign_or_operand he
  · exact l.settled_sign
  · exact l.reads.settled

/-- No call starts at an operand or an operator. -/
theorem idle_step? (links : List Link) : Idle Call.step? (links.flatMap read) := by
  induction links with
  | nil => trivial
  | cons l rest ih =>
    exact ⟨step?_operator l.isOperator_sign _, step?_resolved l.reads.isResolved _, ih⟩

theorem ofItems?_read {x : Expr} (hx : x.isOperand) (links : List Link) :
    Chain.ofItems? (x :: links.flatMap read) = some ⟨x, links.map pair⟩ := by
  refine Chain.ofItems?_eq_some.2 ⟨_, rfl, hx, ?_⟩
  induction links with
  | nil => rfl
  | cons l rest ih =>
    exact Chain.pairs?_cons_cons.2 ⟨_, _, l.isInfix_sign, l.reads.isResolved.isOperand, ih, rfl⟩

theorem collapseOrWrap_read {x : Expr} {links : List Link} (h : links ≠ []) :
    collapseOrWrap (x :: links.flatMap read) = wrap (x :: links.flatMap read) := by
  obtain ⟨l, rest, rfl⟩ := List.exists_cons_of_ne_nil h
  rfl

theorem coherent_pairs (links : List Link) : Operator.Coherent ((links.map pair).map (·.1)) := by
  refine Operator.coherent_of_subset_table fun p hp => ?_
  rw [List.map_map] at hp
  obtain ⟨l, -, rfl⟩ := List.mem_map.1 hp
  exact List.mem_of_find?_eq_some l.find?_token

theorem grouped_ofChain (x : Expr) (links : List Link) :
    (OperatorTree.ofChain ⟨x, links.map pair⟩).Grouped :=
  OperatorTree.grouped_ofChain (coherent_pairs links)

/-- No other tree over the operands and operators is grouped. -/
theorem eq_ofChain {tree : OperatorTree} {x : Expr} {links : List Link} (h : tree.Grouped)
    (hchain : tree.chain = ⟨x, links.map pair⟩) : tree = .ofChain ⟨x, links.map pair⟩ := by
  have hcoherent : Operator.Coherent tree.operators := by
    rw [OperatorTree.operators_eq_chain, hchain]
    exact coherent_pairs links
  rw [← hchain, OperatorTree.ofChain_chain h hcoherent]

/-- Operands and operators become their tree. -/
theorem operated_read {x : Expr} (hx : x.isOperand) (links : List Link) : operated (x :: links.flatMap read)
    = [(OperatorTree.ofChain ⟨x, links.map pair⟩).toExpr] := by
  have hchain := ofItems?_read hx links
  have hcollapses := (isRun_iff.2 ⟨_, hchain⟩).collapses
  obtain ⟨hspells, hgrouped⟩ := OperatorTree.ofChain_spells hchain
  have hmixes : mixesConditional (x :: links.flatMap read) = false := by
    have hquestion : ∀ e ∈ x :: links.flatMap read, e.isSymbol "?" = false := by
      intro e he
      by_contra hsymbol
      rw [Bool.not_eq_false] at hsymbol
      simpa [hcollapses.isBarrier e he] using isBarrier_of_isSymbol (Or.inl hsymbol)
    rw [mixesConditional, List.any_eq_false.2 (by simpa using hquestion), Bool.false_and]
  rw [operated, hmixes]
  exact OperationOf.resolveRuns ⟨_, _, collapses_iff_signedRun.1 hcollapses, hspells, hgrouped, rfl⟩

end Link

/-! ### The first operand of a tree -/

namespace OperatorTree

/-- The number of operators above the first operand. -/
def spine : OperatorTree → Nat
  | .leaf _ => 0
  | .node _ l _ => spine l + 1

def mapFirst (f : Expr → Expr) : OperatorTree → OperatorTree
  | .leaf e => .leaf (f e)
  | .node op l r => .node op (mapFirst f l) r

theorem mapFirst_push (f : Expr → Expr) (op : Operator) (x : Expr) (t : OperatorTree) :
    (push op x t).mapFirst f = push op x (t.mapFirst f) := by
  cases t with
  | leaf => rfl
  | node p l r =>
    rw [push, mapFirst, push]
    split <;> rfl

/-- The shape of a tree does not depend on the first operand. -/
theorem mapFirst_ofChain (f : Expr → Expr) (x : Expr) (rest : List (Operator × Expr)) :
    (ofChain ⟨x, rest⟩).mapFirst f = ofChain ⟨f x, rest⟩ := by
  have hfold : ∀ t : OperatorTree, (rest.foldl (fun t pair => push pair.1 pair.2 t) t).mapFirst f
      = rest.foldl (fun t pair => push pair.1 pair.2 t) (t.mapFirst f) := by
    induction rest with
    | nil => exact fun _ => rfl
    | cons pair rest ih =>
      intro t
      rw [List.foldl_cons, ih, mapFirst_push, List.foldl_cons]
  exact hfold (.leaf x)

theorem spine_mapFirst (f : Expr → Expr) (t : OperatorTree) : (t.mapFirst f).spine = t.spine := by
  induction t with
  | leaf => rfl
  | node op l r ihl _ => rw [mapFirst, spine, ihl, spine]

theorem first_ofChain (x : Expr) (rest : List (Operator × Expr)) : (ofChain ⟨x, rest⟩).first = x :=
  congrArg Chain.first (chain_ofChain ⟨x, rest⟩)

theorem isResolved_toExpr {t : OperatorTree} (h : t.first.IsResolved) : t.toExpr.IsResolved := by
  cases t with
  | leaf => exact h
  | node => exact ⟨rfl, rfl⟩

/-- A tree tells its first operand. -/
theorem first_of_toExpr_mapFirst {f : Expr → Expr} {t : OperatorTree}
    (h : (t.mapFirst f).toExpr = t.toExpr) : f t.first = t.first := by
  induction t with
  | leaf => exact h
  | node op l r ihl _ => exact ihl (Expr.binary.inj h).2.1

end OperatorTree

namespace Rule

/-! ### Levels of a tree -/

theorem declined_binary {op : Operator} (h : op.StaysBinary) (l r : Expr) :
    Declined standard (.binary op.symbol l r) := by
  have hsymbol : ∀ s ∈ ["x", "=~", "!~"], (op.symbol == ascii s) = false :=
    fun s hs => by simpa using h s hs
  refine declined_of_token?_eq_none rfl ?_ ?_ rfl
  · unfold Shape.bindMatch
    split
    · rename_i heq
      obtain ⟨rfl, -⟩ := Expr.binary.inj heq
      simp [hsymbol]
    · rfl
  · simp [Shape.repetition, hsymbol]

/-- Operators and operands behind the first that no rule changes. -/
def StableRest (t : OperatorTree) : Prop := ∀ p ∈ t.pairs, p.1.StaysBinary ∧ Settled standard p.2

theorem StableRest.node {op : Operator} {l r : OperatorTree} (h : StableRest (.node op l r)) :
    op.StaysBinary ∧ Settled standard r.first ∧ StableRest l ∧ StableRest r := by
  simp only [StableRest, OperatorTree.pairs, List.mem_append, List.mem_cons] at h
  exact ⟨(h (op, r.first) (by simp)).1, (h (op, r.first) (by simp)).2, fun p hp => h p (Or.inl hp),
    fun p hp => h p (Or.inr (Or.inr hp))⟩

theorem stableRest_ofChain (x : Expr) (links : List Link) :
    StableRest (.ofChain ⟨x, links.map Link.pair⟩) := by
  have hpairs : (OperatorTree.ofChain ⟨x, links.map Link.pair⟩).pairs = links.map Link.pair :=
    congrArg Chain.rest (OperatorTree.chain_ofChain ⟨x, links.map Link.pair⟩)
  rw [StableRest, hpairs]
  intro p hp
  obtain ⟨l, -, rfl⟩ := List.mem_map.1 hp
  exact ⟨l.staysBinary, l.reads.settled⟩

theorem StableRest.settled {t : OperatorTree} (h : StableRest t) (hfirst : Settled standard t.first) :
    Settled standard t.toExpr := by
  induction t with
  | leaf => exact hfirst
  | node op l r ihl ihr =>
    obtain ⟨hop, hr, hrestl, hrestr⟩ := h.node
    refine .node (declined_binary hop _ _) ?_
    simpa [OperatorTree.toExpr, children] using ⟨ihl hrestl hfirst, ihr hrestr hr⟩

theorem StableRest.declined_mapChildren {t : OperatorTree} (h : StableRest t) {f : Expr → Expr}
    (hfirst : Declined standard (t.first.mapChildren f)) : Declined standard (t.toExpr.mapChildren f) := by
  cases t with
  | leaf => exact hfirst
  | node op l r => exact declined_binary h.node.1 _ _

/-- Each operator above the first operand takes a level. -/
theorem StableRest.normalizeWithin {t : OperatorTree} (h : StableRest t) (n : Nat) :
    normalizeWithin standard n t.toExpr
      = (t.mapFirst (Rule.normalizeWithin standard (n - t.spine))).toExpr := by
  induction t generalizing n with
  | leaf => rfl
  | node op l r ihl _ =>
    obtain ⟨hop, hr, hrestl, hrestr⟩ := h.node
    cases n with
    | zero =>
      have hl := ihl hrestl 0
      rw [Nat.zero_sub] at hl ⊢
      exact congrArg (fun e => Expr.binary op.symbol e r.toExpr) hl
    | succ n =>
      -- what is on the right is settled, so the level is spent on the way to the first operand
      rw [OperatorTree.toExpr, normalizeWithin_succ n (by simp), mapChildren,
        settle_of_declined (declined_binary hop _ _), ihl hrestl,
        normalizeWithin_of_settled (hrestr.settled hr), OperatorTree.spine, Nat.add_sub_add_right]
      rfl

theorem declined_call (word : Text) (args : List Expr) : Declined standard (.call word args) :=
  declined_of_token?_eq_none rfl rfl rfl rfl

theorem normalizeWithin_call (word : Text) (argument : Expr) (n : Nat) :
    normalizeWithin standard n (.call word [argument])
      = .call word [normalizeWithin standard (n - 1) argument] := by
  cases n with
  | zero => rfl
  | succ n =>
    rw [normalizeWithin_succ n (by simp), mapChildren, settle_of_declined (declined_call _ _)]
    rfl

/-- A group whose items come to operands with operators between them goes on as their tree. -/
theorem normalizeWithin_read {t : Token} (ht : t.kind.isWrapper) {items : List Expr} {n : Nat} {x : Expr}
    (links : List Link) (hx : x.IsResolved)
    (hdeclined : Declined standard (x.mapChildren (normalizeWithin standard n)))
    (h : replaceAll Call.step? (replaceAll Leaf.reference? (items.map (normalizeWithin standard n)))
      = x :: links.flatMap Link.read) :
    normalizeWithin standard (n + 1) (.group t items)
      = normalizeWithin standard (n + 1) (OperatorTree.ofChain ⟨x, links.map Link.pair⟩).toExpr := by
  have hfirst := OperatorTree.first_ofChain x (links.map Link.pair)
  have hresolved := OperatorTree.isResolved_toExpr (hfirst ▸ hx)
  have hsettle := (stableRest_ofChain x links).declined_mapChildren (hfirst ▸ hdeclined)
  generalize htree : OperatorTree.ofChain ⟨x, links.map Link.pair⟩ = tree at hresolved hsettle
  have hround : standard.foldl apply (.group t (items.map (normalizeWithin standard n))) = tree.toExpr := by
    rw [foldl_standard_container (TokenKind.isContainer_of_isWrapper ht), h,
      Link.operated_read hx.isOperand, htree, finished_single ht hresolved.isHole]
  have hne : tree.toExpr ≠ .group t (items.map (normalizeWithin standard n)) := by
    intro heq
    have htoken := hresolved.token?
    rw [heq] at htoken
    cases htoken
  have hhole : tree.toExpr ≠ .hole := by
    intro heq
    have hisHole := hresolved.isHole
    rw [heq] at hisHole
    cases hisHole
  rw [normalizeWithin_succ n (by simp), mapChildren_group, maxRounds, settle_succ_of_ne hround hne,
    settle_of_declined hsettle, normalizeWithin_succ n hhole, settle_of_declined hsettle]

end Rule

/-! ### What the operator takes -/

namespace Call

theorem isListOperator_of_isNamedUnary {word : Text} (h : isNamedUnary word) : isListOperator word = false := by
  have hall : ∀ s ∈ ["length", "int", "abs", "sqrt", "exp", "log", "hex", "oct", "uc", "lc", "ucfirst",
      "lcfirst", "ord", "chr", "defined", "sin", "cos"], isListOperator (ascii s) = false := by decide
  obtain ⟨s, hs, heq⟩ := List.any_eq_true.1 h
  rw [← eq_of_beq heq]
  exact hall s hs

/-- Behind an operand the operator takes what binds more tightly than a comparison. -/
theorem unaryOperand_go_read (links : List Link) : unaryOperand.go false (links.flatMap Link.read)
    = (links.takeWhile Link.isTight).flatMap Link.read := by
  induction links with
  | nil => rfl
  | cons l rest ih =>
    have hsymbol : l.sign.operatorSymbol? = some l.token.content := if_pos (e := none) l.kind_token
    have hprecedence : Operator.precedence? l.token.content = some l.operator.precedence := by
      simp [Operator.precedence?, l.find?_token]
    have hoperand := l.reads.isResolved
    rw [List.flatMap_cons, Link.read, List.cons_append, List.cons_append, List.nil_append,
      unaryOperand.go, isBarrier_of_isInfix l.isInfix_sign, hsymbol, List.takeWhile_cons]
    cases htight : l.isTight with
    | true =>
      have hlt : (100 < l.operator.precedence) := of_decide_eq_true htight
      simp [unaryOperand.go, hprecedence, hlt, hoperand.isBarrier,
        operatorSymbol?_of_isOperand hoperand.isOperand, ih, Link.read]
    | false =>
      have hle : ¬100 < l.operator.precedence := of_decide_eq_false htight
      simp [hprecedence, hle]

theorem unaryOperand_read {x : Expr} (hx : x.IsResolved) (links : List Link) :
    unaryOperand (x :: links.flatMap Link.read) = x :: (links.takeWhile Link.isTight).flatMap Link.read := by
  rw [unaryOperand, unaryOperand.go, hx.isBarrier, operatorSymbol?_of_isOperand hx.isOperand]
  exact congrArg (x :: ·) (unaryOperand_go_read links)

/-- The call takes the place of the word and of what it takes. -/
theorem replaceAll_step?_read {word : Token} (hword : word.kind = .word) (h : isNamedUnary word.content)
    {x : Expr} (hx : x.IsResolved) (links : List Link) :
    replaceAll step? (.group word [] :: x :: links.flatMap Link.read)
      = .call word.content [collapseOrWrap (x :: (links.takeWhile Link.isTight).flatMap Link.read)]
        :: (links.dropWhile Link.isTight).flatMap Link.read := by
  have hlist : (x :: links.flatMap Link.read).head?.any isList = false := by
    simp [isList, isKind, hx.token?]
  have hstep : step? (.group word []) (x :: links.flatMap Link.read)
      = some (.call word.content [collapseOrWrap (x :: (links.takeWhile Link.isTight).flatMap Link.read)],
          (x :: (links.takeWhile Link.isTight).flatMap Link.read).length) := by
    have hword? : word? (.group word []) = some word.content := if_pos hword
    rw [step?, hword?, Option.bind_some, ofWord?_of_not_list hlist, isListOperator_of_isNamedUnary h, h,
      unaryOperand_read hx]
    rfl
  have hdrop : (x :: links.flatMap Link.read).drop
      (x :: (links.takeWhile Link.isTight).flatMap Link.read).length
        = (links.dropWhile Link.isTight).flatMap Link.read := by
    have hsplit := congrArg (List.flatMap Link.read)
      (List.takeWhile_append_dropWhile (p := Link.isTight) (l := links))
    rw [List.length_cons, List.drop_succ_cons, ← hsplit, List.flatMap_append, List.drop_left]
  rw [replaceAll_of_some hstep, hdrop, replaceAll_of_idle (Link.idle_step? _)]

end Call

/-! ### Statements of a named unary operator -/

namespace Rule

/-- The tree over the call of a word with a given argument, with the operators that the word does not take. -/
def callTree (word : Text) (argument : Expr) (links : List Link) : OperatorTree :=
  .ofChain ⟨.call word [argument], (links.dropWhile Link.isTight).map Link.pair⟩

theorem first_callTree (word : Text) (argument : Expr) (links : List Link) :
    (callTree word argument links).first = .call word [argument] := OperatorTree.first_ofChain ..

theorem stableRest_callTree (word : Text) (argument : Expr) (links : List Link) :
    StableRest (callTree word argument links) := stableRest_ofChain _ _

theorem mapFirst_callTree (word : Text) (argument other : Expr) (links : List Link) :
    (callTree word argument links).mapFirst (fun _ => .call word [other]) = callTree word other links :=
  OperatorTree.mapFirst_ofChain ..

theorem spine_callTree (word : Text) (argument other : Expr) (links : List Link) :
    (callTree word argument links).spine = (callTree word other links).spine := by
  rw [← mapFirst_callTree word argument other, OperatorTree.spine_mapFirst]

/-- The operators above the call and the call itself each take a level. -/
theorem normalizeWithin_callTree (n : Nat) (word : Text) (argument : Expr) (links : List Link) :
    normalizeWithin standard n (callTree word argument links).toExpr
      = (callTree word (normalizeWithin standard (n - (callTree word argument links).spine - 1) argument)
          links).toExpr := by
  rw [(stableRest_callTree word argument links).normalizeWithin]
  unfold callTree
  rw [OperatorTree.mapFirst_ofChain, normalizeWithin_call]

section

variable {item x : Expr} (hx : item.ReadsAs x)
include hx

theorem settled_argument (links : List Link) :
    Settled standard (OperatorTree.ofChain ⟨x, links.map Link.pair⟩).toExpr :=
  (stableRest_ofChain x links).settled (by rw [OperatorTree.first_ofChain]; exact hx.settled)

/-- The argument needs a level to become a tree, unless it is a single operand. -/
theorem normalizeWithin_argument (links : List Link) (n : Nat) :
    normalizeWithin standard n (collapseOrWrap (x :: links.flatMap Link.read))
      = if links = [] ∨ 0 < n then (OperatorTree.ofChain ⟨x, links.map Link.pair⟩).toExpr
        else collapseOrWrap (x :: links.flatMap Link.read) := by
  cases links with
  | nil =>
    rw [if_pos (Or.inl rfl)]
    exact normalizeWithin_of_settled hx.settled n
  | cons l rest =>
    cases n with
    | zero => rfl
    | succ n =>
      generalize hlinks : l :: rest = links
      have hitems : (x :: links.flatMap Link.read).map (normalizeWithin standard n)
          = x :: links.flatMap Link.read := by
        have hsettled := List.forall_mem_cons.2 ⟨hx.settled, Link.settled_of_mem links⟩
        exact (List.map_congr_left fun e he => normalizeWithin_of_settled (hsettled e he) n).trans
          (List.map_id _)
      have hround : replaceAll Call.step? (replaceAll Leaf.reference?
          ((x :: links.flatMap Link.read).map (normalizeWithin standard n)))
            = x :: links.flatMap Link.read := by
        rw [hitems, replaceAll_reference?_of_isPlain
          (List.forall_mem_cons.2 ⟨Or.inl hx.isCanonical, Link.isPlain_of_mem links⟩),
          replaceAll_of_none (step?_resolved hx.isResolved _), replaceAll_of_idle (Link.idle_step? _)]
      have hdeclined : Declined standard (x.mapChildren (normalizeWithin standard n)) := by
        rw [mapChildren_eq_self (by simp [hx.children])]
        exact declined_of_children_eq_nil hx.isResolved.token? hx.children
      rw [if_pos (Or.inr n.succ_pos), collapseOrWrap_of_two_le (by simp [← hlinks, Link.read]),
        normalizeWithin_read rfl links hx.isResolved hdeclined hround,
        normalizeWithin_of_settled (settled_argument hx links)]

variable {document statement word : Token} (hdocument : document.kind.isWrapper)
  (hstatement : statement.kind.isWrapper) (hword : word.kind = .word)
  (hunary : Call.isNamedUnary word.content) (links : List Link)

section

include hstatement hword hunary

/-- A statement goes on as the tree over the call. -/
theorem normalizeWithin_statement_namedUnary (n : Nat) :
    normalizeWithin standard (n + 2) (.group statement (.group word [] :: item :: links.flatMap Link.written))
      = normalizeWithin standard (n + 2) (callTree word.content
          (collapseOrWrap (x :: (links.takeWhile Link.isTight).flatMap Link.read)) links).toExpr := by
  have hitems : (.group word [] :: item :: links.flatMap Link.written).map (normalizeWithin standard (n + 1))
      = .group word [] :: x :: links.flatMap Link.read := by
    rw [List.map_cons, normalizeWithin_of_settled (settled_token (Or.inr hword)), List.map_cons,
      hx.normalizeWithin_succ, Link.flatMap_written]
  refine normalizeWithin_read hstatement (links.dropWhile Link.isTight) ⟨rfl, rfl⟩ (declined_call _ _) ?_
  rw [hitems, replaceAll_of_none (Leaf.reference?_group (by simp [hword]) (by simp [hword]) _ _),
    replaceAll_reference?_of_isPlain
      (List.forall_mem_cons.2 ⟨Or.inl hx.isCanonical, Link.isPlain_of_mem links⟩),
    Call.replaceAll_step?_read hword hunary hx.isResolved]

end

omit hx in
/-- A document around a statement that has become the tree over a call. -/
theorem normalizeWithin_document_callTree (hdocument : document.kind.isWrapper) {e argument : Expr}
    {word : Text} {n : Nat} (he : normalizeWithin standard n e = (callTree word argument links).toExpr) :
    normalizeWithin standard (n + 1) (.group document [e])
      = normalizeWithin standard (n + 1) (callTree word argument links).toExpr := by
  have hresolved : (callTree word argument links).toExpr.IsResolved :=
    OperatorTree.isResolved_toExpr (by rw [first_callTree]; exact ⟨rfl, rfl⟩)
  have hrest := stableRest_callTree word argument links
  refine normalizeWithin_read hdocument [] hresolved
    (hrest.declined_mapChildren (by rw [first_callTree]; exact declined_call _ _)) ?_
  rw [List.map_singleton, he, replaceAll_of_none rfl, replaceAll_nil,
    replaceAll_of_none (step?_resolved hresolved _)]
  rfl

include hdocument hstatement hword hunary

/-- The statement leaves the argument one level less than the document does. -/
theorem normalize_namedUnary_eq :
    let inside := links.takeWhile Link.isTight
    let whole := callTree word.content (OperatorTree.ofChain ⟨x, inside.map Link.pair⟩).toExpr links
    normalize standard
        (.group document [.group statement (.group word [] :: item :: links.flatMap Link.written)])
      = if inside = [] ∨ whole.spine < maxDepth then whole.toExpr
        else (callTree word.content (wrap (x :: inside.flatMap Link.read)) links).toExpr := by
  intro inside whole
  have hspine : ∀ e, (callTree word.content e links).spine = whole.spine := fun e => spine_callTree ..
  have hinner := normalizeWithin_statement_namedUnary hx hstatement hword hunary links 510
  rw [normalizeWithin_callTree, hspine] at hinner
  rw [normalize, maxDepth, normalizeWithin_document_callTree links hdocument hinner,
    normalizeWithin_callTree, hspine, normalizeWithin_argument hx]
  -- with 511 operators above the call the statement reaches its argument too late, and the document does not
  by_cases hearly : inside = [] ∨ 0 < 510 + 2 - whole.spine - 1
  · rw [if_pos hearly, normalizeWithin_of_settled (settled_argument hx inside),
      if_pos (hearly.imp_right fun h => by omega)]
  · have hiff : (inside = [] ∨ 0 < 512 + 1 - whole.spine - 1) ↔ (inside = [] ∨ whole.spine < 512) :=
      or_congr_right (by omega)
    rw [if_neg hearly, normalizeWithin_argument hx, if_congr hiff rfl rfl,
      Link.collapseOrWrap_read fun hnil => hearly (Or.inl hnil)]
    split <;> rfl

end

/-- A named unary operator takes the operand behind it and the operators that bind more tightly than a
comparison. The call is the first operand of the tree over the rest. Its argument is the tree over what the
operator takes, or still a group of items if at least as many operators stand above the call as there are
levels. -/
theorem normalize_namedUnary {document statement word : Token} (hdocument : document.kind = .document)
    (hstatement : statement.kind = .statement) (hword : word.kind = .word)
    (hunary : Call.isNamedUnary word.content) {item x : Expr} (hx : item.ReadsAs x) (links : List Link) :
    let inside := links.takeWhile Link.isTight
    let behind := links.dropWhile Link.isTight
    ∃ argument whole : OperatorTree,
      argument.Grouped ∧ argument.chain = ⟨x, inside.map Link.pair⟩ ∧
      whole.Grouped ∧ whole.chain = ⟨.call word.content [argument.toExpr], behind.map Link.pair⟩ ∧
      normalize standard
          (.group document [.group statement (.group word [] :: item :: links.flatMap Link.written)])
        = if inside = [] ∨ whole.spine < maxDepth then whole.toExpr
          else (whole.mapFirst fun _ =>
            .call word.content [wrap (x :: inside.flatMap Link.read)]).toExpr := by
  intro inside behind
  have hform := normalize_namedUnary_eq hx (by rw [hdocument]; rfl) (by rw [hstatement]; rfl) hword hunary
    links
  refine ⟨.ofChain ⟨x, inside.map Link.pair⟩, callTree word.content _ links, Link.grouped_ofChain x inside,
    OperatorTree.chain_ofChain _, Link.grouped_ofChain _ behind, OperatorTree.chain_ofChain _, ?_⟩
  rw [hform, mapFirst_callTree]

end Rule

/-! ### Too many operators above a call -/

/-- An operator and the token of a number behind it. -/
def Link.ofNumber (op : Operator) (hop : op ∈ Operator.table) (hstays : op.StaysBinary) (digits : String)
    (l : Literal) (h : Literal.ofNumberToken (ascii digits) = some l) : Link where
  token := ⟨.operator, [], op.symbol, [], none⟩
  operator := op
  item := .group (plainToken .number digits) []
  operand := .literal l
  kind_token := rfl
  find?_token := (find?_symbol op hop).1
  staysBinary := hstays
  reads := .number rfl h

namespace Rule

def timesTwo : Link := .ofNumber ⟨ascii "*", 150, false⟩ (by decide) (by decide) "2" (.integer 2) rfl

def aboveOne : Link := .ofNumber ⟨ascii ">", 100, false⟩ (by decide) (by decide) "1" (.integer 1) rfl

def lessThree : Link := .ofNumber ⟨ascii "-", 140, false⟩ (by decide) (by decide) "3" (.integer 3) rfl

/-- The statement `abs $val` with operators and numbers behind it. -/
def absStatement (links : List Link) : Expr :=
  bareStatement "abs" (.group (plainToken .symbol "$val") [] :: links.flatMap Link.written)

/-- The call in `abs $val * 2 > 1 - 3` ends at the comparison. -/
theorem normalize_namedUnary_abs : normalize standard (absStatement [timesTwo, aboveOne, lessThree])
    = .binary (ascii ">") (.call (ascii "abs") [.binary (ascii "*") .value (.integer 2)])
        (.binary (ascii "-") (.integer 1) (.integer 3)) := by
  obtain ⟨argument, whole, hargument, hinside, hwhole, hbehind, hform⟩ :=
    @normalize_namedUnary (plainToken .document "") (plainToken .statement "") (plainToken .word "abs") rfl rfl
      rfl (by decide) (.group (plainToken .symbol "$val") []) .value (.symbol rfl rfl)
      [timesTwo, aboveOne, lessThree]
  have hargument : argument = .node timesTwo.operator (.leaf .value) (.leaf (.integer 2)) :=
    Link.eq_ofChain hargument hinside
  have hwhole : whole = .node aboveOne.operator (.leaf (.call (ascii "abs") [argument.toExpr]))
      (.node lessThree.operator (.leaf (.integer 1)) (.leaf (.integer 3))) := Link.eq_ofChain hwhole hbehind
  have hlevels : whole.spine < maxDepth := by
    rw [hwhole]
    exact (by decide : 1 < maxDepth)
  refine hform.trans ((if_pos (Or.inr hlevels)).trans ?_)
  rw [hwhole, hargument]
  rfl

end Rule

namespace OperatorTree

/-- Equal operators that group to the left all stand above the first operand. -/
theorem spine_ofChain_replicate {op : Operator} (hop : op.rightAssociative = false) (x y : Expr) (n : Nat) :
    (ofChain ⟨x, List.replicate n (op, y)⟩).spine = n := by
  have htop : (ofChain ⟨x, List.replicate n (op, y)⟩).spine = n ∧
      ∀ q ∈ (ofChain ⟨x, List.replicate n (op, y)⟩).top?, q = op := by
    induction n with
    | zero => exact ⟨rfl, by simp [ofChain, top?]⟩
    | succ n ih =>
      have hpush : ofChain ⟨x, List.replicate (n + 1) (op, y)⟩
          = .node op (ofChain ⟨x, List.replicate n (op, y)⟩) (.leaf y) := by
        rw [← push_of_onLeft fun q hq => Or.inr ⟨by rw [ih.2 q hq], hop⟩]
        simp [ofChain, List.replicate_succ']
      rw [hpush]
      exact ⟨congrArg (· + 1) ih.1, by simp [top?]⟩
  exact htop.1

end OperatorTree

namespace Rule

theorem normalize_absStatement_eq (links : List Link) :
    let inside := links.takeWhile Link.isTight
    let whole := callTree (ascii "abs") (OperatorTree.ofChain ⟨.value, inside.map Link.pair⟩).toExpr links
    normalize standard (absStatement links) = if inside = [] ∨ whole.spine < maxDepth then whole.toExpr
      else (callTree (ascii "abs") (wrap (.value :: inside.flatMap Link.read)) links).toExpr :=
  normalize_namedUnary_eq (.symbol rfl rfl) rfl rfl rfl (by decide) links

/-- The tree over the call in `abs $val * 2 > 1 > 1 …` with a given argument. -/
def comparisonTree (argument : Expr) (n : Nat) : OperatorTree :=
  .ofChain ⟨.call (ascii "abs") [argument], List.replicate n aboveOne.pair⟩

theorem grouped_comparisonTree (argument : Expr) (n : Nat) : (comparisonTree argument n).Grouped := by
  have hgrouped := Link.grouped_ofChain (.call (ascii "abs") [argument]) (List.replicate n aboveOne)
  rwa [List.map_replicate] at hgrouped

theorem eq_of_comparisonTree {argument other : Expr} {n : Nat}
    (h : (comparisonTree other n).toExpr = (comparisonTree argument n).toExpr) : other = argument := by
  have hother : comparisonTree other n
      = (comparisonTree argument n).mapFirst fun _ => .call (ascii "abs") [other] := by
    rw [comparisonTree, comparisonTree, OperatorTree.mapFirst_ofChain]
  rw [hother] at h
  have hfirst := OperatorTree.first_of_toExpr_mapFirst h
  rw [comparisonTree, OperatorTree.first_ofChain] at hfirst
  exact (List.cons.inj (Expr.call.inj hfirst).2).1

/-- The operation `$val * 2`. -/
def doubledValue : Expr := .binary (ascii "*") .value (.integer 2)

/-- The argument becomes an operation if fewer comparisons stand above the call than there are levels. -/
theorem normalize_abs_replicate (n : Nat) :
    normalize standard (absStatement (timesTwo :: List.replicate n aboveOne))
      = (comparisonTree (if n < maxDepth then doubledValue else wrap [.value, timesTwo.sign, .integer 2])
          n).toExpr := by
  have htight : timesTwo.isTight = true := rfl
  have hloose : aboveOne.isTight = false := rfl
  have hinside : (timesTwo :: List.replicate n aboveOne).takeWhile Link.isTight = [timesTwo] := by
    rw [List.takeWhile_cons_of_pos htight, List.takeWhile_replicate, hloose]
    rfl
  have hbehind : (timesTwo :: List.replicate n aboveOne).dropWhile Link.isTight
      = List.replicate n aboveOne := by
    rw [List.dropWhile_cons_of_pos htight, List.dropWhile_replicate, hloose]
    rfl
  have htree : ∀ e, callTree (ascii "abs") e (timesTwo :: List.replicate n aboveOne) = comparisonTree e n := by
    intro e
    rw [callTree, hbehind, List.map_replicate, comparisonTree]
  have hspine : ∀ e, (comparisonTree e n).spine = n := fun e => OperatorTree.spine_ofChain_replicate rfl ..
  have hform := normalize_absStatement_eq (timesTwo :: List.replicate n aboveOne)
  simp only [hinside, htree, hspine] at hform
  refine hform.trans ?_
  by_cases h : n < maxDepth
  · rw [if_pos (Or.inr h), if_pos h]
    rfl
  · rw [if_neg (by simpa using h), if_neg h]
    rfl

/-- With so many comparisons above the call that its argument is too deep, the result is not the tree. -/
theorem normalize_abs_ne {n : Nat} (h : maxDepth ≤ n) :
    let whole := comparisonTree doubledValue n
    whole.Grouped ∧ whole.chain = ⟨.call (ascii "abs") [doubledValue], List.replicate n aboveOne.pair⟩ ∧
      normalize standard (absStatement (timesTwo :: List.replicate n aboveOne)) ≠ whole.toExpr := by
  refine ⟨grouped_comparisonTree doubledValue n, OperatorTree.chain_ofChain _, ?_⟩
  rw [normalize_abs_replicate, if_neg (Nat.not_lt.2 h)]
  intro heq
  cases eq_of_comparisonTree heq

theorem normalize_namedUnary_deep :
    let whole := comparisonTree doubledValue 512
    whole.Grouped ∧ whole.chain = ⟨.call (ascii "abs") [doubledValue], List.replicate 512 aboveOne.pair⟩ ∧
      normalize standard (absStatement (timesTwo :: List.replicate 512 aboveOne)) ≠ whole.toExpr :=
  normalize_abs_ne (Nat.le_refl maxDepth)

end Rule

end TagFormula

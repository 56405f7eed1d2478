import TagFormula.Proofs.Printing

/-!
The normal form of a printed expression is the expression. The induction follows the expression: the
tokens of an operand become a segment that stands for it, and one round over the segments gives the
operation back.
-/

namespace TagFormula

open Expr TokenTree

/-! ### Printable expressions are settled -/

namespace Rule

/-- On an expression that is no group only the rules for whole expressions could apply. -/
theorem declined_of_token?_eq_none {e : Expr} (h : e.token? = none) (hb : Shape.bindMatch e = none)
    (hr : Shape.repetition e = none) (hg : Shape.guardedDivision e = none) : Declined standard e := by
  intro rule hrule
  simp only [standard, List.mem_cons, List.not_mem_nil, or_false] at hrule
  rcases hrule with rfl | rfl | rfl | rfl | rfl | rfl | rfl | rfl
  · cases e <;> first | rfl | cases h
  · cases e <;> first | rfl | cases h
  · cases e <;> first | rfl | cases h
  · exact hb
  · cases e <;> first | rfl | cases h
  · exact hr
  · exact hg
  · cases e <;> first | rfl | cases h

end Rule

namespace Expr

theorem allPrintable_iff {args : List Expr} : AllPrintable args ↔ ∀ a ∈ args, Printable a := by
  induction args with
  | nil => simp [AllPrintable]
  | cons a args ih => simp [AllPrintable, ih]

theorem Printable.token? {t : Expr} (h : t.Printable) : t.token? = none := by
  cases t <;> first | rfl | exact h.elim

theorem Printable.isResolved {t : Expr} (h : t.Printable) : t.IsResolved := by
  refine ⟨h.token?, ?_⟩
  cases t <;> first | rfl | exact h.elim

theorem Printable.declined {t : Expr} (h : t.Printable) : Rule.Declined Rule.standard t := by
  refine Rule.declined_of_token?_eq_none h.token? ?_ ?_ ?_
  · cases t with
    | binary op l r =>
      rw [Printable] at h
      obtain ⟨-, hop, -, -⟩ := h
      simp only [List.map_cons, List.map_nil, List.mem_cons, List.not_mem_nil, or_false, not_or] at hop
      unfold Shape.bindMatch
      split <;> simp_all
    | _ => rfl
  · cases t with
    | binary op l r =>
      rw [Printable] at h
      obtain ⟨-, hop, -, -⟩ := h
      simp only [List.map_cons, List.map_nil, List.mem_cons, List.not_mem_nil, or_false, not_or] at hop
      simp [Shape.repetition, hop.1]
    | _ => rfl
  · cases t with
    | conditional c y n =>
      rw [Printable] at h
      obtain ⟨hshape, -, -, hn⟩ := h
      unfold Shape.guardedDivision
      split
      · rename_i guard op m d no heq
        obtain ⟨rfl, rfl, rfl⟩ : c = guard ∧ y = .binary op m d ∧ n = no := by simpa using heq
        rw [if_neg]
        simp only [Bool.and_eq_true, beq_iff_eq, not_and]
        rintro ⟨rfl, hzero⟩ hsame
        refine hshape ⟨m, d, rfl, ?_, hsame⟩
        -- a printable literal that is zero is an integer
        cases n with
        | literal l =>
          cases l with
          | integer i => simpa [isLiteralZero, Literal.isZero, Expr.integer] using hzero
          | float => exact hn.elim
          | string => cases hzero
        | _ => cases hzero
      · rfl
    | _ => rfl

theorem Printable.settled {t : Expr} : t.Printable → Rule.Settled Rule.standard t := by
  induction t using Expr.induct with
  | hole => exact fun h => h.elim
  | literal | value | element | field => exact fun h => .node h.declined (by intro c hc; cases hc)
  | binary op l r ihl ihr =>
    intro h
    obtain ⟨-, -, hl, hr⟩ := id h
    exact .node h.declined (by simp [children, ihl hl, ihr hr])
  | unary op x ih => exact fun h => .node h.declined (by simp [children, ih h.2])
  | conditional c y n ihc ihy ihn =>
    intro h
    obtain ⟨-, hc, hy, hn⟩ := id h
    exact .node h.declined (by simp [children, ihc hc, ihy hy, ihn hn])
  | call name args ih =>
    exact fun h => .node h.declined fun a ha => ih a ha (allPrintable_iff.1 h a ha)
  | repeated x n ihx ihn =>
    exact fun h => .node h.declined (by simp [children, ihx h.1, ihn h.2])
  | regexMatch => exact fun h => h.elim
  | group => exact fun h => h.elim

theorem Printable.settled_children {t : Expr} (h : t.Printable) :
    ∀ c ∈ t.children, Rule.Settled Rule.standard c := by
  cases h.settled with
  | hole => exact h.elim
  | node _ hc => exact hc

end Expr

/-- A round that leads to a printable expression is the last one. -/
theorem Rule.settle_of_printable {e next : Expr} (hround : standard.foldl apply e = next)
    (hnext : next.Printable) (k n : Nat) :
    settle (normalizeWithin standard k) standard (n + 1) e = next :=
  settle_of_round hround hnext.declined hnext.settled_children

/-! ### Texts of tokens -/

namespace Quoted

theorem decodeSingle_cons {b : UInt8} (h : b ≠ ch '\\') (t : Text) :
    decodeSingle (b :: t) = b :: decodeSingle t := by
  cases t with
  | nil => rfl
  | cons e t => simp [decodeSingle, h]

theorem decodeSingle_escape (t : Text) : decodeSingle (t.flatMap quote.escape) = t := by
  induction t with
  | nil => rfl
  | cons b t ih =>
    rw [List.flatMap_cons, quote.escape]
    split
    · rename_i hb
      simp only [Bool.or_eq_true, beq_iff_eq] at hb
      simp [decodeSingle, hb, ih]
    · rename_i hb
      simp only [Bool.or_eq_true, beq_iff_eq, not_or] at hb
      rw [List.singleton_append, decodeSingle_cons hb.1, ih]

theorem enclosed?_eq_none {t : Text} (h : ¬(2 ≤ t.length ∧ t.head? = t.getLast? ∧
    (t.head? = some (ch '\'') ∨ t.head? = some (ch '"')))) : enclosed? t = none := by
  cases t with
  | nil => rfl
  | cons q rest =>
    rw [enclosed?, if_neg]
    rw [Bool.and_eq_true, Bool.or_eq_true, beq_iff_eq, beq_iff_eq, beq_iff_eq]
    rintro ⟨hq, hlast⟩
    cases rest with
    | nil => cases hlast
    | cons b rest =>
      refine h ⟨by simp, ?_, ?_⟩
      · rw [List.getLast?_cons_cons, hlast, List.head?_cons]
      · rcases hq with rfl | rfl
        · exact Or.inr rfl
        · exact Or.inl rfl

end Quoted

theorem Leaf.fieldOfSymbol?_append {name : Text} (hne : name ≠ []) (hq : Quoted.enclosed? name = none) :
    Leaf.fieldOfSymbol? (ascii "$$self\x7b" ++ name ++ ascii "\x7d") = some name := by
  have hlast : (ascii "$$self\x7b" ++ name ++ ascii "\x7d").getLast? = some (ch '\x7d') := by
    rw [show ascii "\x7d" = [ch '\x7d'] from rfl, List.getLast?_concat]
  have hstart : (ascii "$$self\x7b").isPrefixOf (ascii "$$self\x7b" ++ name ++ ascii "\x7d") := by
    rw [List.isPrefixOf_iff_prefix, List.append_assoc]
    exact List.prefix_append _ _
  have hname : ((ascii "$$self\x7b" ++ name ++ ascii "\x7d").drop (ascii "$$self\x7b").length).dropLast
      = name := by
    rw [List.append_assoc, List.drop_left, show ascii "\x7d" = [ch '\x7d'] from rfl,
      List.dropLast_concat]
  simp only [Leaf.fieldOfSymbol?, hstart, hlast, hname, hq]
  simp [hne]

/-! ### Tokens in normal form -/

namespace Rule

/-- A token that the rule for literals reads as a printable expression. -/
theorem normalizeWithin_leaf {t : Token} {x : Expr} (h : leaf.reduce? (.group t []) = some x)
    (hx : x.Printable) (k : Nat) : normalizeWithin standard (k + 1) (.group t []) = x := by
  have hrest : Declined [call, operation, bindMatch, conditional, repetition, guardedDivision,
      collapse] x := fun rule hrule => hx.declined rule (List.mem_cons_of_mem _ hrule)
  have hround : standard.foldl apply (.group t []) = x := by
    rw [standard, List.foldl_cons, apply_of_some h, foldl_apply_of_declined hrest]
  rw [normalizeWithin_succ k (by simp), mapChildren_group, List.map_nil]
  exact settle_of_printable hround hx k _

/-- Every atom is read from its token. -/
theorem normalizeWithin_atom {bare : Expr → Bool} {x : Expr} (ha : x.isAtom) (hx : x.Printable)
    (k : Nat) : (ofTokenTrees (tokens bare x)).map (normalizeWithin standard (k + 1)) = [x] := by
  have hsingle : ∀ {t : Token}, t.kind = .number ∨ t.kind = .quote ∨ t.kind = .symbol →
      leaf.reduce? (.group t []) = some x →
      (ofTokenTrees [.node t []]).map (normalizeWithin standard (k + 1)) = [x] := by
    intro t ht h
    have hlift : ofTokenTrees [.node t []] = [.group t []] := by
      rcases ht with ht | ht | ht <;>
        simp [ofTokenTrees, ofTokenTree, TokenTree.token, Token.isIgnorable, ht]
    rw [hlift, List.map_singleton, normalizeWithin_leaf h hx k]
  cases x with
  | literal l =>
    cases l with
    | integer i =>
      refine hsingle (Or.inl (Token.kind_printed rfl)) ?_
      rw [leaf_number (Token.kind_printed rfl)]
      exact congrArg _ (Literal.ofNumberToken_ofInt hx)
    | string t =>
      refine hsingle (Or.inr (Or.inl (Token.kind_printed rfl))) ?_
      have hread := leaf_single_quoted (t := (TokenTree.quote t).token) (Token.kind_printed rfl) rfl []
      rw [Quoted.decodeSingle_escape] at hread
      exact hread
    | float => exact hx.elim
  | value =>
    refine hsingle (Or.inr (Or.inr (Token.kind_printed rfl))) ?_
    exact (leaf_symbol (Token.kind_printed rfl) []).trans (if_pos rfl)
  | field name =>
    refine hsingle (Or.inr (Or.inr (Token.kind_printed rfl))) ?_
    rw [leaf_symbol (Token.kind_printed rfl), if_neg (by simp [Token.ofClass, ascii, ch])]
    exact congrArg _ (Leaf.fieldOfSymbol?_append hx.1 (Quoted.enclosed?_eq_none hx.2))
  | _ => cases ha

/-- A token that stands for no literal and no reference is settled. -/
theorem settled_of_leaf_eq_none {t : Token} (h : leaf.reduce? (.group t []) = none) :
    Settled standard (.group t []) := by
  refine .node ?_ (by intro c hc; cases hc)
  intro rule hrule
  simp only [standard, List.mem_cons, List.not_mem_nil, or_false] at hrule
  rcases hrule with rfl | rfl | rfl | rfl | rfl | rfl | rfl | rfl
  · exact h
  all_goals rfl

/-- Tokens of operators and words are settled. -/
theorem settled_token {t : Token} (h : t.kind = .operator ∨ t.kind = .word) :
    Settled standard (.group t []) := by
  refine settled_of_leaf_eq_none ?_
  rcases h with h | h <;> simp [leaf, Leaf.reduce?, h, replaceItems?]

/-! ### Lists of arguments -/

/-- An operator token as an item. -/
def operatorItem (symbol : Text) : Expr :=
  .group (Token.ofClass (ascii "PPI::Token::Operator") symbol [] none) []

theorem isOperator_operatorItem (symbol : Text) : (operatorItem symbol).isOperator :=
  isOperator_iff.2 ⟨_, _, rfl, Token.kind_printed rfl⟩

theorem settled_operatorItem (symbol : Text) : Settled standard (operatorItem symbol) :=
  settled_token (Or.inl (Token.kind_printed rfl))

/-- The token that separates arguments. -/
def comma : Expr := operatorItem (ascii ",")

/-- Further arguments, each behind a comma. -/
def further (args : List Expr) : List Expr := args.flatMap fun a => [comma, a]

theorem isComma_comma : comma.isComma := by decide +kernel

theorem isOperator_head?_further (args : List Expr) : ∀ e ∈ (further args).head?, e.isOperator := by
  cases args with
  | nil => intro e he; cases he
  | cons a rest => rintro e ⟨⟩; exact isOperator_operatorItem _

theorem replaceItems?_further {step : Expr → List Expr → Option (Expr × Nat)}
    (hcomma : ∀ rest, step comma rest = none) {args : List Expr}
    (hstep : ∀ a ∈ args, ∀ rest, (∀ e ∈ rest.head?, e.isOperator) → step a rest = none) :
    replaceItems? step 0 (further args) = none := by
  induction args with
  | nil => rfl
  | cons a rest ih =>
    have ha := hstep a (List.mem_cons_self ..) (further rest) (isOperator_head?_further rest)
    have hrest := ih fun b hb => hstep b (List.mem_cons_of_mem _ hb)
    have hcons : further (a :: rest) = comma :: a :: further rest := rfl
    rw [hcons, replaceItems?, hcomma, replaceItems?, ha, hrest]
    rfl

theorem splitAtBarriers_further {args : List Expr} (h : ∀ a ∈ args, a.IsResolved) :
    Operation.splitAtBarriers (further args) = ([], args.map fun a => (comma, [a])) := by
  induction args with
  | nil => rfl
  | cons a rest ih =>
    have ha := (h a (List.mem_cons_self ..)).isBarrier
    have hcomma : comma.isBarrier = true := by simp [Expr.isBarrier, isComma_comma]
    have hcons : further (a :: rest) = comma :: a :: further rest := rfl
    simp [hcons, Operation.splitAtBarriers, ih fun b hb => h b (List.mem_cons_of_mem _ hb), ha, hcomma]

/-- Several arguments with commas between them stay as they are. -/
theorem declined_arguments {t : Token} (ht : t.kind.isWrapper) {a b : Expr} {rest : List Expr}
    (h : ∀ c ∈ a :: b :: rest, c.IsResolved) :
    Declined standard (.group t (a :: further (b :: rest))) := by
  have ha := h a (List.mem_cons_self ..)
  have hrest : ∀ c ∈ b :: rest, c.IsResolved := fun c hc => h c (List.mem_cons_of_mem _ hc)
  have hstop := isOperator_head?_further (b :: rest)
  have hleaf : replaceItems? Leaf.reference? 0 (a :: further (b :: rest)) = none := by
    rw [replaceItems?, reference?_of_not_token ha hstop, replaceItems?_further]
    · rfl
    · exact reference?_operator (isOperator_operatorItem _)
    · exact fun c hc _ => reference?_of_not_token (hrest c hc)
  have hcall : replaceItems? Call.step? 0 (a :: further (b :: rest)) = none := by
    rw [replaceItems?, step?_resolved ha, replaceItems?_further]
    · rfl
    · exact step?_operator (isOperator_operatorItem _)
    · exact fun c hc rest _ => step?_resolved (hrest c hc) rest
  have hsplit : Operation.splitAtBarriers (a :: further (b :: rest))
      = ([a], (b :: rest).map fun c => (comma, [c])) := by
    rw [Operation.splitAtBarriers, splitAtBarriers_further hrest]
    simp [ha.isBarrier]
  intro rule hrule
  simp only [standard, List.mem_cons, List.not_mem_nil, or_false] at hrule
  rcases hrule with rfl | rfl | rfl | rfl | rfl | rfl | rfl | rfl
  · cases hk : t.kind <;> simp [hk, TokenKind.isWrapper] at ht <;> simp [leaf, Leaf.reduce?, hk, hleaf]
  · simp [call, Call.reduce?, hcall]
  · simp [operation, Operation.reduce?, hsplit, Operation.resolve?]
  · rfl
  · have hcomma : (a :: further (b :: rest)).any Expr.isComma = true := by
      simp [further, isComma_comma]
    simp [conditional, Conditional.reduce?, hcomma]
  · rfl
  · rfl
  · rfl

theorem arguments_go_resolved {a : Expr} (ha : a.IsResolved) (rest : List Expr) :
    Call.arguments.go [] (a :: rest) = Call.arguments.go [a] rest := by
  have htoken := ha.token?
  have hcomma : a.isComma = false := by simp [Expr.isComma, Expr.isSymbol, htoken]
  have hword : Call.word? a = none := by cases a <;> first | rfl | cases htoken
  simp [Call.arguments.go, hcomma, Call.isBareListOperator, hword]

theorem arguments_go_comma (a : Expr) (rest : List Expr) :
    Call.arguments.go [a] (comma :: rest) = a :: Call.arguments.go [] rest := by
  simp [Call.arguments.go, isComma_comma, Call.flush, Expr.collapseOrWrap]

theorem arguments_further {a : Expr} {rest : List Expr} (h : ∀ c ∈ a :: rest, c.IsResolved) :
    Call.arguments (a :: further rest) = a :: rest := by
  rw [Call.arguments, arguments_go_resolved (h a (List.mem_cons_self ..))]
  induction rest generalizing a with
  | nil => rfl
  | cons b rest ih =>
    have hb : ∀ c ∈ b :: rest, c.IsResolved := fun c hc => h c (List.mem_cons_of_mem _ hc)
    have hcons : further (b :: rest) = comma :: b :: further rest := rfl
    rw [hcons, arguments_go_comma, arguments_go_resolved (hb b (List.mem_cons_self ..)), ih hb]

/-! ### Containers -/

/-- The items of tokens, each in normal form at a level. -/
def itemsWithin (k : Nat) (ts : List TokenTree) : List Expr :=
  (ofTokenTrees ts).map (normalizeWithin standard k)

theorem ofTokenTrees_append : ∀ a b : List TokenTree,
    ofTokenTrees (a ++ b) = ofTokenTrees a ++ ofTokenTrees b
  | [], _ => rfl
  | c :: rest, b => by
    rw [List.cons_append, ofTokenTrees, ofTokenTrees, ofTokenTrees_append rest b]
    split <;> rfl

theorem itemsWithin_append (k : Nat) (a b : List TokenTree) :
    itemsWithin k (a ++ b) = itemsWithin k a ++ itemsWithin k b := by
  rw [itemsWithin, ofTokenTrees_append, List.map_append]
  rfl

theorem itemsWithin_operator (k : Nat) (symbol : Text) (ts : List TokenTree) :
    itemsWithin k (.operator symbol :: ts) = operatorItem symbol :: itemsWithin k ts := by
  have hsettled : normalizeWithin standard k (operatorItem symbol) = operatorItem symbol :=
    normalizeWithin_of_settled (settled_operatorItem symbol) k
  have hlift : ofTokenTrees (.operator symbol :: ts) = operatorItem symbol :: ofTokenTrees ts := by
    have hkind : (TokenTree.operator symbol).token.kind = .operator := Token.kind_printed rfl
    rw [ofTokenTrees, if_neg (by simp [Token.isIgnorable, hkind])]
    rfl
  rw [itemsWithin, hlift, List.map_cons, hsettled, itemsWithin]

theorem depthAll_append : ∀ a b : List TokenTree, depthAll (a ++ b) = max (depthAll a) (depthAll b)
  | [], b => by simp [depthAll]
  | c :: rest, b => by rw [List.cons_append, depthAll, depthAll, depthAll_append rest b, max_assoc]

theorem depthAll_parenthesised (ts : List TokenTree) :
    depthAll [TokenTree.parenthesised ts] = depthAll ts + 2 := by
  simp [TokenTree.parenthesised, TokenTree.list, TokenTree.expression, TokenTree.container, depthAll,
    TokenTree.depth]

/-- A list or subscript with a single item that is no call stays as it is. -/
theorem declined_structure {t : Token} (ht : t.kind = .list ∨ t.kind = .subscript) {y : Expr}
    (hy : Call.step? y [] = none) : Declined standard (.group t [y]) := by
  intro rule hrule
  simp only [standard, List.mem_cons, List.not_mem_nil, or_false] at hrule
  rcases hrule with rfl | rfl | rfl | rfl | rfl | rfl | rfl | rfl
  · rcases ht with ht | ht <;> simp [leaf, Leaf.reduce?, ht, replaceItems?, Leaf.reference?]
  · simp [call, Call.reduce?, replaceItems?, hy]
  · simp [operation, Operation.reduce?]
  · rfl
  · exact conditional_single t y
  · rfl
  · rfl
  · rcases ht with ht | ht <;> simp [collapse, Shape.collapse, ht]

/-- The token of parentheses. -/
def listToken : Token := Token.ofClass (ascii "PPI::Structure::List") [] (ascii "()") none

theorem kind_listToken : listToken.kind = .list := Token.kind_printed rfl

/-- The token of an expression in parentheses. -/
def expressionToken : Token := Token.ofClass (ascii "PPI::Statement::Expression") [] [] none

theorem isWrapper_expressionToken : expressionToken.kind.isWrapper := by
  have hkind : expressionToken.kind = .expression := Token.kind_printed rfl
  simp [hkind, TokenKind.isWrapper]

theorem itemsWithin_parenthesised {j : Nat} {ts : List TokenTree} {y : Expr}
    (hy : normalizeWithin standard (j + 1) (.group expressionToken (ofTokenTrees ts)) = y)
    (hstep : Call.step? y [] = none) :
    itemsWithin (j + 2) [TokenTree.parenthesised ts] = [.group listToken [y]] := by
  have hlist : normalizeWithin standard (j + 2)
      (.group listToken [.group expressionToken (ofTokenTrees ts)]) = .group listToken [y] := by
    rw [normalizeWithin_succ _ (by simp), mapChildren_group, List.map_singleton, hy,
      settle_of_declined (declined_structure (Or.inl kind_listToken) hstep)]
  exact congrArg (fun e => [e]) hlist

/-! ### Expressions -/

variable {bare : Expr → Bool}

/-- The tokens of an expression in a wrapper have it as their normal form. -/
def ReadsBack (bare : Expr → Bool) (e : Expr) : Prop :=
  ∀ (k : Nat) (t : Token), t.kind.isWrapper → depthAll (tokens bare e) ≤ k →
    normalizeWithin standard (k + 1) (.group t (ofTokenTrees (tokens bare e))) = e

/-- The tokens of an expression that needs no parentheses stand for it among other items. -/
def StandsBare (bare : Expr → Bool) (e : Expr) : Prop :=
  (e.isAtom || e.isCompact) = true → ∀ k, depthAll (tokens bare e) ≤ k →
    Segment e (itemsWithin k (tokens bare e))

/-- One round over the items of a wrapper that leads to a printable expression. -/
theorem normalizeWithin_wrapper {t : Token} (ht : t.kind.isWrapper) {ts : List TokenTree}
    {xs : List Expr} {e : Expr} {k : Nat} (hl : Layout xs (itemsWithin k ts))
    (hround : forOperands.foldl apply (.group t xs) = e) (he : e.Printable) :
    normalizeWithin standard (k + 1) (.group t (ofTokenTrees ts)) = e := by
  rw [normalizeWithin_succ k (by simp), mapChildren_group]
  refine settle_of_printable ?_ he k _
  rw [← hround, ← foldl_standard_of_layout ht hl]
  rfl

theorem StandsBare.readsBack {e : Expr} (h : StandsBare bare e)
    (hc : (e.isAtom || e.isCompact) = true) (he : e.Printable) : ReadsBack bare e := by
  intro k t ht hk
  have hl : Layout [e] (itemsWithin k (tokens bare e)) := by
    simpa using Layout.operand (h hc k hk) (by intro c hc; cases hc) .nil
  exact normalizeWithin_wrapper ht hl (foldl_operand ht he.isResolved.isHole) he

/-- The tokens of an operand stand for it. -/
theorem segment_enclose {x : Expr} (hx : x.Printable) (hr : ReadsBack bare x)
    (hb : StandsBare bare x) {k : Nat} (hk : depthAll (enclose bare x (tokens bare x)) ≤ k) :
    Segment x (itemsWithin k (enclose bare x (tokens bare x))) := by
  rw [enclose] at hk ⊢
  split at hk
  · rename_i hc
    rw [if_pos hc]
    refine hb ?_ k hk
    cases ha : x.isAtom
    · rw [ha, Bool.false_or, Bool.and_eq_true] at hc
      rw [Bool.false_or, hc.1]
    · rfl
  · rename_i hc
    rw [if_neg hc]
    rw [depthAll_parenthesised] at hk
    obtain ⟨j, rfl⟩ := Nat.exists_eq_add_of_le hk
    rw [show depthAll (tokens bare x) + 2 + j = (depthAll (tokens bare x) + j) + 2 by omega,
      itemsWithin_parenthesised (hr _ expressionToken isWrapper_expressionToken (Nat.le_add_right _ _))
        (step?_resolved hx.isResolved [])]
    exact .enclosed kind_listToken hx.isResolved

/-- What the induction gives for a part of an expression. -/
structure Part (bare : Expr → Bool) (x : Expr) : Prop where
  printable : x.Printable
  readsBack : ReadsBack bare x
  standsBare : StandsBare bare x

theorem Part.segment {x : Expr} (h : Part bare x) {k : Nat}
    (hk : depthAll (enclose bare x (tokens bare x)) ≤ k) :
    Segment x (itemsWithin k (enclose bare x (tokens bare x))) :=
  segment_enclose h.printable h.readsBack h.standsBare hk

/-- An operand at the end of the items. -/
theorem Part.layout {x : Expr} (h : Part bare x) {k : Nat}
    (hk : depthAll (enclose bare x (tokens bare x)) ≤ k) :
    Layout [x] (itemsWithin k (enclose bare x (tokens bare x))) := by
  simpa using Layout.operand (h.segment hk) (by intro c hc; cases hc) .nil

/-- An operand in front of an operator. -/
theorem Part.layout_operator {x : Expr} (h : Part bare x) {k : Nat} {symbol : Text}
    {ts : List TokenTree} {xs : List Expr} (hk : depthAll (enclose bare x (tokens bare x)) ≤ k)
    (hl : Layout xs (itemsWithin k ts)) :
    Layout (x :: operatorItem symbol :: xs)
      (itemsWithin k (enclose bare x (tokens bare x) ++ .operator symbol :: ts)) := by
  rw [itemsWithin_append, itemsWithin_operator]
  exact .operand (h.segment hk) (by rintro e ⟨⟩; exact isOperator_operatorItem _)
    (.operator (isOperator_operatorItem _) hl)

theorem layout_further {args : List Expr} (h : ∀ a ∈ args, Part bare a) {k : Nat}
    (hk : depthAll (furtherTokens bare args) ≤ k) :
    Layout (further args) (itemsWithin k (furtherTokens bare args)) ∧
      ∀ e ∈ (itemsWithin k (furtherTokens bare args)).head?, e.isOperator := by
  induction args with
  | nil => exact ⟨.nil, by intro e he; cases he⟩
  | cons a rest ih =>
    rw [furtherTokens, depthAll, depthAll_append] at hk
    obtain ⟨hl, hstop⟩ := ih (fun b hb => h b (List.mem_cons_of_mem _ hb)) (by omega)
    rw [furtherTokens, itemsWithin_operator, itemsWithin_append]
    have ha := (h a (List.mem_cons_self ..)).segment (k := k) (by omega)
    refine ⟨.operator (isOperator_operatorItem _) (.operand ha hstop hl), ?_⟩
    rintro e ⟨⟩
    exact isOperator_operatorItem _

/-- An expression with arguments in parentheses: the items it is read from. -/
theorem itemsWithin_arguments {a : Expr} {rest : List Expr} (h : ∀ b ∈ a :: rest, Part bare b) {k : Nat}
    (hk : depthAll [TokenTree.parenthesised
      (enclose bare a (tokens bare a) ++ furtherTokens bare rest)] ≤ k) :
    ∃ parts, itemsWithin k [TokenTree.parenthesised
        (enclose bare a (tokens bare a) ++ furtherTokens bare rest)] = [.group listToken parts] ∧
      Call.arguments (Call.listItems parts) = a :: rest := by
  have ha := h a (List.mem_cons_self ..)
  have hrest : ∀ b ∈ rest, Part bare b := fun b hb => h b (List.mem_cons_of_mem _ hb)
  have hresolved : ∀ b ∈ a :: rest, b.IsResolved := fun b hb => (h b hb).printable.isResolved
  rw [depthAll_parenthesised, depthAll_append] at hk
  obtain ⟨j, rfl⟩ : ∃ j, k = j + 2 := ⟨k - 2, by omega⟩
  obtain ⟨hl, hstop⟩ := layout_further hrest (k := j) (by omega)
  have hlayout : Layout (a :: further rest)
      (itemsWithin j (enclose bare a (tokens bare a) ++ furtherTokens bare rest)) := by
    rw [itemsWithin_append]
    exact .operand (ha.segment (by omega)) hstop hl
  cases rest with
  | nil =>
    have hread := normalizeWithin_wrapper isWrapper_expressionToken hlayout
      (foldl_operand isWrapper_expressionToken (hresolved a (List.mem_cons_self ..)).isHole) ha.printable
    refine ⟨[a], itemsWithin_parenthesised hread (step?_resolved (hresolved a (by simp)) []), ?_⟩
    have hitems : Call.listItems [a] = [a] := by
      have htoken := ha.printable.token?
      cases a <;> first | rfl | cases htoken
    rw [hitems]
    exact arguments_further hresolved
  | cons b rest =>
    have hdeclined := declined_arguments isWrapper_expressionToken hresolved
    have hround : standard.foldl apply (.group expressionToken
        (itemsWithin j (enclose bare a (tokens bare a) ++ furtherTokens bare (b :: rest))))
          = .group expressionToken (a :: further (b :: rest)) := by
      rw [foldl_standard_of_layout isWrapper_expressionToken hlayout]
      exact foldl_apply_of_declined fun rule hrule =>
        hdeclined rule (List.mem_cons_of_mem _ (List.mem_cons_of_mem _ hrule))
    have hsettled : ∀ c ∈ a :: further (b :: rest), Settled standard c := by
      intro c hc
      rcases List.mem_cons.1 hc with rfl | hc
      · exact ha.printable.settled
      · obtain ⟨d, hd, hc⟩ := List.mem_flatMap.1 hc
        rcases List.mem_cons.1 hc with rfl | hc
        · exact settled_operatorItem _
        · rw [List.mem_singleton.1 hc]
          exact (hrest d hd).printable.settled
    have hread : normalizeWithin standard (j + 1) (.group expressionToken
        (ofTokenTrees (enclose bare a (tokens bare a) ++ furtherTokens bare (b :: rest))))
          = .group expressionToken (a :: further (b :: rest)) := by
      rw [normalizeWithin_succ j (by simp), mapChildren_group]
      exact settle_of_round hround hdeclined hsettled
    exact ⟨_, itemsWithin_parenthesised hread rfl, arguments_further hresolved⟩

/-- The items of a call: its name and its arguments. -/
theorem standsBare_call {name : Text} {args : List Expr} (h : ∀ a ∈ args, Part bare a) :
    StandsBare bare (.call name args) := by
  intro _ k hk
  let w := Token.ofClass (ascii "PPI::Token::Word") name [] none
  have hw : w.kind = .word := Token.kind_printed rfl
  have hword : ∀ ts, itemsWithin k (.word name :: ts) = .group w [] :: itemsWithin k ts := by
    intro ts
    exact congrArg (· :: _) (normalizeWithin_of_settled (settled_token (t := w) (Or.inr hw)) k)
  cases args with
  | nil =>
    rw [tokens, hword]
    have hlist : itemsWithin k [TokenTree.list []] = [.group listToken []] := by
      have hsettled : Settled standard (.group listToken []) := by
        refine .node ?_ (by intro c hc; cases hc)
        intro rule hrule
        simp only [standard, List.mem_cons, List.not_mem_nil, or_false] at hrule
        rcases hrule with rfl | rfl | rfl | rfl | rfl | rfl | rfl | rfl <;> rfl
      exact congrArg (fun e => [e]) (normalizeWithin_of_settled hsettled k)
    rw [hlist]
    exact Segment.call (w := w) hw kind_listToken rfl
  | cons a rest =>
    rw [tokens, depthAll] at hk
    obtain ⟨parts, hparts, hargs⟩ := itemsWithin_arguments h (k := k) (by omega)
    rw [tokens, hword, hparts]
    exact Segment.call (w := w) hw kind_listToken hargs

theorem standsBare_atom {x : Expr} (ha : x.isAtom) (hx : x.Printable) : StandsBare bare x := by
  intro _ k hk
  have hdepth : 1 ≤ depthAll (tokens bare x) := by
    cases x with
    | literal l => cases l <;> first | exact Nat.le_refl 1 | exact hx.elim
    | value | field => exact Nat.le_refl 1
    | _ => cases ha
  obtain ⟨j, rfl⟩ := Nat.exists_eq_add_of_le' (Nat.le_trans hdepth hk)
  rw [itemsWithin, normalizeWithin_atom ha hx]
  exact .self hx.isResolved

theorem standsBare_element {i : Int64} (hi : (element i).Printable) :
    StandsBare bare (.element i) := by
  intro _ k hk
  obtain ⟨j, rfl⟩ : ∃ j, k = j + 2 := Nat.exists_eq_add_of_le' hk
  let t := Token.ofClass (ascii "PPI::Structure::Subscript") [] (ascii "[]") none
  have ht : t.kind = .subscript := Token.kind_printed rfl
  have hvalue : itemsWithin (j + 2) (tokens bare .value) = [.value] :=
    normalizeWithin_atom (x := .value) rfl trivial (j + 1)
  have hindex : itemsWithin (j + 1) (tokens bare (integer i)) = [integer i] :=
    normalizeWithin_atom (x := integer i) rfl hi j
  have hsubscript : normalizeWithin standard (j + 2)
      (.group t (ofTokenTrees [.number (Text.ofInt i.toInt)])) = .group t [integer i] := by
    rw [normalizeWithin_succ _ (by simp), mapChildren_group]
    exact (congrArg (fun parts => settle _ standard maxRounds (.group t parts)) hindex).trans
      (settle_of_declined (declined_structure (Or.inr ht) (step?_resolved ⟨rfl, rfl⟩ [])) _)
  have hitems : itemsWithin (j + 2) (tokens bare (.element i)) = [.value, .group t [integer i]] :=
    congrArg₂ (· ++ ·) hvalue (congrArg (fun e => [e]) hsubscript)
  rw [hitems]
  exact .element ht (by decide)

theorem readsBack_unary {op : Text} {x : Expr} (hx : Part bare x) (h : (unary op x).Printable) :
    ReadsBack bare (.unary op x) := by
  intro k t ht hk
  have hop : Operator.isPrefix op ∧ isGrouping op = false := by
    have hall : ∀ s ∈ ["-", "+", "!", "~"].map ascii,
        Operator.isPrefix s ∧ isGrouping s = false := by decide
    exact hall op h.1
  rw [tokens, depthAll] at hk
  have hl : Layout [operatorItem op, x] (itemsWithin k (tokens bare (.unary op x))) := by
    rw [tokens, itemsWithin_operator]
    exact .operator (isOperator_operatorItem op) (hx.layout (by omega))
  exact normalizeWithin_wrapper ht hl
    (foldl_unary ht (Token.kind_printed rfl) hop.1 hop.2 hx.printable.isResolved []) h

theorem layout_binary {op : Text} {l r : Expr} (hl : Part bare l) (hr : Part bare r) {k : Nat}
    (hk : depthAll (enclose bare l (tokens bare l)
      ++ .operator op :: enclose bare r (tokens bare r)) ≤ k) :
    Layout [l, operatorItem op, r] (itemsWithin k (enclose bare l (tokens bare l)
      ++ .operator op :: enclose bare r (tokens bare r))) := by
  rw [depthAll_append, depthAll] at hk
  exact hl.layout_operator (by omega) (hr.layout (by omega))

theorem readsBack_binary {op : Text} {l r : Expr} (hl : Part bare l) (hr : Part bare r)
    (h : (binary op l r).Printable) : ReadsBack bare (.binary op l r) := by
  intro k t ht hk
  rw [Printable] at h
  obtain ⟨⟨o, ho, rfl⟩, -⟩ := id h
  obtain ⟨hfind, hg⟩ := find?_symbol o ho
  rw [tokens] at hk ⊢
  refine normalizeWithin_wrapper ht (layout_binary hl hr hk) ?_ (by rwa [Printable])
  exact foldl_binary ht (Token.kind_printed rfl) hfind hg hl.printable.isResolved
    hr.printable.isResolved []

theorem readsBack_conditional {c y n : Expr} (hc : Part bare c) (hy : Part bare y)
    (hn : Part bare n) (h : (Expr.conditional c y n).Printable) :
    ReadsBack bare (.conditional c y n) := by
  intro k t ht hk
  rw [tokens] at hk ⊢
  have hk' := hk
  rw [depthAll_append, depthAll, depthAll_append, depthAll] at hk'
  have hbranches : Layout [y, operatorItem (ascii ":"), n] (itemsWithin k _) :=
    hy.layout_operator (by omega) (hn.layout (by omega))
  refine normalizeWithin_wrapper ht (hc.layout_operator (by omega) hbranches) ?_ h
  have hk : TokenKind.ofClass (ascii "PPI::Token::Operator") = .operator := TokenKind.ofClass_printed rfl
  exact foldl_conditional ht hk rfl hk rfl hc.printable.isResolved hy.printable.isResolved
    hn.printable.isResolved [] []

/-- A repetition is read as an operation first, and becomes a repetition in the next round. -/
theorem readsBack_repeated {x n : Expr} (hx : Part bare x) (hn : Part bare n)
    (h : (repeated x n).Printable) : ReadsBack bare (.repeated x n) := by
  intro k t ht hk
  rw [tokens] at hk ⊢
  have hchildren : ∀ c ∈ children (.binary (ascii "x") x n), Settled standard c := by
    simp [children, hx.printable.settled, hn.printable.settled]
  let u := Token.ofClass (ascii "PPI::Token::Operator") (ascii "x") [] none
  have hfind : Operator.find? u.content = some ⟨ascii "x", 150, false⟩ := by decide
  have hg : isGrouping u.content = false := by decide
  have hfirst : standard.foldl apply (.group t (itemsWithin k (enclose bare x (tokens bare x)
      ++ .operator (ascii "x") :: enclose bare n (tokens bare n)))) = .binary (ascii "x") x n := by
    rw [foldl_standard_of_layout ht (layout_binary hx hn hk)]
    exact foldl_binary ht (Token.kind_printed rfl) hfind hg hx.printable.isResolved
      hn.printable.isResolved []
  have hbind : bindMatch.reduce? (.binary (ascii "x") x n) = none := by
    have heq : (ascii "x" == ascii "=~") = false ∧ (ascii "x" == ascii "!~") = false := by decide
    cases n with
    | regexMatch s p fl neg => cases s <;> simp [bindMatch, Shape.bindMatch, heq]
    | _ => rfl
  have hsecond : standard.foldl apply (.binary (ascii "x") x n) = .repeated x n := by
    rw [standard, List.foldl_cons, apply_of_none rfl, List.foldl_cons, apply_of_none rfl,
      List.foldl_cons, apply_of_none rfl, List.foldl_cons, apply_of_none hbind]
    rfl
  rw [normalizeWithin_succ k (by simp), mapChildren_group]
  refine (settle_succ_of_ne hfirst (by simp)).trans ?_
  rw [Settled.mapChildren hchildren]
  exact settle_of_round hsecond h.declined hchildren

theorem part_of_printable {t : Expr} : t.Printable → Part bare t := by
  induction t using Expr.induct with
  | hole | regexMatch | group => exact fun h => h.elim
  | literal | value | field =>
    exact fun h => ⟨h, (standsBare_atom rfl h).readsBack rfl h, standsBare_atom rfl h⟩
  | element =>
    exact fun h => ⟨h, (standsBare_element h).readsBack rfl h, standsBare_element h⟩
  | unary op x ih => exact fun h => ⟨h, readsBack_unary (ih h.2) h, nofun⟩
  | binary op l r ihl ihr =>
    intro h
    have hparts := h
    rw [Printable] at hparts
    obtain ⟨-, -, hl, hr⟩ := hparts
    exact ⟨h, readsBack_binary (ihl hl) (ihr hr) h, nofun⟩
  | conditional c y n ihc ihy ihn =>
    intro h
    obtain ⟨-, hc, hy, hn⟩ := id h
    exact ⟨h, readsBack_conditional (ihc hc) (ihy hy) (ihn hn) h, nofun⟩
  | repeated x n ihx ihn =>
    exact fun h => ⟨h, readsBack_repeated (ihx h.1) (ihn h.2) h, nofun⟩
  | call name args ih =>
    intro h
    have hcall : StandsBare bare (.call name args) :=
      standsBare_call fun a ha => ih a ha (allPrintable_iff.1 h a ha)
    exact ⟨h, hcall.readsBack rfl h, hcall⟩

/-- The normal form of a printed expression is the expression. -/
theorem normalize_print {bare : Expr → Bool} {t : Expr} (ht : t.Printable)
    (hd : (print bare t).depth ≤ maxDepth) :
    normalize standard (ofTokenTree (print bare t)) = t := by
  have hpart : Part bare t := part_of_printable ht
  have hdepth : depthAll (tokens bare t) ≤ 511 := by
    have hmax : max (depthAll (tokens bare t) + 1) 0 ≤ 512 := hd
    omega
  have hstatement : itemsWithin 512 [.statement (tokens bare t)] = [t] :=
    congrArg (fun e => [e]) (hpart.readsBack 511 _ rfl hdepth)
  have hlayout : Layout [t] (itemsWithin 512 [.statement (tokens bare t)]) := by
    rw [hstatement]
    exact .operand (.self ht.isResolved) (by intro e he; cases he) .nil
  exact normalizeWithin_wrapper rfl hlayout (foldl_operand rfl ht.isResolved.isHole) ht

/-- Printing `join(',', -$val[1] x 2, $val ? $val[0] / 2 : 0)`. -/
theorem normalize_print_join :
    let t := Expr.call (ascii "join") [.string (ascii ","),
      .repeated (.unary (ascii "-") (.element 1)) (.integer 2),
      .conditional .value (.binary (ascii "/") (.element 0) (.integer 2)) (.integer 0)]
    t.Printable ∧ (print isCompact t).depth ≤ maxDepth ∧
      normalize standard (ofTokenTree (print isCompact t)) = t := by
  intro t
  have hinteger : ∀ i : Int64, 0 ≤ i → (integer i).Printable := fun _ h => h
  have helement : ∀ i : Int64, 0 ≤ i → (element i).Printable := fun _ h => h
  have hdivision : (Expr.conditional .value (.binary (ascii "/") (.element 0) (.integer 2))
      (.integer 0)).Printable := by
    refine ⟨?_, trivial, ?_, hinteger 0 (by decide)⟩
    · rintro ⟨m, d, heq, -, hsame⟩
      cases heq
      cases hsame
    · rw [Printable]
      exact ⟨⟨⟨ascii "/", 150, false⟩, by decide, rfl⟩, by decide, helement 0 (by decide),
        hinteger 2 (by decide)⟩
  have ht : t.Printable :=
    ⟨trivial, ⟨⟨by decide, helement 1 (by decide)⟩, hinteger 2 (by decide)⟩, hdivision, trivial⟩
  have hd : (print isCompact t).depth ≤ maxDepth := by decide
  exact ⟨ht, hd, normalize_print ht hd⟩

end Rule
end TagFormula

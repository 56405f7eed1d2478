import TagFormula.Proofs.Printing
import TagFormula.Proofs.Runs

/-!
Formulas without brackets and calls: a sequence of operands and operators. Main statement: its normal
form is canonical exactly if the grammar derives the sequence, and then it is what the grammar derives.
-/

namespace TagFormula

/-- A token that is an operand by itself or a plain operator, and the item it becomes. -/
inductive TokenTree.Item : TokenTree → Expr → Prop
  | number {t : Token} {parts : List TokenTree} (hk : t.kind = .number) (h : t.content.IsDecimal) :
      Item (.node t parts) (.literal (.ofDecimal t.content))
  | quote {t : Token} {parts : List TokenTree} {body : Text} (hk : t.kind = .quote)
      (h : t.content = ch '\'' :: body ++ [ch '\'']) :
      Item (.node t parts) (.string (Quoted.decodeSingle body))
  | value {t : Token} {parts : List TokenTree} (hk : t.kind = .symbol) (h : t.content = ascii "$val") :
      Item (.node t parts) .value
  | operator {t : Token} (hk : t.kind = .operator) : Item (.node t []) (.group t [])

/-- A `?` occurs beside no operator that binds less tightly than a conditional. -/
def Expr.Unmixed (items : List Expr) : Prop :=
  ∀ q ∈ items, q.isSymbol "?" → ∀ o ∈ items, ∀ symbol ∈ o.operatorSymbol?,
    ∀ p ∈ Operator.precedence? symbol, Operator.conditionalPrecedence ≤ p

/-- How deep conditionals are nested in the branches of others. -/
def Expr.nesting : Expr → Nat
  | .conditional _ y n => max (nesting y) (nesting n) + 1
  | _ => 0

namespace Rule

/-- The rules for sequences without brackets and calls. -/
def flat : List Rule := [leaf, operation, conditional, collapse]

end Rule

/-! ### Plain items -/

namespace Expr

/-- An operand in canonical form or an operator token. -/
def IsPlain (e : Expr) : Prop := e.isCanonical ∨ ∃ t : Token, t.kind = .operator ∧ e = .group t []

theorem isOperand_of_isCanonical {e : Expr} (h : e.isCanonical) : e.isOperand := by
  cases e <;> simp_all [isCanonical, isOperand]

theorem IsPlain.isCanonical_of_isOperand {e : Expr} (h : e.IsPlain) (ho : e.isOperand) :
    e.isCanonical := by
  rcases h with h | ⟨t, hk, rfl⟩
  · exact h
  · simp [isOperand, hk] at ho

theorem IsPlain.isHole {e : Expr} (h : e.IsPlain) : e.isHole = false := by
  rcases h with h | ⟨t, -, rfl⟩
  · cases e <;> first | rfl | cases h
  · rfl

end Expr

namespace Rule

/-- The rules for flat sequences apply to groups only. -/
theorem flat_declined_of_token? {e : Expr} (h : e.token? = none) : Declined flat e := by
  intro rule hrule
  simp only [flat, List.mem_cons, List.not_mem_nil, or_false] at hrule
  rcases hrule with rfl | rfl | rfl | rfl <;> cases e <;> first | rfl | cases h

theorem flat_settled_of_isCanonical {e : Expr} : e.isCanonical → Settled flat e := by
  induction e using Expr.induct with
  | hole => exact fun _ => .hole
  | literal | value | element | field =>
    exact fun _ => .node (flat_declined_of_token? rfl) (by intro c hc; cases hc)
  | binary op l r ihl ihr =>
    intro h
    simp only [Expr.isCanonical, Bool.and_eq_true] at h
    exact .node (flat_declined_of_token? rfl) (by simp [Expr.children, ihl h.1, ihr h.2])
  | unary op x ih =>
    intro h
    exact .node (flat_declined_of_token? rfl) (by simpa [Expr.children] using ih h)
  | conditional c y n ihc ihy ihn =>
    intro h
    simp only [Expr.isCanonical, Bool.and_eq_true] at h
    exact .node (flat_declined_of_token? rfl)
      (by simp [Expr.children, ihc h.1.1, ihy h.1.2, ihn h.2])
  | call name args ih =>
    intro h
    exact .node (flat_declined_of_token? rfl) fun a ha => ih a ha (Expr.allCanonical_iff.1 h a ha)
  | repeated x n ihx ihn =>
    intro h
    simp only [Expr.isCanonical, Bool.and_eq_true] at h
    exact .node (flat_declined_of_token? rfl) (by simp [Expr.children, ihx h.1, ihn h.2])
  | regexMatch s p fl neg ih =>
    intro h
    refine .node (flat_declined_of_token? rfl) ?_
    cases s <;> simp_all [Expr.children, Expr.isCanonical]
  | group => exact fun h => by cases h

theorem flat_settled_of_isPlain {e : Expr} (h : e.IsPlain) : Settled flat e := by
  rcases h with h | ⟨t, hk, rfl⟩
  · exact flat_settled_of_isCanonical h
  · refine .node ?_ (by intro c hc; cases hc)
    intro rule hrule
    simp only [flat, List.mem_cons, List.not_mem_nil, or_false] at hrule
    rcases hrule with rfl | rfl | rfl | rfl
    · simp [leaf, Leaf.reduce?, hk, replaceItems?]
    all_goals rfl

/-- Plain items hold no reference. -/
theorem replaceAll_reference?_of_isPlain {items : List Expr} (h : ∀ e ∈ items, e.IsPlain) :
    replaceAll Leaf.reference? items = items := by
  induction items with
  | nil => rfl
  | cons e rest ih =>
    have hrest := ih fun c hc => h c (List.mem_cons_of_mem _ hc)
    have hnone : Leaf.reference? e rest = none := by
      cases rest with
      | nil => rfl
      | cons next after =>
        have hindex : Leaf.index? next = none := by
          rcases h next (by simp) with hn | ⟨t, -, rfl⟩
          · cases next <;> first | rfl | cases hn
          · rfl
        rcases h e (List.mem_cons_self ..) with he | ⟨t, hk, rfl⟩
        · have htoken : e.token? = none := by cases e <;> first | rfl | cases he
          simp [Leaf.reference?, Leaf.isToken, htoken, hindex]
        · simp [Leaf.reference?, Leaf.isToken, Leaf.isValue, Expr.token?, hk]
    rw [replaceAll_of_none hnone, hrest]

theorem flat_declined_of_isPlain {e : Expr} (h : e.IsPlain) : Declined flat e := by
  cases flat_settled_of_isPlain h with
  | hole => exact flat_declined_of_token? rfl
  | node hd _ => exact hd

theorem settle_of_isPlain {e : Expr} (h : e.IsPlain) (k n : Nat) :
    settle (normalizeWithin flat k) flat n (e.mapChildren (normalizeWithin flat k)) = e := by
  have hchildren : e.mapChildren (normalizeWithin flat k) = e := by
    cases flat_settled_of_isPlain h with
    | hole => rfl
    | node _ hc => exact Settled.mapChildren hc k
  rw [hchildren, settle_of_declined (flat_declined_of_isPlain h)]

end Rule

/-! ### Signs of conditionals -/

namespace Expr

theorem isBarrier_of_isSymbol {q : Expr} (h : q.isSymbol "?" ∨ q.isSymbol ":") : q.isBarrier := by
  rcases h with h | h <;> simp [isBarrier, h]

theorem mixesConditional_of_subset {xs ys : List Expr} (h : mixesConditional ys = false)
    (hsub : ∀ x ∈ xs, x ∈ ys) : mixesConditional xs = false := by
  simp only [mixesConditional, Bool.and_eq_false_iff, List.any_eq_false] at h ⊢
  rcases h with h | h
  · exact Or.inl fun x hx => h x (hsub x hx)
  · exact Or.inr fun x hx => h x (hsub x hx)

end Expr

/-! ### One round over a resolved sequence -/

/-- Plain items whose runs are resolved where they can be. -/
structure Stable (xs : List Expr) : Prop where
  plain : ∀ x ∈ xs, x.IsPlain
  unmixed : Expr.mixesConditional xs = false
  resolved : Operation.resolveRuns xs = xs

theorem Stable.parts {front back : List Expr} {b : Expr} (h : Stable (front ++ b :: back))
    (hb : b.isBarrier) : Stable front ∧ Stable back := by
  obtain ⟨hfront, hback⟩ := Operation.resolveRuns_parts hb h.resolved
  refine ⟨⟨fun x hx => h.plain x (by simp [hx]), ?_, hfront⟩,
    ⟨fun x hx => h.plain x (by simp [hx]), ?_, hback⟩⟩
  · exact Expr.mixesConditional_of_subset h.unmixed fun x hx => by simp [hx]
  · exact Expr.mixesConditional_of_subset h.unmixed fun x hx => by simp [hx]

namespace Rule

theorem foldl_flat_of_isPlain {t : Token} (ht : t.kind.isWrapper) {items : List Expr}
    (hplain : ∀ e ∈ items, e.IsPlain) (hunmixed : Expr.mixesConditional items = false) :
    flat.foldl apply (.group t items)
      = [conditional, collapse].foldl apply (.group t (Operation.resolveRuns items)) := by
  rw [flat, List.foldl_cons, apply_leaf_group (TokenKind.isContainer_of_isWrapper ht),
    replaceAll_reference?_of_isPlain hplain, List.foldl_cons, apply_operation_group, hunmixed]
  rfl

/-- A wrapper with one plain item becomes that item. -/
theorem foldl_flat_single {t : Token} (ht : t.kind.isWrapper) {x : Expr} (hx : x.isHole = false) :
    [conditional, collapse].foldl apply (.group t [x]) = x := by
  rw [List.foldl_cons, apply_of_none (conditional_single t x), List.foldl_cons,
    apply_of_some (collapse_single ht hx), List.foldl_nil]

/-- The parts of a conditional are taken apart. -/
theorem foldl_flat_conditional {t : Token} (ht : t.kind.isWrapper) {xs test yes no : List Expr}
    (hcomma : xs.any Expr.isComma = false) (hunmixed : Expr.mixesConditional xs = false)
    (hparts : Conditional.parts? xs = some (test, yes, no)) :
    [conditional, collapse].foldl apply (.group t xs) = .conditional (Expr.collapseOrWrap test)
      (Expr.collapseOrWrap yes) (Expr.collapseOrWrap no) := by
  have hsome : conditional.reduce? (.group t xs) = some (.group t [.conditional
      (Expr.collapseOrWrap test) (Expr.collapseOrWrap yes) (Expr.collapseOrWrap no)]) := by
    simp [conditional, Conditional.reduce?, hcomma, hunmixed, hparts]
  rw [List.foldl_cons, apply_of_some hsome, List.foldl_cons, apply_of_some (collapse_single ht rfl),
    List.foldl_nil]

/-- A sequence is taken apart as a conditional, is a single item, or stays. -/
theorem foldl_flat_cases {t : Token} (ht : t.kind.isWrapper) {xs : List Expr} (h : Stable xs) :
    (∃ test yes no q k, q.isSymbol "?" ∧ k.isSymbol ":" ∧ xs = test ++ q :: (yes ++ k :: no) ∧
      (∀ e ∈ test, e.isSymbol "?" = false) ∧
      flat.foldl apply (.group t xs) = .conditional (Expr.collapseOrWrap test)
        (Expr.collapseOrWrap yes) (Expr.collapseOrWrap no)) ∨
    (∃ x, xs = [x] ∧ flat.foldl apply (.group t xs) = x) ∨
    flat.foldl apply (.group t xs) = .group t xs := by
  rw [foldl_flat_of_isPlain ht h.plain h.unmixed, h.resolved]
  cases hcond : conditional.reduce? (.group t xs) with
  | some next =>
    simp only [conditional, Conditional.reduce?, h.unmixed, Bool.or_false] at hcond
    split at hcond
    · cases hcond
    · rename_i hcomma
      obtain ⟨⟨test, yes, no⟩, hparts, -⟩ := Option.map_eq_some_iff.1 hcond
      obtain ⟨q, k, hq, hk, hxs, htest, -⟩ := Conditional.parts?_eq_some hparts
      rw [Bool.not_eq_true] at hcomma
      exact Or.inl ⟨test, yes, no, q, k, hq, hk, hxs, htest,
        foldl_flat_conditional ht hcomma h.unmixed hparts⟩
  | none =>
    right
    rcases xs with - | ⟨x, - | ⟨y, rest⟩⟩
    · rw [List.foldl_cons, apply_of_none hcond]
      exact Or.inr rfl
    · have hx := (h.plain x (List.mem_singleton_self x)).isHole
      exact Or.inl ⟨x, rfl, foldl_flat_single ht hx⟩
    · rw [List.foldl_cons, apply_of_none hcond]
      exact Or.inr rfl

end Rule

/-! ### Every normal form reads the sequence -/

/-- What a sequence may be on the way to its normal form: a wrapper that holds it, its only item, or a
conditional whose parts are so for the items around the signs. -/
inductive Reading : List Expr → Expr → Prop
  | group {t : Token} {xs : List Expr} (ht : t.kind.isWrapper) : Reading xs (.group t xs)
  | item (x : Expr) : Reading [x] x
  | conditional {test yes no : List Expr} {q k c y n : Expr} (hq : q.isSymbol "?")
      (hk : k.isSymbol ":") (htest : ∀ e ∈ test, e.isSymbol "?" = false) (hc : Reading test c)
      (hy : Reading yes y) (hn : Reading no n) :
      Reading (test ++ q :: (yes ++ k :: no)) (.conditional c y n)

theorem Reading.isHole {xs : List Expr} {e : Expr} (h : Reading xs e)
    (hplain : ∀ x ∈ xs, x.IsPlain) : e.isHole = false := by
  cases h with
  | item => exact (hplain e (List.mem_singleton_self e)).isHole
  | _ => rfl

theorem reading_collapseOrWrap (xs : List Expr) : Reading xs (Expr.collapseOrWrap xs) := by
  rcases xs with - | ⟨x, - | ⟨y, rest⟩⟩
  · exact .group rfl
  · exact .item x
  · exact .group rfl

namespace Rule

theorem mapChildren_of_isPlain {t : Token} {items : List Expr} (h : ∀ e ∈ items, e.IsPlain) (k : Nat) :
    (Expr.group t items).mapChildren (normalizeWithin flat k) = .group t items :=
  Settled.mapChildren (e := .group t items) (fun c hc => flat_settled_of_isPlain (h c hc)) k

/-- Rounds at a node keep the sequence that it reads, if the parts do. -/
theorem reading_settle {k : Nat} (ih : ∀ {xs : List Expr} {e : Expr}, Stable xs → Reading xs e →
      Reading xs (normalizeWithin flat k e)) (n : Nat) {xs : List Expr} {e : Expr} (hxs : Stable xs)
    (h : Reading xs e) : Reading xs
      (settle (normalizeWithin flat k) flat n (e.mapChildren (normalizeWithin flat k))) := by
  have hconditional : ∀ {test yes no : List Expr} {q m c y l : Expr} (n : Nat),
      Stable (test ++ q :: (yes ++ m :: no)) → q.isSymbol "?" → m.isSymbol ":" →
      (∀ e ∈ test, e.isSymbol "?" = false) → Reading test c → Reading yes y → Reading no l →
      Reading (test ++ q :: (yes ++ m :: no)) (settle (normalizeWithin flat k) flat n
        ((Expr.conditional c y l).mapChildren (normalizeWithin flat k))) := by
    intro test yes no q m c y l n hxs hq hm htest hc hy hl
    obtain ⟨htests, hbranches⟩ := hxs.parts (Expr.isBarrier_of_isSymbol (Or.inl hq))
    obtain ⟨hyes, hno⟩ := hbranches.parts (Expr.isBarrier_of_isSymbol (Or.inr hm))
    rw [settle_of_declined (flat_declined_of_token? rfl)]
    exact .conditional hq hm htest (ih htests hc) (ih hyes hy) (ih hno hl)
  cases h with
  | item =>
    rw [settle_of_isPlain (hxs.plain e (List.mem_singleton_self e))]
    exact .item e
  | conditional hq hm htest hc hy hl => exact hconditional n hxs hq hm htest hc hy hl
  | @group t xs ht =>
    have hchildren := mapChildren_of_isPlain (t := t) hxs.plain k
    rw [hchildren]
    rcases foldl_flat_cases ht hxs with ⟨test, yes, no, q, m, hq, hm, rfl, htest, hround⟩ |
      ⟨x, rfl, hround⟩ | hround
    · cases n with
      | zero => exact .group ht
      | succ n =>
        rw [settle_succ hchildren, hround]
        exact hconditional n hxs hq hm htest (reading_collapseOrWrap test)
          (reading_collapseOrWrap yes) (reading_collapseOrWrap no)
    · have hx := hxs.plain x (List.mem_singleton_self x)
      cases n with
      | zero => exact .group ht
      | succ n =>
        rw [settle_succ hchildren, hround, settle_of_isPlain hx]
        exact .item x
    · rw [settle_of_foldl_eq_self hround hchildren]
      exact .group ht

theorem reading_normalizeWithin : ∀ (k : Nat) {xs : List Expr} {e : Expr}, Stable xs → Reading xs e →
    Reading xs (normalizeWithin flat k e)
  | 0, _, _, _, h => h
  | k + 1, _, e, hxs, h => by
    by_cases he : e = .hole
    · rw [he, normalizeWithin_hole, ← he]
      exact h
    · rw [normalizeWithin_succ k he]
      exact reading_settle (reading_normalizeWithin k) maxRounds hxs h

end Rule

/-! ### Runs hold no barrier -/

theorem Expr.isBarrier_of_isSign {p : Expr} {symbol : Text} (h : p.IsSign symbol) :
    p.isBarrier = false := by
  obtain ⟨t, parts, rfl, hk, rfl, hp⟩ := h
  have hall : ∀ s ∈ ["-", "!", "~", "+"].map ascii, Rule.isGrouping s = false := by decide
  obtain ⟨s, hs, heq⟩ := List.any_eq_true.1 hp
  refine Rule.isBarrier_operator hk (hall _ ?_) parts
  rw [← eq_of_beq heq]
  exact List.mem_map_of_mem hs

theorem Expr.isBarrier_of_isInfix {o : Expr} {op : Operator} (h : o.IsInfix op) :
    o.isBarrier = false := by
  obtain ⟨t, parts, rfl, hk, hfind⟩ := h
  have hsymbol : op.symbol = t.content := by simpa using List.find?_some hfind
  refine Rule.isBarrier_operator hk ?_ parts
  rw [← hsymbol]
  exact (Rule.find?_symbol op (List.mem_of_find?_eq_some hfind)).2

theorem Collapses.isBarrier {items run : List Expr} (h : Collapses items run) :
    ∀ e ∈ items, e.isBarrier = false := by
  induction h with
  | last hx => simpa using Expr.isBarrier_of_isOperand hx
  | operator hx ho _ ih =>
    simpa using ⟨Expr.isBarrier_of_isOperand hx, Expr.isBarrier_of_isInfix ho, ih⟩
  | sign hp _ _ ih => simpa using ⟨Expr.isBarrier_of_isSign hp, ih⟩

/-- The items of an operation are replaced by it. -/
theorem OperationOf.resolveRuns {items : List Expr} {e : Expr} (h : OperationOf items e) :
    Operation.resolveRuns items = [e] := by
  obtain ⟨run, t, hsigned, -⟩ := id h
  have hcollapses := collapses_iff_signedRun.2 hsigned
  rw [Operation.resolveRuns_run hcollapses.isBarrier]
  rcases items with - | ⟨x, - | ⟨y, rest⟩⟩
  · exact absurd rfl hcollapses.ne_nil
  · rw [(operationOf_single.1 h).2]
    rfl
  · rw [Operation.resolved, Operation.resolve?_eq_some_iff.2 ⟨by simp, h⟩]

theorem operationOf_of_resolveRuns {items : List Expr} {x : Expr} (hx : x.isOperand)
    (h : Operation.resolveRuns items = [x]) : OperationOf items x := by
  induction items using Operation.runInduction with
  | run run hrun =>
    rw [Operation.resolveRuns_run hrun] at h
    rcases Operation.resolved_cases run with ⟨e, -, hop, heq⟩ | ⟨-, heq⟩
    · rw [heq] at h
      cases h
      exact hop
    · rw [heq] at h
      rw [h]
      exact operationOf_single.2 ⟨hx, rfl⟩
  | barrier run b rest hrun hb =>
    rw [Operation.resolveRuns_run_append hrun hb] at h
    have hmem : b ∈ [x] := by rw [← h]; simp
    rw [List.mem_singleton.1 hmem, Expr.isBarrier_of_isOperand hx] at hb
    cases hb

/-! ### Soundness -/

theorem Derives.operationOf {items : List Expr} {e : Expr} (h : Derives items e)
    (hmark : ∀ x ∈ Operation.resolveRuns items, x.isSymbol "?" = false) : OperationOf items e := by
  cases h with
  | run h => exact h
  | @conditional test _ _ q _ _ _ _ _ hq =>
    rw [Operation.resolveRuns_append (Expr.isBarrier_of_isSymbol (Or.inl hq))] at hmark
    rw [hmark q (by simp)] at hq
    cases hq

/-- A canonical reading of the resolved items is derived from the items. -/
theorem derives_of_reading {xs : List Expr} {e : Expr} (h : Reading xs e) :
    ∀ {items : List Expr}, Operation.resolveRuns items = xs → e.isCanonical → Derives items e := by
  induction h with
  | group => exact fun _ he => by cases he
  | item x =>
    intro items hitems he
    exact .run (operationOf_of_resolveRuns (Expr.isOperand_of_isCanonical he) hitems)
  | @conditional test yes no q k c y n hq hk htest _ _ _ ihc ihy ihn =>
    intro items hitems he
    simp only [Expr.isCanonical, Bool.and_eq_true] at he
    obtain ⟨i, rest, rfl, hi, hrest⟩ :=
      Operation.exists_of_resolveRuns_eq_append (Expr.isBarrier_of_isSymbol (Or.inl hq)) hitems
    obtain ⟨j, l, rfl, hj, hl⟩ :=
      Operation.exists_of_resolveRuns_eq_append (Expr.isBarrier_of_isSymbol (Or.inr hk)) hrest
    refine .conditional ((ihc hi he.1.1).operationOf ?_) hq (ihy hj he.1.2) hk (ihn hl he.2)
    rw [hi]
    exact htest

/-! ### Operations of plain items -/

theorem Collapses.isPlain {items run : List Expr} (h : Collapses items run)
    (hplain : ∀ e ∈ items, e.IsPlain) : ∀ e ∈ run, e.IsPlain := by
  induction h with
  | last => exact hplain
  | operator hx ho _ ih =>
    have hrest := ih fun e he => hplain e (by simp [he])
    intro e he
    simp only [List.mem_cons] at he
    rcases he with rfl | rfl | he
    · exact hplain e (by simp)
    · exact hplain e (by simp)
    · exact hrest e he
  | @sign p x symbol rest run hp h hpower ih =>
    have hrest := ih fun e he => hplain e (by simp [he])
    intro e he
    rcases List.mem_cons.1 he with rfl | he
    · have hx : x.isOperand := by
        cases h.isRun with
        | single hx => exact hx
        | cons hx => exact hx
      exact Or.inl ((hrest x (by simp)).isCanonical_of_isOperand hx)
    · exact hrest e (by simp [he])

theorem OperatorTree.Spells.isCanonical {t : OperatorTree} {items : List Expr} (h : t.Spells items)
    (hplain : ∀ e ∈ items, e.IsPlain) : t.toExpr.isCanonical := by
  induction h with
  | @leaf x hx => exact (hplain x (by simp)).isCanonical_of_isOperand hx
  | node _ _ _ ihl ihr =>
    rw [toExpr, Expr.isCanonical, ihl fun e he => hplain e (by simp [he]),
      ihr fun e he => hplain e (by simp [he])]
    rfl

theorem OperationOf.isCanonical {items : List Expr} {e : Expr} (h : OperationOf items e)
    (hplain : ∀ e ∈ items, e.IsPlain) : e.isCanonical := by
  obtain ⟨run, t, hsigned, hspells, -, rfl⟩ := h
  exact hspells.isCanonical ((collapses_iff_signedRun.2 hsigned).isPlain hplain)

theorem Derives.isCanonical {items : List Expr} {e : Expr} (h : Derives items e)
    (hplain : ∀ e ∈ items, e.IsPlain) : e.isCanonical := by
  induction h with
  | run h => exact h.isCanonical hplain
  | conditional hc _ _ _ _ ihy ihn =>
    rw [Expr.isCanonical, hc.isCanonical fun e he => hplain e (by simp [he]),
      ihy fun e he => hplain e (by simp [he]), ihn fun e he => hplain e (by simp [he])]
    rfl

theorem Collapses.nesting {items run : List Expr} (h : Collapses items run)
    (hitems : ∀ e ∈ items, e.nesting = 0) : ∀ e ∈ run, e.nesting = 0 := by
  induction h with
  | last => exact hitems
  | operator _ _ _ ih => simp_all
  | sign _ _ _ ih => simp_all [Expr.nesting]

/-- Conditionals are not nested deeper than a sequence is long. -/
theorem Derives.nesting_le_length {items : List Expr} {e : Expr} (h : Derives items e)
    (hitems : ∀ x ∈ items, x.nesting = 0) : e.nesting ≤ items.length := by
  induction h with
  | run h =>
    obtain ⟨run, t, hsigned, hspells, -, rfl⟩ := h
    have hrun := (collapses_iff_signedRun.2 hsigned).nesting hitems
    cases hspells with
    | @leaf x _ =>
      rw [OperatorTree.toExpr, hrun x (by simp)]
      exact Nat.zero_le _
    | node => exact Nat.zero_le _
  | conditional _ _ _ _ _ ihy ihn =>
    have hyes := ihy fun x hx => hitems x (by simp [hx])
    have hno := ihn fun x hx => hitems x (by simp [hx])
    simp only [Expr.nesting, List.length_append, List.length_cons]
    omega

/-- Resolving the runs of plain items gives a resolved sequence. -/
theorem stable_resolveRuns {items : List Expr} (hplain : ∀ e ∈ items, e.IsPlain)
    (hunmixed : Expr.mixesConditional items = false) : Stable (Operation.resolveRuns items) where
  plain x hx := by
    rcases Operation.mem_resolveRuns hx with hx | ⟨run, hsub, hop⟩
    · exact hplain x hx
    · exact Or.inl (hop.isCanonical fun e he => hplain e (hsub e he))
  unmixed := by
    simp only [Expr.mixesConditional, Bool.and_eq_false_iff, List.any_eq_false] at hunmixed ⊢
    rcases hunmixed with h | h
    · refine Or.inl fun x hx => ?_
      rcases Operation.mem_resolveRuns hx with hx | ⟨run, -, hop⟩
      · exact h x hx
      · simp [Expr.isSymbol_of_isOperand (isOperand_of_operationOf hop)]
    · refine Or.inr fun x hx => ?_
      rcases Operation.mem_resolveRuns hx with hx | ⟨run, -, hop⟩
      · exact h x hx
      · simp [Expr.bindsBelowConditional,
          Expr.operatorSymbol?_of_isOperand (isOperand_of_operationOf hop)]
  resolved := Operation.resolveRuns_resolveRuns items

/-! ### Completeness -/

namespace Conditional

theorem splitAtColon?_question {q : Expr} (hq : q.isSymbol "?") (depth : Nat) (rest : List Expr) :
    splitAtColon? depth (q :: rest)
      = (splitAtColon? (depth + 1) rest).map fun (before, after) => (q :: before, after) := by
  rw [splitAtColon?.eq_def]
  simp [hq]

theorem isSymbol_question_of_colon {k : Expr} (hk : k.isSymbol ":") : k.isSymbol "?" = false := by
  cases k with
  | group t parts =>
    simp only [Expr.isSymbol, Expr.token?, Option.any_some, Bool.and_eq_true, beq_iff_eq] at hk ⊢
    rw [hk.2, Bool.and_eq_false_iff]
    exact Or.inr (by decide)
  | _ => rfl

theorem splitAtColon?_colon {k : Expr} (hk : k.isSymbol ":") (rest : List Expr) :
    splitAtColon? 0 (k :: rest) = some ([], rest) := by
  rw [splitAtColon?.eq_def]
  simp [isSymbol_question_of_colon hk, hk]

theorem splitAtColon?_inner_colon {k : Expr} (hk : k.isSymbol ":") (depth : Nat)
    (rest : List Expr) : splitAtColon? (depth + 1) (k :: rest)
      = (splitAtColon? depth rest).map fun (before, after) => (k :: before, after) := by
  rw [splitAtColon?.eq_def]
  simp [isSymbol_question_of_colon hk, hk]

theorem splitAtColon?_operand {x : Expr} (hx : x.isOperand) (depth : Nat) (rest : List Expr) :
    splitAtColon? depth (x :: rest)
      = (splitAtColon? depth rest).map fun (before, after) => (x :: before, after) := by
  rw [splitAtColon?.eq_def]
  simp [Expr.isSymbol_of_isOperand hx]

end Conditional

/-- The resolved items of a conditional. -/
theorem resolveRuns_conditional {test yes no : List Expr} {q k c : Expr} (hc : OperationOf test c)
    (hq : q.isSymbol "?") (hk : k.isSymbol ":") :
    Operation.resolveRuns (test ++ q :: (yes ++ k :: no))
      = c :: q :: (Operation.resolveRuns yes ++ k :: Operation.resolveRuns no) := by
  rw [Operation.resolveRuns_append (Expr.isBarrier_of_isSymbol (Or.inl hq)),
    Operation.resolveRuns_append (Expr.isBarrier_of_isSymbol (Or.inr hk)), hc.resolveRuns]
  rfl

/-- The `:` behind a derived sequence does not belong to a `?` in it. -/
theorem Derives.splitAtColon? {items : List Expr} {e : Expr} (h : Derives items e) (depth : Nat)
    (rest : List Expr) :
    Conditional.splitAtColon? depth (Operation.resolveRuns items ++ rest)
      = (Conditional.splitAtColon? depth rest).map fun (before, after) =>
          (Operation.resolveRuns items ++ before, after) := by
  induction h generalizing depth rest with
  | run h =>
    rw [h.resolveRuns]
    exact Conditional.splitAtColon?_operand (isOperand_of_operationOf h) depth rest
  | @conditional test yes no q k c y n hc hq hy hk hn ihy ihn =>
    rw [resolveRuns_conditional hc hq hk, List.cons_append, List.cons_append, List.append_assoc,
      List.cons_append, Conditional.splitAtColon?_operand (isOperand_of_operationOf hc),
      Conditional.splitAtColon?_question hq, ihy, Conditional.splitAtColon?_inner_colon hk, ihn]
    simp only [Option.map_map]
    congr 1
    funext ⟨before, after⟩
    simp

theorem Derives.resolveRuns_ne_nil {items : List Expr} {e : Expr} (h : Derives items e) :
    Operation.resolveRuns items ≠ [] := by
  cases h with
  | run h => simp [h.resolveRuns]
  | conditional hc hq _ hk => simp [resolveRuns_conditional hc hq hk]

/-- The parts of a derived conditional are found. -/
theorem parts?_conditional {c q k : Expr} {yes no : List Expr} {y n : Expr} (hc : c.isOperand)
    (hq : q.isSymbol "?") (hk : k.isSymbol ":") (hy : Derives yes y) (hn : Derives no n) :
    Conditional.parts?
        (c :: q :: (Operation.resolveRuns yes ++ k :: Operation.resolveRuns no))
      = some ([c], Operation.resolveRuns yes, Operation.resolveRuns no) := by
  have hsplit : Conditional.splitAtColon? 0
      (Operation.resolveRuns yes ++ k :: Operation.resolveRuns no)
        = some (Operation.resolveRuns yes, Operation.resolveRuns no) := by
    rw [hy.splitAtColon?, Conditional.splitAtColon?_colon hk]
    simp
  simp [Conditional.parts?, Expr.isSymbol_of_isOperand hc, hq, hsplit, hy.resolveRuns_ne_nil,
    hn.resolveRuns_ne_nil]

/-- Beside a `?` a comma binds too loosely. -/
theorem Expr.any_isComma_of_unmixed {xs : List Expr} {q : Expr} (hmem : q ∈ xs) (hq : q.isSymbol "?")
    (h : mixesConditional xs = false) : xs.any isComma = false := by
  have hlow : ∀ x ∈ xs, x.bindsBelowConditional = false := by
    simp only [mixesConditional, Bool.and_eq_false_iff, List.any_eq_false, Bool.not_eq_true] at h
    rcases h with h | h
    · rw [h q hmem] at hq
      cases hq
    · exact h
  refine List.any_eq_false.2 fun x hx hcomma => ?_
  have := hlow x hx
  cases x with
  | group t parts =>
    simp only [isComma, isSymbol, token?, Option.any_some, Bool.or_eq_true, Bool.and_eq_true,
      decide_eq_true_eq, beq_iff_eq] at hcomma
    rcases hcomma with ⟨hk, hc⟩ | ⟨hk, hc⟩
    · rw [bindsBelowConditional, operatorSymbol?, if_pos hk, hc] at this
      exact absurd this (by decide)
    · rw [bindsBelowConditional, operatorSymbol?, if_pos hk, hc] at this
      exact absurd this (by decide)
  | _ => cases hcomma

namespace Rule

/-- The parts of a derived sequence, given what wrappers around it become. -/
theorem normalizeWithin_collapseOrWrap {items : List Expr} {e : Expr} (h : Derives items e)
    (hcanonical : e.isCanonical)
    (ih : ∀ (k : Nat) {t : Token}, t.kind.isWrapper → e.nesting ≤ k + 1 →
      normalizeWithin flat (k + 1) (.group t (Operation.resolveRuns items)) = e)
    (k : Nat) (hk : e.nesting ≤ k) :
    normalizeWithin flat k (Expr.collapseOrWrap (Operation.resolveRuns items)) = e := by
  cases h with
  | run h =>
    rw [h.resolveRuns]
    exact normalizeWithin_of_settled (flat_settled_of_isCanonical hcanonical) k
  | conditional hc hq hy hm hn =>
    rw [Expr.nesting] at hk
    obtain ⟨j, rfl⟩ := Nat.exists_eq_add_of_lt (Nat.lt_of_succ_le hk)
    rw [resolveRuns_conditional hc hq hm] at ih ⊢
    exact ih _ rfl hk

/-- The first round over a resolved sequence in a wrapper. -/
theorem normalizeWithin_stable {t : Token} (ht : t.kind.isWrapper) {xs : List Expr} (h : Stable xs)
    (k : Nat) : normalizeWithin flat (k + 1) (.group t xs)
      = settle (normalizeWithin flat k) flat 63
          (([conditional, collapse].foldl apply (.group t xs)).mapChildren (normalizeWithin flat k)) := by
  have hchildren := mapChildren_of_isPlain (t := t) h.plain k
  have hround := foldl_flat_of_isPlain ht h.plain h.unmixed
  rw [h.resolved] at hround
  rw [normalizeWithin_succ k (by simp), hchildren, ← hround]
  exact settle_succ hchildren 63

/-- A wrapper around a derived sequence becomes what is derived. -/
theorem normalizeWithin_of_derives {items : List Expr} {e : Expr} (h : Derives items e)
    (hplain : ∀ x ∈ items, x.IsPlain) (hunmixed : Expr.mixesConditional items = false) (k : Nat)
    {t : Token} (ht : t.kind.isWrapper) (hk : e.nesting ≤ k + 1) :
    normalizeWithin flat (k + 1) (.group t (Operation.resolveRuns items)) = e := by
  induction h generalizing k t with
  | @run items e h =>
    have he : e.IsPlain := Or.inl (h.isCanonical hplain)
    rw [normalizeWithin_stable ht (stable_resolveRuns hplain hunmixed), h.resolveRuns,
      foldl_flat_single ht he.isHole, settle_of_isPlain he]
  | @conditional test yes no q m c y n hc hq hy hm hn ihy ihn =>
    have hsub : ∀ part ⊆ test ++ q :: (yes ++ m :: no), (∀ x ∈ part, x.IsPlain) ∧
        Expr.mixesConditional part = false :=
      fun part hpart => ⟨fun x hx => hplain x (hpart hx),
        Expr.mixesConditional_of_subset hunmixed fun x hx => hpart hx⟩
    obtain ⟨hplainTest, -⟩ := hsub test (by simp)
    obtain ⟨hplainYes, hunmixedYes⟩ := hsub yes (by intro x hx; simp [hx])
    obtain ⟨hplainNo, hunmixedNo⟩ := hsub no (by intro x hx; simp [hx])
    have hnesting : max y.nesting n.nesting + 1 ≤ k + 1 := hk
    have hstable := stable_resolveRuns hplain hunmixed
    rw [resolveRuns_conditional hc hq hm] at hstable ⊢
    have hround := foldl_flat_conditional ht
      (Expr.any_isComma_of_unmixed (by simp) hq hstable.unmixed) hstable.unmixed
      (parts?_conditional (isOperand_of_operationOf hc) hq hm hy hn)
    have htest : normalizeWithin flat k c = c :=
      normalizeWithin_of_settled (flat_settled_of_isCanonical (hc.isCanonical hplainTest)) k
    have hyes := normalizeWithin_collapseOrWrap hy (hy.isCanonical hplainYes)
      (ihy hplainYes hunmixedYes) k (by omega)
    have hno := normalizeWithin_collapseOrWrap hn (hn.isCanonical hplainNo)
      (ihn hplainNo hunmixedNo) k (by omega)
    rw [normalizeWithin_stable ht hstable, hround, Expr.mapChildren, hyes, hno,
      settle_of_declined (flat_declined_of_token? rfl)]
    exact congrArg (Expr.conditional · y n) htest

/-! ### From tokens to items -/

theorem normalizeWithin_flat_leaf {t : Token} {x : Expr} (h : ∀ parts, leaf.reduce? (.group t parts) = some x)
    (hx : x.isCanonical) (k : Nat) (parts : List Expr) :
    normalizeWithin flat (k + 1) (.group t parts) = x := by
  have htoken : x.token? = none := by cases x <;> first | rfl | cases hx
  have hrest : Declined [operation, conditional, collapse] x :=
    fun rule hrule => flat_declined_of_token? htoken rule (List.mem_cons_of_mem _ hrule)
  have hround : ∀ parts, flat.foldl apply (.group t parts) = x := by
    intro parts
    rw [flat, List.foldl_cons, apply_of_some (h parts), foldl_apply_of_declined hrest]
  rw [normalizeWithin_succ k (by simp), Expr.mapChildren_group]
  cases flat_settled_of_isCanonical hx with
  | hole => cases hx
  | node hd hc => exact settle_of_round (hround _) hd hc

theorem normalizeWithin_item {c : TokenTree} {x : Expr} (h : c.Item x) (k : Nat) :
    normalizeWithin flat (k + 1) (Expr.ofTokenTree c) = x := by
  cases h with
  | number hk h =>
    refine normalizeWithin_flat_leaf (fun parts => ?_) rfl k _
    rw [leaf_number hk, Literal.ofNumberToken_of_isDecimal h]
    rfl
  | quote hk h => exact normalizeWithin_flat_leaf (leaf_single_quoted hk h) rfl k _
  | value hk h =>
    refine normalizeWithin_flat_leaf (fun parts => ?_) rfl k _
    rw [leaf_symbol hk, h, if_pos (beq_self_eq_true _)]
  | operator hk =>
    exact normalizeWithin_of_settled (flat_settled_of_isPlain (Or.inr ⟨_, hk, rfl⟩)) _

theorem isPlain_of_item {c : TokenTree} {x : Expr} (h : c.Item x) : x.IsPlain := by
  cases h with
  | operator hk => exact Or.inr ⟨_, hk, rfl⟩
  | _ => exact Or.inl rfl

theorem isIgnorable_of_item {c : TokenTree} {x : Expr} (h : c.Item x) : c.token.isIgnorable = false := by
  cases h <;> simp_all [TokenTree.token, Token.isIgnorable]

/-- The tokens of a sequence become its items. -/
theorem map_normalizeWithin_items {tokens : List TokenTree} {items : List Expr}
    (h : List.Forall₂ TokenTree.Item tokens items) (k : Nat) :
    (Expr.ofTokenTrees tokens).map (normalizeWithin flat (k + 1)) = items := by
  induction h with
  | nil => rfl
  | @cons c x tokens items hc _ ih =>
    rw [Expr.ofTokenTrees, isIgnorable_of_item hc, if_neg (by simp), List.map_cons,
      normalizeWithin_item hc, ih]

theorem isPlain_of_items {tokens : List TokenTree} {items : List Expr}
    (h : List.Forall₂ TokenTree.Item tokens items) : ∀ x ∈ items, x.IsPlain := by
  induction h with
  | nil => intro x hx; cases hx
  | cons hc _ ih => simpa using ⟨isPlain_of_item hc, ih⟩

end Rule

/-! ### Statements and documents -/

namespace Expr

theorem bindsBelowConditional_eq_false_iff {o : Expr} : o.bindsBelowConditional = false ↔
    ∀ symbol ∈ o.operatorSymbol?, ∀ p ∈ Operator.precedence? symbol,
      Operator.conditionalPrecedence ≤ p := by
  cases h : o.operatorSymbol? with
  | none => simp [bindsBelowConditional, h]
  | some symbol => cases hp : Operator.precedence? symbol <;> simp [bindsBelowConditional, h, hp]

theorem unmixed_iff {items : List Expr} : Unmixed items ↔ mixesConditional items = false := by
  simp only [Unmixed, ← bindsBelowConditional_eq_false_iff, mixesConditional, Bool.and_eq_false_iff,
    List.any_eq_false, Bool.not_eq_true]
  constructor
  · intro h
    by_cases hmark : ∃ q ∈ items, q.isSymbol "?"
    · obtain ⟨q, hmem, hq⟩ := hmark
      exact Or.inr (h q hmem hq)
    · exact Or.inl fun q hmem => by simpa using fun hq => hmark ⟨q, hmem, hq⟩
  · rintro (h | h) q hmem hq
    · rw [h q hmem] at hq
      cases hq
    · exact h

/-- The sign of a conditional does not bind less tightly than itself. -/
theorem mixesConditional_single (x : Expr) : mixesConditional [x] = false := by
  rw [← unmixed_iff]
  intro q hq hmark o ho symbol hsymbol p hp
  rw [List.mem_singleton.1 hq] at hmark
  rw [List.mem_singleton.1 ho] at hsymbol
  have hcontent : symbol = ascii "?" := by
    cases x <;> simp_all [isSymbol, token?, operatorSymbol?]
  have hprecedence : Operator.precedence? (ascii "?") = some Operator.conditionalPrecedence := by decide
  rw [hcontent, hprecedence] at hp
  exact Nat.le_of_eq (Option.some.inj hp)

end Expr

namespace Rule

/-- A wrapper with one part becomes that part. -/
theorem foldl_flat_wrapper {t : Token} (ht : t.kind.isWrapper) {x : Expr} (hx : x.isHole = false) :
    flat.foldl apply (.group t [x]) = x := by
  have hreference : replaceAll Leaf.reference? [x] = [x] := replaceAll_of_none rfl
  rw [flat, List.foldl_cons, apply_leaf_group (TokenKind.isContainer_of_isWrapper ht), hreference,
    List.foldl_cons, apply_operation_group, Expr.mixesConditional_single,
    Operation.resolveRuns_of_length_lt (by simp)]
  exact foldl_flat_single ht hx

theorem normalizeWithin_document {t : Token} (ht : t.kind.isWrapper) {e p : Expr} {k : Nat}
    (hp : normalizeWithin flat k e = p) (hole : p.isHole = false) :
    normalizeWithin flat (k + 1) (.group t [e])
      = settle (normalizeWithin flat k) flat 63 (p.mapChildren (normalizeWithin flat k)) := by
  have hne : p ≠ .group t [p] := by
    intro h
    have := congrArg sizeOf h
    simp at this
    omega
  rw [normalizeWithin_succ k (by simp), Expr.mapChildren_group, List.map_singleton, hp]
  exact settle_succ_of_ne (foldl_flat_wrapper ht hole) hne

/-- Items that mix a conditional with looser operators stay as they are. -/
theorem settle_of_mixesConditional {t : Token} (ht : t.kind.isWrapper) {items : List Expr}
    (hplain : ∀ x ∈ items, x.IsPlain) (h : Expr.mixesConditional items = true) (k n : Nat) :
    settle (normalizeWithin flat k) flat n (.group t items) = .group t items := by
  have hround : flat.foldl apply (.group t items) = .group t items := by
    have hconditional : conditional.reduce? (.group t items) = none := by
      simp [conditional, Conditional.reduce?, h]
    rw [flat, List.foldl_cons, apply_leaf_group (TokenKind.isContainer_of_isWrapper ht),
      replaceAll_reference?_of_isPlain hplain, List.foldl_cons, apply_operation_group, h, if_pos rfl,
      List.foldl_cons, apply_of_none hconditional]
    rcases items with - | ⟨x, - | ⟨y, rest⟩⟩
    · rfl
    · rw [Expr.mixesConditional_single] at h
      cases h
    · rfl
  exact settle_of_foldl_eq_self hround (mapChildren_of_isPlain hplain k) n

/-- A statement of plain items. -/
theorem normalizeWithin_statement {t : Token} (ht : t.kind.isWrapper) {tokens : List TokenTree}
    {items : List Expr} (h : List.Forall₂ TokenTree.Item tokens items) (k : Nat) :
    normalizeWithin flat (k + 2) (.group t (Expr.ofTokenTrees tokens))
      = if Expr.mixesConditional items then .group t items
        else normalizeWithin flat (k + 2) (.group t (Operation.resolveRuns items)) := by
  have hplain := isPlain_of_items h
  rw [normalizeWithin_succ _ (by simp), Expr.mapChildren_group, map_normalizeWithin_items h]
  cases hmixes : Expr.mixesConditional items with
  | true => rw [settle_of_mixesConditional ht hplain hmixes]; rfl
  | false =>
    rw [if_neg (by simp), normalizeWithin_stable ht (stable_resolveRuns hplain hmixes),
      ← foldl_flat_of_isPlain ht hplain hmixes]
    exact settle_succ (mapChildren_of_isPlain hplain _) 63

theorem ofTokenTree_document {d s : Token} (hs : s.kind = .statement) (tokens : List TokenTree) :
    Expr.ofTokenTree (.node d [.node s tokens]) = .group d [.group s (Expr.ofTokenTrees tokens)] := by
  simp [Expr.ofTokenTree, Expr.ofTokenTrees, TokenTree.token, Token.isIgnorable, hs]

/-- A canonical normal form is derived from the items. -/
theorem derives_of_isCanonical {d s : Token} (hd : d.kind = .document) (hs : s.kind = .statement)
    {tokens : List TokenTree} {items : List Expr} (h : List.Forall₂ TokenTree.Item tokens items)
    (hcanonical : (normalize flat (Expr.ofTokenTree (.node d [.node s tokens]))).isCanonical) :
    Expr.mixesConditional items = false ∧
      Derives items (normalize flat (Expr.ofTokenTree (.node d [.node s tokens]))) := by
  have hwrapper : s.kind.isWrapper ∧ d.kind.isWrapper := by simp [hs, hd, TokenKind.isWrapper]
  have hplain := isPlain_of_items h
  have hstatement := normalizeWithin_statement hwrapper.1 h 510
  rw [normalize, ofTokenTree_document hs] at hcanonical ⊢
  cases hmixes : Expr.mixesConditional items with
  | true =>
    rw [hmixes, if_pos rfl] at hstatement
    have hdocument := normalizeWithin_document hwrapper.2 hstatement rfl
    rw [mapChildren_of_isPlain hplain, settle_of_mixesConditional hwrapper.1 hplain hmixes] at hdocument
    rw [maxDepth, hdocument] at hcanonical
    cases hcanonical
  | false =>
    rw [hmixes, if_neg (by simp)] at hstatement
    have hstable := stable_resolveRuns hplain hmixes
    have hreading : Reading (Operation.resolveRuns items)
        (normalizeWithin flat 512 (.group s (Operation.resolveRuns items))) :=
      reading_normalizeWithin 512 hstable (.group hwrapper.1)
    have hdocument := normalizeWithin_document hwrapper.2 hstatement
      (hreading.isHole hstable.plain)
    have hresult := reading_settle (fun hxs h => reading_normalizeWithin 512 hxs h) 63 hstable hreading
    rw [← hdocument] at hresult
    exact ⟨rfl, derives_of_reading hresult rfl hcanonical⟩

/-- A derived sequence becomes what is derived. -/
theorem normalize_of_derives {d s : Token} (hd : d.kind = .document) (hs : s.kind = .statement)
    {tokens : List TokenTree} {items : List Expr} (h : List.Forall₂ TokenTree.Item tokens items)
    (hunmixed : Expr.mixesConditional items = false) {e : Expr} (he : Derives items e)
    (hnesting : e.nesting ≤ maxDepth) :
    normalize flat (Expr.ofTokenTree (.node d [.node s tokens])) = e := by
  have hwrapper : s.kind.isWrapper ∧ d.kind.isWrapper := by simp [hs, hd, TokenKind.isWrapper]
  have hplain := isPlain_of_items h
  have hcanonical : e.IsPlain := Or.inl (he.isCanonical hplain)
  have hstatement := normalizeWithin_statement hwrapper.1 h 510
  rw [hunmixed, if_neg (by simp), normalizeWithin_of_derives he hplain hunmixed 511 hwrapper.1 hnesting]
    at hstatement
  rw [normalize, ofTokenTree_document hs, maxDepth,
    normalizeWithin_document hwrapper.2 hstatement hcanonical.isHole, settle_of_isPlain hcanonical]

/-- The normal form of a sequence is canonical exactly if the grammar derives the sequence and no
conditional is mixed with looser operators; it is then what the grammar derives. -/
theorem normalize_flat_sequence {d s : Token} (hd : d.kind = .document) (hs : s.kind = .statement)
    {tokens : List TokenTree} {items : List Expr} (hitems : List.Forall₂ TokenTree.Item tokens items)
    (hnesting : ∀ e, Derives items e → e.nesting ≤ maxDepth) :
    ((normalize flat (Expr.ofTokenTree (.node d [.node s tokens]))).isCanonical ↔
      Expr.Unmixed items ∧ ∃ e, Derives items e) ∧
    ∀ e, Expr.Unmixed items → Derives items e →
      normalize flat (Expr.ofTokenTree (.node d [.node s tokens])) = e := by
  have hresult : ∀ e, Expr.Unmixed items → Derives items e →
      normalize flat (Expr.ofTokenTree (.node d [.node s tokens])) = e := fun e hunmixed he =>
    normalize_of_derives hd hs hitems (Expr.unmixed_iff.1 hunmixed) he (hnesting e he)
  refine ⟨⟨?_, ?_⟩, hresult⟩
  · intro hcanonical
    obtain ⟨hunmixed, he⟩ := derives_of_isCanonical hd hs hitems hcanonical
    exact ⟨Expr.unmixed_iff.2 hunmixed, _, he⟩
  · rintro ⟨hunmixed, e, he⟩
    rw [hresult e hunmixed he]
    exact he.isCanonical (isPlain_of_items hitems)

/-- The sequence `- $val ? 1 : 2 ** 3`. -/
theorem normalize_flat_sequence_signed :
    let d := (TokenTree.document []).token
    let s := (TokenTree.statement []).token
    let sign (symbol : String) : Expr := .group (TokenTree.operator (ascii symbol)).token []
    let number (digits : String) : Expr := .literal (.ofDecimal (ascii digits))
    let tokens : List TokenTree := [.operator (ascii "-"), .symbol (ascii "$val"),
      .operator (ascii "?"), .number (ascii "1"), .operator (ascii ":"), .number (ascii "2"),
      .operator (ascii "**"), .number (ascii "3")]
    let items := [sign "-", .value, sign "?", number "1", sign ":", number "2", sign "**", number "3"]
    List.Forall₂ TokenTree.Item tokens items ∧ (∀ e, Derives items e → e.nesting ≤ maxDepth) ∧
      ((normalize flat (Expr.ofTokenTree (.node d [.node s tokens]))).isCanonical ↔
        Expr.Unmixed items ∧ ∃ e, Derives items e) ∧
      ∀ e, Expr.Unmixed items → Derives items e →
        normalize flat (Expr.ofTokenTree (.node d [.node s tokens])) = e := by
  intro d s sign number tokens items
  have hdecimal : ∀ digits ∈ ["1", "2", "3"], (ascii digits).IsDecimal := by
    intro digits hdigits
    simp only [List.mem_cons, List.not_mem_nil, or_false] at hdigits
    rcases hdigits with rfl | rfl | rfl <;>
      exact ⟨by decide, List.all_eq_true.1 (by decide), by decide⟩
  have hitems : List.Forall₂ TokenTree.Item tokens items := by
    have hoperator : TokenKind.ofClass (ascii "PPI::Token::Operator") = .operator :=
      TokenKind.ofClass_printed rfl
    have hnumber : TokenKind.ofClass (ascii "PPI::Token::Number") = .number := TokenKind.ofClass_printed rfl
    exact .cons (.operator hoperator) (.cons (.value (Token.kind_printed rfl) rfl)
      (.cons (.operator hoperator) (.cons (.number hnumber (hdecimal "1" (by simp)))
      (.cons (.operator hoperator) (.cons (.number hnumber (hdecimal "2" (by simp)))
      (.cons (.operator hoperator) (.cons (.number hnumber (hdecimal "3" (by simp))) .nil)))))))
  have hnesting : ∀ e, Derives items e → e.nesting ≤ maxDepth := fun e he =>
    Nat.le_trans (he.nesting_le_length (by simp [items, sign, number, Expr.nesting])) (by decide)
  exact ⟨hitems, hnesting, normalize_flat_sequence (Token.kind_printed rfl)
    (Token.kind_printed rfl) hitems hnesting⟩

end Rule

end TagFormula

import Mathlib.Data.List.Basic
import Mathlib.Data.Nat.Basic
import Mathlib.Tactic.Common
import TagFormula.Rule.Precedence

/-!
Trees of operators over a run of operands and operators. A tree is grouped if each operator stands above those
that bind more tightly. A run has exactly one grouped tree: the one that the chain of its operators makes when
they are added one after another, each as far down on the right as it may go.
-/

namespace TagFormula

/-- An operand, and pairs of an operator with the operand behind it. -/
structure Chain where
  first : Expr
  rest : List (Operator × Expr)

namespace Chain

/-- Reads an operand. -/
def operand? (e : Expr) : Option Expr := if e.isOperand then some e else none

def pairs? : List Expr → Option (List (Operator × Expr))
  | [] => some []
  | [_] => none
  | o :: e :: rest => do
    let op ← o.binaryOperator?
    let x ← operand? e
    let more ← pairs? rest
    return (op, x) :: more

def ofItems? : List Expr → Option Chain
  | [] => none
  | e :: rest => do
    let x ← operand? e
    let more ← pairs? rest
    return ⟨x, more⟩

end Chain

/-- A tree of operators over operands. -/
inductive OperatorTree where
  | leaf (e : Expr)
  | node (op : Operator) (left right : OperatorTree)

namespace OperatorTree

/-- Adds an operator and an operand behind a tree. The operator goes below the nodes on the right
that it binds more tightly than, or equally if it groups to the right. -/
def push (op : Operator) (x : Expr) : OperatorTree → OperatorTree
  | .leaf e => .node op (.leaf e) (.leaf x)
  | .node p l r =>
    if p.precedence < op.precedence || (p.precedence == op.precedence && op.rightAssociative) then
      .node p l (push op x r)
    else .node op (.node p l r) (.leaf x)

def ofChain (c : Chain) : OperatorTree := c.rest.foldl (fun t pair => push pair.1 pair.2 t) (.leaf c.first)

def toExpr : OperatorTree → Expr
  | .leaf e => e
  | .node op l r => .binary op.symbol (toExpr l) (toExpr r)

end OperatorTree

/-- A token of an operator between two operands. -/
def Expr.IsInfix (o : Expr) (op : Operator) : Prop :=
  ∃ t parts, o = .group t parts ∧ t.kind = .operator ∧ Operator.find? t.content = some op

theorem Expr.binaryOperator?_eq_some {o : Expr} {op : Operator} :
    o.binaryOperator? = some op ↔ o.IsInfix op := by
  cases o with
  | group t parts => simp [binaryOperator?, operatorSymbol?, IsInfix, Option.bind_eq_some_iff]
  | _ => simp [binaryOperator?, operatorSymbol?, IsInfix]

theorem Expr.IsInfix.mem_table {o : Expr} {op : Operator} (h : o.IsInfix op) : op ∈ Operator.table := by
  obtain ⟨t, parts, -, -, hfind⟩ := h
  exact List.mem_of_find?_eq_some hfind

/-- Operands with an operator between each two of them. -/
inductive IsRun : List Expr → Prop
  | single {x : Expr} (hx : x.isOperand) : IsRun [x]
  | cons {x o : Expr} {op : Operator} {rest : List Expr} (hx : x.isOperand) (ho : o.IsInfix op)
      (h : IsRun rest) : IsRun (x :: o :: rest)

namespace Operator

/-- Operators that bind equally tightly group to the same side. -/
def Coherent (ops : List Operator) : Prop :=
  ∀ p ∈ ops, ∀ q ∈ ops, p.precedence = q.precedence → p.rightAssociative = q.rightAssociative

theorem rightAssociative_of_mem_table :
    ∀ p ∈ table, p.rightAssociative = (p.precedence == 180) := by decide

theorem coherent_of_subset_table {ops : List Operator} (h : ∀ p ∈ ops, p ∈ table) :
    Coherent ops := by
  intro p hp q hq heq
  rw [rightAssociative_of_mem_table p (h p hp), rightAssociative_of_mem_table q (h q hq), heq]

/-- `q` may stand as the left operand of `p`. -/
def OnLeft (p q : Operator) : Prop :=
  p.precedence < q.precedence ∨ (q.precedence = p.precedence ∧ p.rightAssociative = false)

/-- `q` may stand as the right operand of `p`. -/
def OnRight (p q : Operator) : Prop :=
  p.precedence < q.precedence ∨ (q.precedence = p.precedence ∧ p.rightAssociative = true)

end Operator

namespace OperatorTree

/-- The operator at the top. -/
def top? : OperatorTree → Option Operator
  | .leaf _ => none
  | .node op _ _ => some op

/-- The items that a tree holds, from left to right: its operands, and between them a token for each
operator. -/
inductive Spells : OperatorTree → List Expr → Prop
  | leaf {x : Expr} (hx : x.isOperand) : Spells (.leaf x) [x]
  | node {op : Operator} {l r : OperatorTree} {o : Expr} {left right : List Expr} (ho : o.IsInfix op)
      (hl : Spells l left) (hr : Spells r right) : Spells (.node op l r) (left ++ o :: right)

/-- Each operator binds less tightly than those right below it; equally only on the side it groups
to. -/
def Grouped : OperatorTree → Prop
  | .leaf _ => True
  | .node p l r =>
    (∀ q ∈ l.top?, p.OnLeft q) ∧ (∀ q ∈ r.top?, p.OnRight q) ∧ Grouped l ∧ Grouped r

theorem grouped_pair (op : Operator) (x y : Expr) : (node op (.leaf x) (.leaf y)).Grouped := by
  simp [Grouped, top?]

/-! ### The chain of a tree -/

def first : OperatorTree → Expr
  | .leaf e => e
  | .node _ l _ => first l

/-- The operators of a tree, each with the operand behind it. -/
def pairs : OperatorTree → List (Operator × Expr)
  | .leaf _ => []
  | .node op l r => pairs l ++ (op, first r) :: pairs r

def chain (t : OperatorTree) : Chain := ⟨t.first, t.pairs⟩

def operators (t : OperatorTree) : List Operator := t.pairs.map (·.1)

theorem operators_eq_chain (t : OperatorTree) : t.operators = t.chain.rest.map (·.1) := rfl

theorem operators_node (op : Operator) (l r : OperatorTree) :
    (node op l r).operators = l.operators ++ op :: r.operators := by
  simp [operators, pairs]

theorem first_push (op : Operator) (x : Expr) : ∀ t, (push op x t).first = t.first
  | .leaf _ => rfl
  | .node p l r => by
    rw [push]
    split <;> rfl

theorem pairs_push (op : Operator) (x : Expr) : ∀ t, (push op x t).pairs = t.pairs ++ [(op, x)]
  | .leaf _ => rfl
  | .node p l r => by
    rw [push]
    split
    · simp [pairs, first_push, pairs_push op x r]
    · simp [pairs, first]

theorem foldl_push_pairs (t : OperatorTree) (rest : List (Operator × Expr)) :
    (rest.foldl (fun t pair => push pair.1 pair.2 t) t).pairs = t.pairs ++ rest ∧
      (rest.foldl (fun t pair => push pair.1 pair.2 t) t).first = t.first := by
  induction rest generalizing t with
  | nil => simp
  | cons pair rest ih =>
    obtain ⟨hp, hf⟩ := ih (push pair.1 pair.2 t)
    rw [List.foldl_cons, hp, hf, pairs_push, first_push]
    simp

/-- The tree of a chain holds exactly that chain. -/
theorem chain_ofChain (c : Chain) : (ofChain c).chain = c := by
  obtain ⟨hp, hf⟩ := foldl_push_pairs (.leaf c.first) c.rest
  rw [chain, ofChain, hp, hf]
  rfl

/-! ### The tree of a chain is grouped -/

theorem top?_push (op : Operator) (x : Expr) (t : OperatorTree) :
    (push op x t).top? = some op ∨ (push op x t).top? = t.top? := by
  cases t with
  | leaf => exact Or.inl rfl
  | node p l r =>
    rw [push]
    split
    · exact Or.inr rfl
    · exact Or.inl rfl

/-- Adding an operator that agrees with those of the tree keeps the grouping. -/
theorem Grouped.push {op : Operator} {x : Expr} : ∀ {t : OperatorTree}, t.Grouped →
    Operator.Coherent (op :: t.operators) → (push op x t).Grouped
  | .leaf e, _, _ => by
    refine ⟨?_, ?_, trivial, trivial⟩ <;> intro q hq <;> cases hq
  | .node p l r, ⟨hl, hr, hgl, hgr⟩, hc => by
    rw [OperatorTree.push]
    have hp : p ∈ op :: (node p l r).operators := by simp [operators_node]
    have hsame := hc p hp op (List.mem_cons_self ..)
    split
    · rename_i hcond
      -- the operator goes below `p`, so that `p` keeps its left side
      have hop : p.OnRight op := by
        simp only [Bool.or_eq_true, Bool.and_eq_true, decide_eq_true_eq, beq_iff_eq] at hcond
        rcases hcond with h | ⟨h, hright⟩
        · exact Or.inl h
        · exact Or.inr ⟨h.symm, by rw [hsame h, hright]⟩
      have hcr : Operator.Coherent (op :: r.operators) := by
        intro a ha b hb
        refine hc a ?_ b ?_ <;> rw [operators_node] <;> simp at ha hb ⊢ <;> tauto
      refine ⟨hl, ?_, hgl, hgr.push hcr⟩
      intro q hq
      rcases top?_push op x r with h | h
      · rw [h] at hq
        cases hq
        exact hop
      · exact hr q (h ▸ hq)
    · rename_i hcond
      -- the operator becomes the top, with the whole tree on its left
      refine ⟨?_, by rintro q ⟨⟩, ⟨hl, hr, hgl, hgr⟩, trivial⟩
      rintro q ⟨⟩
      simp only [Bool.or_eq_true, Bool.and_eq_true, decide_eq_true_eq, beq_iff_eq, not_or, not_and,
        not_lt] at hcond
      rcases Nat.lt_or_eq_of_le hcond.1 with h | h
      · exact Or.inl h
      · exact Or.inr ⟨h.symm, by simpa using hcond.2 h.symm⟩

theorem grouped_foldl_push (rest : List (Operator × Expr)) (t : OperatorTree) (ht : t.Grouped)
    (hc : Operator.Coherent (t.operators ++ rest.map (·.1))) :
    (rest.foldl (fun t pair => push pair.1 pair.2 t) t).Grouped := by
  induction rest generalizing t with
  | nil => exact ht
  | cons pair rest ih =>
    have hsub : ∀ q ∈ pair.1 :: t.operators, q ∈ t.operators ++ (pair :: rest).map (·.1) := by
      intro q hq
      simp at hq ⊢
      tauto
    refine ih _ (ht.push fun a ha b hb => hc a (hsub a ha) b (hsub b hb)) ?_
    have heq : (push pair.1 pair.2 t).operators ++ rest.map (·.1)
        = t.operators ++ (pair :: rest).map (·.1) := by
      simp [operators, pairs_push]
    rw [heq]
    exact hc

theorem grouped_ofChain {c : Chain} (hc : Operator.Coherent (c.rest.map (·.1))) :
    (ofChain c).Grouped :=
  grouped_foldl_push c.rest (.leaf c.first) trivial hc

/-! ### A grouped tree is the tree of its chain -/

/-- No operator of a grouped tree binds less tightly than its top. -/
theorem Grouped.precedence_le : ∀ {t : OperatorTree}, t.Grouped → ∀ p ∈ t.top?,
    ∀ q ∈ t.operators, p.precedence ≤ q.precedence
  | .node p l r, ⟨hl, hr, hgl, hgr⟩, _, rfl, q, hq => by
    have below : ∀ s : OperatorTree, (∀ q ∈ s.top?, p.precedence ≤ q.precedence) →
        (∀ p ∈ s.top?, ∀ q ∈ s.operators, p.precedence ≤ q.precedence) → q ∈ s.operators →
        p.precedence ≤ q.precedence := by
      intro s htop hall hq
      cases s with
      | leaf => simp [operators, pairs] at hq
      | node m _ _ => exact le_trans (htop m rfl) (hall m rfl q hq)
    rw [operators_node, List.mem_append, List.mem_cons] at hq
    rcases hq with hq | rfl | hq
    · refine below l (fun m hm => ?_) hgl.precedence_le hq
      rcases hl m hm with h | h <;> omega
    · exact le_rfl
    · refine below r (fun m hm => ?_) hgr.precedence_le hq
      rcases hr m hm with h | h <;> omega

/-- All operators on the right of a grouped node may stand there. -/
theorem Grouped.onRight {p : Operator} {l r : OperatorTree} (h : (node p l r).Grouped)
    (hc : Operator.Coherent (node p l r).operators) : ∀ q ∈ r.operators, p.OnRight q := by
  obtain ⟨-, hr, -, hgr⟩ := h
  intro q hq
  cases r with
  | leaf => simp [operators, pairs] at hq
  | node m l' r' =>
    have hmq := hgr.precedence_le m rfl q hq
    rcases hr m rfl with h | ⟨h, hright⟩
    · exact Or.inl (lt_of_lt_of_le h hmq)
    · rcases Nat.lt_or_eq_of_le (h ▸ hmq) with hlt | heq
      · exact Or.inl hlt
      · exact Or.inr ⟨heq.symm, hright⟩

/-- Pushing an operator that may stand on the right of the top goes into the right part. -/
theorem push_node_of_onRight {p op : Operator} {l r : OperatorTree} {x : Expr} (h : p.OnRight op)
    (hsame : p.precedence = op.precedence → p.rightAssociative = op.rightAssociative) :
    push op x (node p l r) = node p l (push op x r) := by
  rw [push, if_pos]
  simp only [Bool.or_eq_true, Bool.and_eq_true, decide_eq_true_eq, beq_iff_eq]
  rcases h with h | ⟨h, hright⟩
  · exact Or.inl h
  · exact Or.inr ⟨h.symm, by rw [← hsame h.symm, hright]⟩

theorem foldl_push_node {p : Operator} {l : OperatorTree} :
    ∀ (rest : List (Operator × Expr)) (r : OperatorTree),
      (∀ pair ∈ rest, p.OnRight pair.1 ∧
        (p.precedence = pair.1.precedence → p.rightAssociative = pair.1.rightAssociative)) →
      rest.foldl (fun t pair => push pair.1 pair.2 t) (node p l r)
        = node p l (rest.foldl (fun t pair => push pair.1 pair.2 t) r)
  | [], _, _ => rfl
  | pair :: rest, r, h => by
    obtain ⟨hright, hsame⟩ := h pair (List.mem_cons_self ..)
    rw [List.foldl_cons, push_node_of_onRight hright hsame, List.foldl_cons]
    exact foldl_push_node rest _ fun q hq => h q (List.mem_cons_of_mem _ hq)

/-- Pushing an operator that the top may stand on the left of makes it the new top. -/
theorem push_of_onLeft {p : Operator} {x : Expr} {l : OperatorTree} (h : ∀ q ∈ l.top?, p.OnLeft q) :
    push p x l = node p l (.leaf x) := by
  cases l with
  | leaf => rfl
  | node q l r =>
    rw [push, if_neg]
    simp only [Bool.or_eq_true, Bool.and_eq_true, decide_eq_true_eq, beq_iff_eq, not_or, not_and,
      not_lt, Bool.not_eq_true]
    rcases h q rfl with h | ⟨h, hleft⟩
    · exact ⟨Nat.le_of_lt h, fun heq => absurd heq (Nat.ne_of_gt h)⟩
    · exact ⟨Nat.le_of_eq h.symm, fun _ => hleft⟩

theorem ofChain_chain : ∀ {t : OperatorTree}, t.Grouped → Operator.Coherent t.operators →
    ofChain t.chain = t
  | .leaf _, _, _ => rfl
  | .node p l r, h, hc => by
    obtain ⟨hl, hr, hgl, hgr⟩ := id h
    have hcl : Operator.Coherent l.operators := fun a ha b hb =>
      hc a (by simp [operators_node, ha]) b (by simp [operators_node, hb])
    have hcr : Operator.Coherent r.operators := fun a ha b hb =>
      hc a (by simp [operators_node, ha]) b (by simp [operators_node, hb])
    have hright : ∀ pair ∈ r.pairs, p.OnRight pair.1 ∧
        (p.precedence = pair.1.precedence → p.rightAssociative = pair.1.rightAssociative) := by
      intro pair hpair
      have hmem : pair.1 ∈ r.operators := List.mem_map_of_mem hpair
      refine ⟨h.onRight hc _ hmem, hc p ?_ pair.1 ?_⟩ <;> simp [operators_node, hmem]
    calc ofChain (node p l r).chain
        = r.pairs.foldl (fun t pair => push pair.1 pair.2 t) (push p r.first (ofChain l.chain)) := by
          simp [ofChain, chain, pairs, first]
      _ = r.pairs.foldl (fun t pair => push pair.1 pair.2 t) (node p l (.leaf r.first)) := by
          rw [ofChain_chain hgl hcl, push_of_onLeft hl]
      _ = node p l (ofChain r.chain) := foldl_push_node r.pairs _ hright
      _ = node p l r := by rw [ofChain_chain hgr hcr]

end OperatorTree

/-! ### Items and chains -/

namespace Chain

theorem operand?_eq_some {e x : Expr} : operand? e = some x ↔ e = x ∧ x.isOperand := by
  rw [operand?]
  constructor
  · intro h
    split at h
    · rename_i he
      cases h
      exact ⟨rfl, he⟩
    · cases h
  · rintro ⟨rfl, hx⟩
    rw [if_pos hx]

theorem pairs?_cons_cons {o e : Expr} {rest : List Expr} {ps : List (Operator × Expr)} :
    pairs? (o :: e :: rest) = some ps ↔
      ∃ op tail, o.IsInfix op ∧ e.isOperand ∧ pairs? rest = some tail ∧ ps = (op, e) :: tail := by
  simp only [pairs?, Option.bind_eq_bind, Option.bind_eq_some_iff, Option.pure_def,
    Option.some.injEq, Expr.binaryOperator?_eq_some, operand?_eq_some]
  constructor
  · rintro ⟨op, hop, x, ⟨rfl, hx⟩, tail, htail, rfl⟩
    exact ⟨op, tail, hop, hx, htail, rfl⟩
  · rintro ⟨op, tail, hop, hx, htail, rfl⟩
    exact ⟨op, hop, e, ⟨rfl, hx⟩, tail, htail, rfl⟩

theorem ofItems?_eq_some {items : List Expr} {c : Chain} :
    ofItems? items = some c ↔
      ∃ rest, items = c.first :: rest ∧ c.first.isOperand ∧ pairs? rest = some c.rest := by
  cases items with
  | nil => simp [ofItems?]
  | cons e rest =>
    obtain ⟨first, ps⟩ := c
    simp only [ofItems?, Option.bind_eq_bind, Option.bind_eq_some_iff, Option.pure_def,
      Option.some.injEq, operand?_eq_some, Chain.mk.injEq, List.cons.injEq]
    constructor
    · rintro ⟨x, ⟨rfl, hx⟩, tail, htail, rfl, rfl⟩
      exact ⟨rest, ⟨rfl, rfl⟩, hx, htail⟩
    · rintro ⟨_, ⟨rfl, rfl⟩, hx, htail⟩
      exact ⟨e, ⟨rfl, hx⟩, ps, htail, rfl, rfl⟩

theorem pairs?_append : ∀ {items more : List Expr} {ps qs : List (Operator × Expr)},
    pairs? items = some ps → pairs? more = some qs → pairs? (items ++ more) = some (ps ++ qs)
  | [], more, ps, qs, h, h' => by
    obtain rfl : [] = ps := by simpa [pairs?] using h
    exact h'
  | [_], _, _, _, h, _ => by simp [pairs?] at h
  | o :: e :: rest, more, ps, qs, h, h' => by
    obtain ⟨op, tail, hop, he, htail, rfl⟩ := pairs?_cons_cons.1 h
    exact pairs?_cons_cons.2 ⟨op, tail ++ qs, hop, he, pairs?_append htail h', rfl⟩

/-- Pairs that are read in two parts come from two parts of the items. -/
theorem exists_of_pairs?_append : ∀ {ps qs : List (Operator × Expr)} {items : List Expr},
    pairs? items = some (ps ++ qs) →
      ∃ a b, items = a ++ b ∧ pairs? a = some ps ∧ pairs? b = some qs
  | [], qs, items, h => ⟨[], items, rfl, rfl, h⟩
  | p :: ps, qs, [], h => by simp [pairs?] at h
  | p :: ps, qs, [_], h => by simp [pairs?] at h
  | p :: ps, qs, o :: e :: rest, h => by
    obtain ⟨op, tail, hop, he, htail, heq⟩ := pairs?_cons_cons.1 h
    obtain ⟨rfl, rfl⟩ := List.cons.inj heq
    obtain ⟨a, b, rfl, ha, hb⟩ := exists_of_pairs?_append htail
    exact ⟨o :: e :: a, b, rfl, pairs?_cons_cons.2 ⟨op, ps, hop, he, ha, rfl⟩, hb⟩

theorem mem_table_of_pairs? : ∀ {items : List Expr} {ps : List (Operator × Expr)},
    pairs? items = some ps → ∀ p ∈ ps.map (·.1), p ∈ Operator.table
  | [], ps, h, p, hp => by
    obtain rfl : [] = ps := by simpa [pairs?] using h
    cases hp
  | [_], _, h, _, _ => by simp [pairs?] at h
  | o :: e :: rest, ps, h, p, hp => by
    obtain ⟨op, tail, ho, he, htail, rfl⟩ := pairs?_cons_cons.1 h
    rcases List.mem_cons.1 hp with rfl | hp
    · exact ho.mem_table
    · exact mem_table_of_pairs? htail p hp

end Chain

/-- Runs are the items that can be read as a chain. -/
theorem isRun_iff {items : List Expr} : IsRun items ↔ ∃ c, Chain.ofItems? items = some c := by
  constructor
  · intro h
    induction h with
    | @single x hx => exact ⟨⟨x, []⟩, Chain.ofItems?_eq_some.2 ⟨[], rfl, hx, rfl⟩⟩
    | @cons x o op rest hx ho _ ih =>
      obtain ⟨⟨e, ps⟩, hc⟩ := ih
      obtain ⟨tail, rfl, he, hps⟩ := Chain.ofItems?_eq_some.1 hc
      exact ⟨⟨x, (op, e) :: ps⟩, Chain.ofItems?_eq_some.2
        ⟨_, rfl, hx, Chain.pairs?_cons_cons.2 ⟨op, ps, ho, he, hps, rfl⟩⟩⟩
  · rintro ⟨⟨x, ps⟩, hc⟩
    obtain ⟨rest, rfl, hx, hps⟩ := Chain.ofItems?_eq_some.1 hc
    clear hc
    induction ps generalizing x rest with
    | nil =>
      match rest, hps with
      | [], _ => exact .single hx
      | [_], hps => simp [Chain.pairs?] at hps
      | o :: e :: rest, hps =>
        obtain ⟨_, _, _, _, _, heq⟩ := Chain.pairs?_cons_cons.1 hps
        cases heq
    | cons p ps ih =>
      match rest, hps with
      | [], hps => simp [Chain.pairs?] at hps
      | [_], hps => simp [Chain.pairs?] at hps
      | o :: e :: rest, hps =>
        obtain ⟨op, tail, hop, he, htail, heq⟩ := Chain.pairs?_cons_cons.1 hps
        obtain ⟨rfl, rfl⟩ := List.cons.inj heq
        exact .cons hx hop (ih e rest he htail)

namespace OperatorTree

theorem Spells.ofItems? {t : OperatorTree} {items : List Expr} (h : t.Spells items) :
    Chain.ofItems? items = some t.chain := by
  induction h with
  | @leaf x hx => exact Chain.ofItems?_eq_some.2 ⟨[], rfl, hx, rfl⟩
  | @node op l r o left right ho _ _ ihl ihr =>
    obtain ⟨ls, rfl, hl, hls⟩ := Chain.ofItems?_eq_some.1 ihl
    obtain ⟨rs, rfl, hr, hrs⟩ := Chain.ofItems?_eq_some.1 ihr
    refine Chain.ofItems?_eq_some.2 ⟨ls ++ o :: r.first :: rs, rfl, hl, ?_⟩
    exact Chain.pairs?_append hls (Chain.pairs?_cons_cons.2 ⟨op, r.pairs, ho, hr, hrs, rfl⟩)

theorem spells_of_ofItems? : ∀ {t : OperatorTree} {items : List Expr},
    Chain.ofItems? items = some t.chain → t.Spells items
  | .leaf x, items, h => by
    obtain ⟨rest, rfl, hx, hrest⟩ := Chain.ofItems?_eq_some.1 h
    match rest, hrest with
    | [], _ => exact .leaf hx
    | [_], hrest => simp [Chain.pairs?] at hrest
    | _ :: _ :: _, hrest =>
      obtain ⟨_, _, _, _, _, heq⟩ := Chain.pairs?_cons_cons.1 hrest
      cases heq
  | .node op l r, items, h => by
    obtain ⟨rest, rfl, hx, hrest⟩ := Chain.ofItems?_eq_some.1 h
    obtain ⟨a, b, rfl, ha, hb⟩ := Chain.exists_of_pairs?_append hrest
    match b, hb with
    | [], hb => simp [Chain.pairs?] at hb
    | [_], hb => simp [Chain.pairs?] at hb
    | o :: e :: b, hb =>
      obtain ⟨op', tail, ho, he, htail, heq⟩ := Chain.pairs?_cons_cons.1 hb
      obtain ⟨⟨rfl, rfl⟩, rfl⟩ : (op = op' ∧ r.first = e) ∧ r.pairs = tail := by simpa using heq
      have hl : l.Spells (l.first :: a) :=
        spells_of_ofItems? (Chain.ofItems?_eq_some.2 ⟨a, rfl, hx, ha⟩)
      have hr : r.Spells (r.first :: b) :=
        spells_of_ofItems? (Chain.ofItems?_eq_some.2 ⟨b, rfl, he, htail⟩)
      exact .node ho hl hr

theorem Spells.coherent {t : OperatorTree} {items : List Expr} (h : t.Spells items) :
    Operator.Coherent t.operators := by
  obtain ⟨rest, -, -, hps⟩ := Chain.ofItems?_eq_some.1 h.ofItems?
  exact Operator.coherent_of_subset_table (Chain.mem_table_of_pairs? hps)

/-- A run has at most one grouped tree. -/
theorem eq_of_spells_of_grouped {s t : OperatorTree} {items : List Expr} (hs : s.Spells items)
    (ht : t.Spells items) (hgs : s.Grouped) (hgt : t.Grouped) : s = t := by
  have hchain : s.chain = t.chain := Option.some.inj (hs.ofItems?.symm.trans ht.ofItems?)
  rw [← ofChain_chain hgs hs.coherent, hchain, ofChain_chain hgt ht.coherent]

/-- The tree of the chain that items are read as. -/
theorem ofChain_spells {items : List Expr} {c : Chain} (h : Chain.ofItems? items = some c) :
    (ofChain c).Spells items ∧ (ofChain c).Grouped := by
  have hspells : (ofChain c).Spells items := spells_of_ofItems? (by rw [chain_ofChain, h])
  have hcoherent := hspells.coherent
  rw [operators_eq_chain, chain_ofChain] at hcoherent
  exact ⟨hspells, grouped_ofChain hcoherent⟩

end OperatorTree

end TagFormula

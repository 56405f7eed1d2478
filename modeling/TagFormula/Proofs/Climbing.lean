import TagFormula.Proofs.OperatorTree

/-!
Precedence climbing. An operation that is read with a least precedence is a grouped tree over the items taken, no
operator in it binds less tightly, and the items left do not go on with one that belongs to it. Main statement:
an operation is found for exactly the runs, and it is the only grouped tree over its run.
-/

namespace TagFormula

/-! ### Least precedences -/

namespace Operator

/-- What is read as the right operand of `p` may stand there. -/
theorem onRight_of_rightMinimum_le {p q : Operator} (h : p.rightMinimum ≤ q.precedence) : p.OnRight q := by
  rw [rightMinimum] at h
  split at h
  · rename_i hright
    rcases Nat.lt_or_eq_of_le h with hlt | heq
    · exact Or.inl hlt
    · exact Or.inr ⟨heq.symm, hright⟩
  · exact Or.inl h

/-- What ends the right operand of `q` may have `q` on its left. -/
theorem onLeft_of_lt_rightMinimum {p q : Operator} (hp : p ∈ table) (hq : q ∈ table)
    (h : p.precedence < q.rightMinimum) : p.OnLeft q := by
  rw [rightMinimum] at h
  split at h
  · exact Or.inl h
  · rename_i hleft
    rcases Nat.lt_or_eq_of_le (Nat.le_of_lt_succ h) with hlt | heq
    · exact Or.inl hlt
    · -- operators of one precedence group to the same side
      have hsame : p.rightAssociative = q.rightAssociative := by
        rw [rightAssociative_of_mem_table p hp, rightAssociative_of_mem_table q hq, heq]
      exact Or.inr ⟨heq.symm, hsame.trans (Bool.eq_false_iff.2 hleft)⟩

end Operator

namespace Climb

/-! ### What is read -/

/-- The items do not go on with an operator of this precedence or a higher one. -/
def Stops (minimum : Nat) (items : List Expr) : Prop :=
  ∀ o op, items.head? = some o → o.IsInfix op → op.precedence < minimum

/-- An operator at the front of the items may have the tree on its left. -/
def MayExtend (t : OperatorTree) (items : List Expr) : Prop :=
  ∀ o op, items.head? = some o → o.IsInfix op → ∀ q ∈ t.top?, op.OnLeft q

/-- The expression is a grouped tree over the items, and its operators bind at least this tightly. -/
structure Reads (minimum : Nat) (items : List Expr) (t : OperatorTree) (e : Expr) : Prop where
  spells : t.Spells items
  grouped : t.Grouped
  toExpr : t.toExpr = e
  minimum_le : ∀ q ∈ t.top?, minimum ≤ q.precedence

theorem reads_leaf (minimum : Nat) {x : Expr} (hx : x.isOperand) : Reads minimum [x] (.leaf x) x :=
  ⟨.leaf hx, trivial, rfl, by rintro q ⟨⟩⟩

theorem mayExtend_leaf (x : Expr) (items : List Expr) : MayExtend (.leaf x) items := by
  rintro o op - - q ⟨⟩

theorem operand?_eq_some {items rest : List Expr} {x : Expr} :
    operand? items = some (x, rest) ↔ items = x :: rest ∧ x.isOperand := by
  cases items with
  | nil => simp [operand?]
  | cons y ys =>
    rw [operand?]
    constructor
    · intro h
      split at h
      · rename_i hy
        cases h
        exact ⟨rfl, hy⟩
      · cases h
    · rintro ⟨⟨⟩, hx⟩
      rw [if_pos hx]

/-- The loop makes its operation the left operand of an operator. -/
theorem Reads.node {minimum : Nat} {left right : List Expr} {l r : OperatorTree} {e e' o : Expr} {op : Operator}
    (hl : Reads minimum left l e) (ho : o.IsInfix op) (hr : Reads op.rightMinimum right r e')
    (hextend : ∀ q ∈ l.top?, op.OnLeft q) (hop : minimum ≤ op.precedence) :
    Reads minimum (left ++ o :: right) (.node op l r) (.binary op.symbol e e') where
  spells := .node ho hl.spells hr.spells
  grouped := ⟨hextend, fun q hq => Operator.onRight_of_rightMinimum_le (hr.minimum_le q hq), hl.grouped, hr.grouped⟩
  toExpr := by rw [OperatorTree.toExpr, hl.toExpr, hr.toExpr]
  minimum_le := by
    rintro q ⟨⟩
    exact hop

/-- What stands behind a right operand may have the whole operation on its left. -/
theorem mayExtend_node {op : Operator} {l r : OperatorTree} {rest : List Expr} (hop : op ∈ Operator.table)
    (h : Stops op.rightMinimum rest) : MayExtend (.node op l r) rest := by
  rintro o p hhead ho q ⟨⟩
  exact Operator.onLeft_of_lt_rightMinimum ho.mem_table hop (h o p hhead ho)

/-- The loop stops in front of items that do not go on. -/
theorem Reads.stop {minimum : Nat} {front items : List Expr} {t : OperatorTree} {e : Expr}
    (h : Reads minimum front t e) (hstops : Stops minimum items) :
    ∃ taken t', items = taken ++ items ∧ Reads minimum (front ++ taken) t' e ∧ Stops minimum items :=
  ⟨[], t, rfl, by rwa [List.append_nil], hstops⟩

mutual
theorem reads_of_expression? : ∀ {bound minimum : Nat} {items rest : List Expr} {e : Expr},
    expression? bound minimum items = some (e, rest) →
      ∃ front t, items = front ++ rest ∧ Reads minimum front t e ∧ Stops minimum rest
  | bound + 1, minimum, items, rest, e, h => by
    rw [expression?, Option.bind_eq_bind, Option.bind_eq_some_iff] at h
    obtain ⟨⟨x, behind⟩, hx, h⟩ := h
    obtain ⟨rfl, hoperand⟩ := operand?_eq_some.1 hx
    obtain ⟨taken, t, rfl, ht, hstops⟩ :=
      reads_of_extend? h (reads_leaf minimum hoperand) (mayExtend_leaf x behind)
    exact ⟨x :: taken, t, rfl, ht, hstops⟩

/-- The loop keeps that its operation is grouped, and that the operator behind it may have it on its left. -/
theorem reads_of_extend? : ∀ {bound minimum : Nat} {left e : Expr} {front items rest : List Expr}
    {t : OperatorTree}, extend? bound minimum left items = some (e, rest) → Reads minimum front t left →
    MayExtend t items →
      ∃ taken t', items = taken ++ rest ∧ Reads minimum (front ++ taken) t' e ∧ Stops minimum rest
  | bound, minimum, left, e, front, [], rest, t, h, ht, _ => by
    rw [extend?] at h
    cases h
    exact ht.stop (by rintro o op ⟨⟩)
  | bound + 1, minimum, left, e, front, o :: items, rest, t, h, ht, hextend => by
    rw [extend?] at h
    cases hop : o.binaryOperator? with
    | none =>
      rw [hop] at h
      cases h
      refine ht.stop ?_
      rintro _ op ⟨⟩ ho
      rw [Expr.binaryOperator?_eq_some.2 ho] at hop
      cases hop
    | some op =>
      have ho := Expr.binaryOperator?_eq_some.1 hop
      simp only [hop] at h
      split at h
      · rename_i hlow
        cases h
        refine ht.stop ?_
        rintro _ op' ⟨⟩ ho'
        obtain rfl : op = op' := Option.some.inj (hop.symm.trans (Expr.binaryOperator?_eq_some.2 ho'))
        exact hlow
      · rename_i hhigh
        rw [Option.bind_eq_bind, Option.bind_eq_some_iff] at h
        obtain ⟨⟨right, behind⟩, hright, h⟩ := h
        obtain ⟨operand, r, rfl, hr, hbehind⟩ := reads_of_expression? hright
        have hnode := ht.node ho hr (hextend o op rfl ho) (Nat.le_of_not_lt hhigh)
        obtain ⟨taken, t', rfl, ht', hstops⟩ :=
          reads_of_extend? h hnode (mayExtend_node ho.mem_table hbehind)
        refine ⟨o :: operand ++ taken, t', ?_, ?_, hstops⟩
        · simp
        · simpa using ht'
end

/-! ### Runs are read -/

/-- What may stand behind an operand of a run. -/
inductive IsRest : List Expr → Prop
  | nil : IsRest []
  | cons {o : Expr} {op : Operator} {run : List Expr} (ho : o.IsInfix op) (h : IsRun run) : IsRest (o :: run)

theorem exists_isRest_of_isRun {items : List Expr} (h : IsRun items) :
    ∃ x rest, operand? items = some (x, rest) ∧ IsRest rest ∧ rest.length < items.length := by
  cases h with
  | single hx => exact ⟨_, [], operand?_eq_some.2 ⟨rfl, hx⟩, .nil, Nat.lt_succ_self _⟩
  | cons hx ho h => exact ⟨_, _, operand?_eq_some.2 ⟨rfl, hx⟩, .cons ho h, Nat.lt_succ_self _⟩

mutual
/-- With a bound that reaches the length of a run, an operation is read from its front. -/
theorem exists_expression? : ∀ (bound minimum : Nat) {items : List Expr}, IsRun items → items.length ≤ bound →
    ∃ e rest, expression? bound minimum items = some (e, rest) ∧ IsRest rest ∧ rest.length < items.length
  | 0, _, items, h, hbound => by
    obtain ⟨x, rest, -, -, hlength⟩ := exists_isRest_of_isRun h
    omega
  | bound + 1, minimum, items, h, hbound => by
    obtain ⟨x, behind, hx, hrest, hlength⟩ := exists_isRest_of_isRun h
    obtain ⟨e, rest, he, hrest, hle⟩ := exists_extend? bound minimum x hrest (by omega)
    refine ⟨e, rest, ?_, hrest, by omega⟩
    rw [expression?, hx]
    exact he

theorem exists_extend? : ∀ (bound minimum : Nat) (left : Expr) {items : List Expr}, IsRest items →
    items.length ≤ bound →
    ∃ e rest, extend? bound minimum left items = some (e, rest) ∧ IsRest rest ∧ rest.length ≤ items.length
  | bound, minimum, left, _, .nil, _ => ⟨left, [], by rw [extend?], .nil, Nat.le_refl _⟩
  | bound + 1, minimum, left, _, @IsRest.cons o op run ho h, hbound => by
    rw [extend?]
    simp only [Expr.binaryOperator?_eq_some.2 ho]
    split
    · exact ⟨left, o :: run, rfl, .cons ho h, Nat.le_refl _⟩
    · rw [List.length_cons] at hbound
      obtain ⟨right, behind, hright, hbehind, hlength⟩ :=
        exists_expression? bound op.rightMinimum h (by omega)
      obtain ⟨e, rest, he, hrest, hle⟩ :=
        exists_extend? bound minimum (.binary op.symbol left right) hbehind (by omega)
      refine ⟨e, rest, ?_, hrest, ?_⟩
      · rw [hright]
        exact he
      · rw [List.length_cons]
        omega
end

end Climb

/-! ### The operation of a run -/

namespace Expr

theorem ofRun?_eq_some {items : List Expr} {e : Expr} :
    ofRun? items = some e ↔ Climb.expression? items.length 0 items = some (e, []) := by
  rw [ofRun?]
  split <;> simp_all

/-- Where an operation is found, all items are taken. -/
theorem exists_tree_of_ofRun? {items : List Expr} {e : Expr} (h : ofRun? items = some e) :
    ∃ t : OperatorTree, t.Spells items ∧ t.Grouped ∧ t.toExpr = e := by
  obtain ⟨front, t, hitems, ht, -⟩ := Climb.reads_of_expression? (ofRun?_eq_some.1 h)
  rw [List.append_nil] at hitems
  exact ⟨t, hitems ▸ ht.spells, ht.grouped, ht.toExpr⟩

/-- No operator binds less tightly than the least precedence at the start, so that no item of a run is left. -/
theorem exists_ofRun?_of_isRun {items : List Expr} (h : IsRun items) : ∃ e, ofRun? items = some e := by
  obtain ⟨e, rest, he, hrest, -⟩ := Climb.exists_expression? items.length 0 h (Nat.le_refl _)
  obtain ⟨-, -, -, -, hstops⟩ := Climb.reads_of_expression? he
  cases hrest with
  | nil => exact ⟨e, ofRun?_eq_some.2 he⟩
  | cons ho _ => exact absurd (hstops _ _ rfl ho) (Nat.not_lt_zero _)

end Expr

theorem OperatorTree.Spells.isRun {t : OperatorTree} {items : List Expr} (h : t.Spells items) : IsRun items :=
  isRun_iff.2 ⟨_, h.ofItems?⟩

/-- The operation of a run is what its grouped tree stands for. -/
theorem Expr.ofRun?_eq_some_iff {items : List Expr} {e : Expr} :
    Expr.ofRun? items = some e ↔
      ∃ t : OperatorTree, t.Spells items ∧ t.Grouped ∧ t.toExpr = e := by
  constructor
  · exact exists_tree_of_ofRun?
  · rintro ⟨t, hspells, hgrouped, rfl⟩
    obtain ⟨e, he⟩ := exists_ofRun?_of_isRun hspells.isRun
    obtain ⟨s, hs, hgs, rfl⟩ := exists_tree_of_ofRun? he
    rw [he, OperatorTree.eq_of_spells_of_grouped hs hspells hgs hgrouped]

/-- Climbing builds the tree of the chain. -/
theorem Expr.ofRun?_eq_map_ofChain (items : List Expr) :
    Expr.ofRun? items = (Chain.ofItems? items).map fun c => (OperatorTree.ofChain c).toExpr := by
  cases hc : Chain.ofItems? items with
  | some c =>
    obtain ⟨hspells, hgrouped⟩ := OperatorTree.ofChain_spells hc
    exact Expr.ofRun?_eq_some_iff.2 ⟨_, hspells, hgrouped, rfl⟩
  | none =>
    refine Option.eq_none_iff_forall_ne_some.2 fun e he => ?_
    obtain ⟨t, hspells, -⟩ := Expr.ofRun?_eq_some_iff.1 he
    rw [hspells.ofItems?] at hc
    cases hc

theorem Expr.ofRun?_single {x : Expr} (hx : x.isOperand) : Expr.ofRun? [x] = some x :=
  Expr.ofRun?_eq_some_iff.2 ⟨.leaf x, .leaf hx, trivial, rfl⟩

theorem Expr.ofRun?_pair {x y o : Expr} {op : Operator} (hx : x.isOperand) (ho : o.IsInfix op)
    (hy : y.isOperand) : Expr.ofRun? [x, o, y] = some (.binary op.symbol x y) :=
  Expr.ofRun?_eq_some_iff.2
    ⟨.node op (.leaf x) (.leaf y), .node ho (.leaf hx) (.leaf hy), OperatorTree.grouped_pair op x y, rfl⟩

/-- An operation is found for exactly the runs, and it is the only grouped tree over its run. -/
theorem ofRun?_spec (items : List Expr) :
    ((Expr.ofRun? items).isSome ↔ IsRun items) ∧
    ∀ e, Expr.ofRun? items = some e →
      ∃ t : OperatorTree, t.toExpr = e ∧ t.Spells items ∧ t.Grouped ∧
        ∀ s : OperatorTree, s.Spells items → s.Grouped → s = t := by
  refine ⟨?_, ?_⟩
  · rw [Option.isSome_iff_exists]
    constructor
    · rintro ⟨e, he⟩
      obtain ⟨t, hspells, -⟩ := Expr.exists_tree_of_ofRun? he
      exact hspells.isRun
    · exact Expr.exists_ofRun?_of_isRun
  · intro e he
    obtain ⟨t, hspells, hgrouped, rfl⟩ := Expr.exists_tree_of_ofRun? he
    exact ⟨t, rfl, hspells, hgrouped, fun s hs hgs =>
      OperatorTree.eq_of_spells_of_grouped hs hspells hgs hgrouped⟩

/-- The tree of `2 ** 3 ** 1 * 5`, which groups its powers to the right. -/
theorem ofRun?_powers :
    let sign (symbol : String) : Expr :=
      .group (Token.ofClass (ascii "PPI::Token::Operator") (ascii symbol) [] none) []
    let items := [.integer 2, sign "**", .integer 3, sign "**", .integer 1, sign "*", .integer 5]
    let e := Expr.binary (ascii "*")
      (.binary (ascii "**") (.integer 2) (.binary (ascii "**") (.integer 3) (.integer 1))) (.integer 5)
    Expr.ofRun? items = some e ∧
      ∃ t : OperatorTree, t.toExpr = e ∧ t.Spells items ∧ t.Grouped ∧
        ∀ s : OperatorTree, s.Spells items → s.Grouped → s = t := by
  intro sign items e
  have he : Expr.ofRun? items = some e := rfl
  exact ⟨he, (ofRun?_spec items).2 e he⟩

end TagFormula

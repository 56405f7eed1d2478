import TagFormula.Proofs.Replacement
import TagFormula.Proofs.Runs

/-!
The weight of an expression bounds its depth, and no rule makes it larger: a rule that puts new nodes
around items takes tokens away for them. A token counts twice, since a conditional has up to four nodes
that were not there before, for the two tokens of its signs.
-/

namespace TagFormula

namespace Expr

mutual
/-- Every node counts once, and a token twice. -/
def weight : Expr → Nat
  | .binary _ l r => weight l + weight r + 1
  | .unary _ x => weight x + 1
  | .conditional c y n => weight c + weight y + weight n + 1
  | .call _ args => weightAll args + 1
  | .repeated x n => weight x + weight n + 1
  | .regexMatch s _ _ _ => weight s + 1
  | .group _ [] => 2
  | .group _ (c :: rest) => weight c + weightAll rest + 1
  | _ => 1

def weightAll : List Expr → Nat
  | [] => 0
  | e :: es => weight e + weightAll es
end

theorem weight_pos (e : Expr) : 1 ≤ e.weight := by
  cases e with
  | group t parts => cases parts <;> simp [weight]
  | _ => simp [weight]

theorem two_le_weight_group (t : Token) (parts : List Expr) : 2 ≤ (group t parts).weight := by
  cases parts with
  | nil => simp [weight]
  | cons c rest =>
    have := weight_pos c
    simp only [weight]
    omega

theorem weight_group_of_ne_nil {parts : List Expr} (h : parts ≠ []) (t : Token) :
    (group t parts).weight = weightAll parts + 1 := by
  cases parts with
  | nil => exact absurd rfl h
  | cons c rest => simp [weight, weightAll]

theorem weightAll_append (a b : List Expr) : weightAll (a ++ b) = weightAll a + weightAll b := by
  induction a with
  | nil => simp [weightAll]
  | cons e a ih => simp [weightAll, ih]; omega

theorem weightAll_reverse (a : List Expr) : weightAll a.reverse = weightAll a := by
  induction a with
  | nil => rfl
  | cons e a ih => simp [weightAll, weightAll_append, ih]; omega

theorem weight_le_weightAll {c : Expr} {es : List Expr} (h : c ∈ es) : c.weight ≤ weightAll es := by
  induction es with
  | nil => cases h
  | cons e es ih =>
    rw [weightAll]
    rcases List.mem_cons.1 h with rfl | h
    · omega
    · have := ih h
      omega

/-- A group with lighter items is lighter. -/
theorem weight_group_le {t : Token} {items items' : List Expr} (h : weightAll items' ≤ weightAll items) :
    (group t items').weight ≤ (group t items).weight := by
  cases items' with
  | nil => exact two_le_weight_group t items
  | cons c rest =>
    have hitems : items ≠ [] := by
      rintro rfl
      have := weight_pos c
      simp only [weightAll] at h
      omega
    rw [weight_group_of_ne_nil hitems, weight_group_of_ne_nil (by simp)]
    omega

/-- Parts are lighter than the whole. -/
theorem weight_lt_of_mem_children {c e : Expr} (h : c ∈ e.children) : c.weight < e.weight := by
  cases e with
  | call name args =>
    rw [children] at h
    have := weight_le_weightAll h
    simp only [weight]
    omega
  | group t parts =>
    rw [children] at h
    have := weight_le_weightAll h
    rw [weight_group_of_ne_nil (List.ne_nil_of_mem h)]
    omega
  | regexMatch s p fl neg => cases s <;> simp_all [children, weight]
  | binary op l r =>
    simp only [children, List.mem_cons, List.not_mem_nil, or_false] at h
    rcases h with rfl | rfl <;> simp only [weight] <;> omega
  | unary op x => simp_all [children, weight]
  | conditional c y n =>
    simp only [children, List.mem_cons, List.not_mem_nil, or_false] at h
    rcases h with rfl | rfl | rfl <;> simp only [weight] <;> omega
  | repeated x n =>
    simp only [children, List.mem_cons, List.not_mem_nil, or_false] at h
    rcases h with rfl | rfl <;> simp only [weight] <;> omega
  | _ => cases h

theorem weightAll_map_le {f : Expr → Expr} {es : List Expr} (h : ∀ c ∈ es, (f c).weight ≤ c.weight) :
    weightAll (es.map f) ≤ weightAll es := by
  induction es with
  | nil => exact Nat.le_refl _
  | cons e es ih =>
    have he := h e (List.mem_cons_self ..)
    have hes := ih fun c hc => h c (List.mem_cons_of_mem _ hc)
    simp only [List.map_cons, weightAll]
    omega

theorem weight_mapChildren_le {f : Expr → Expr} {e : Expr}
    (h : ∀ c ∈ e.children, (f c).weight ≤ c.weight) : (e.mapChildren f).weight ≤ e.weight := by
  cases e with
  | call name args =>
    rw [children] at h
    have := weightAll_map_le h
    simp only [mapChildren, weight]
    omega
  | group t parts => exact weight_group_le (weightAll_map_le h)
  | regexMatch s p fl neg => cases s <;> simp_all [mapChildren, children, weight]
  | binary op l r =>
    have hl := h l (by simp [children])
    have hr := h r (by simp [children])
    simp only [mapChildren, weight]
    omega
  | unary op x => simpa [mapChildren, children, weight] using h
  | conditional c y n =>
    have hc := h c (by simp [children])
    have hy := h y (by simp [children])
    have hn := h n (by simp [children])
    simp only [mapChildren, weight]
    omega
  | repeated x n =>
    have hx := h x (by simp [children])
    have hn := h n (by simp [children])
    simp only [mapChildren, weight]
    omega
  | _ => exact Nat.le_refl _

/-- Items as one expression take at most one node more. -/
theorem weight_collapseOrWrap_le {items : List Expr} (h : items ≠ []) :
    (collapseOrWrap items).weight ≤ weightAll items + 1 := by
  match items with
  | [] => exact absurd rfl h
  | [e] => simp [collapseOrWrap, weightAll]
  | e :: d :: rest =>
    rw [collapseOrWrap, wrap, weight_group_of_ne_nil (by simp)]
    simp

theorem two_le_weight_of_isSymbol {e : Expr} {s : String} (h : e.isSymbol s) : 2 ≤ e.weight := by
  cases e with
  | group t parts => exact two_le_weight_group t parts
  | _ => simp [isSymbol, token?] at h

theorem two_le_weight_of_isOperator {e : Expr} (h : e.isOperator) : 2 ≤ e.weight := by
  cases e with
  | group t parts => exact two_le_weight_group t parts
  | _ => simp [isOperator, isKind, token?] at h

theorem two_le_weight_of_isComma {e : Expr} (h : e.isComma) : 2 ≤ e.weight := by
  rw [isComma, Bool.or_eq_true] at h
  exact h.elim two_le_weight_of_isSymbol two_le_weight_of_isSymbol

end Expr

open Expr

/-! ### What replaces items is no heavier -/

theorem weightAll_replaceAll_le {step : Expr → List Expr → Option (Expr × Nat)}
    (hstep : ∀ item rest e n, step item rest = some (e, n) →
      e.weight ≤ item.weight + weightAll (rest.take n)) (items : List Expr) :
    weightAll (replaceAll step items) ≤ weightAll items := by
  refine replaceAll_induct (P := fun items items' => weightAll items' ≤ weightAll items) ?_ ?_ ?_ items
  · exact Nat.le_refl _
  · intro item rest _ ih
    simp only [weightAll]
    omega
  · intro item rest e n hs ih
    have hrest := weightAll_append (rest.take n) (rest.drop n)
    rw [List.take_append_drop] at hrest
    have := hstep item rest e n hs
    simp only [weightAll]
    omega

theorem weight_reference?_le {item e : Expr} {rest : List Expr} {n : Nat}
    (h : Leaf.reference? item rest = some (e, n)) :
    e.weight ≤ item.weight + weightAll (rest.take n) := by
  have hone : e.weight = 1 := by
    rcases Leaf.reference?_cases h with ⟨i, rfl⟩ | ⟨name, rfl⟩ <;> rfl
  have := weight_pos item
  omega

namespace Call

theorem weightAll_flush_le (current args : List Expr) :
    weightAll (flush current args) ≤ weightAll current + 1 + weightAll args := by
  cases current with
  | nil => simp [flush]
  | cons e current =>
    have := weight_collapseOrWrap_le (List.reverse_ne_nil_iff.2 (List.cons_ne_nil e current))
    rw [weightAll_reverse] at this
    simp only [flush, List.isEmpty_cons, Bool.false_eq_true, if_false, weightAll] at this ⊢
    omega

/-- Arguments take one node more than their items; each comma pays for the argument behind it. -/
theorem weightAll_arguments_le (items : List Expr) :
    weightAll (arguments items) ≤ weightAll items + 1 := by
  have go : ∀ items current,
      weightAll (arguments.go current items) ≤ weightAll current + weightAll items + 1 := by
    intro items
    induction items with
    | nil =>
      intro current
      have := weightAll_flush_le current []
      simpa [arguments.go, weightAll] using this
    | cons item rest ih =>
      intro current
      rw [arguments.go, weightAll]
      split
      · rename_i hcomma
        have hitem := two_le_weight_of_isComma hcomma
        have hflush := weightAll_flush_le current (arguments.go [] rest)
        have hrest := ih []
        simp only [weightAll] at hrest
        omega
      · split
        · have := weight_collapseOrWrap_le (List.cons_ne_nil item rest)
          simp only [weightAll] at this ⊢
          omega
        · have := ih (item :: current)
          simp only [weightAll] at this
          omega
  have := go items []
  simpa [arguments, weightAll] using this

theorem weightAll_listItems_le (items : List Expr) : weightAll (listItems items) ≤ weightAll items := by
  unfold listItems
  split
  · rename_i t items
    split
    · cases items with
      | nil => simp [weightAll]
      | cons c rest =>
        simp only [weightAll, weight]
        omega
    · exact Nat.le_refl _
  · exact Nat.le_refl _

theorem unaryOperand_isPrefix (items : List Expr) : unaryOperand items <+: items := by
  have go : ∀ items ready, unaryOperand.go ready items <+: items := by
    intro items
    induction items with
    | nil => exact fun _ => List.prefix_refl _
    | cons item rest ih =>
      intro ready
      rw [unaryOperand.go]
      split
      · exact List.nil_prefix
      · split
        · exact (List.cons_prefix_cons).2 ⟨rfl, ih false⟩
        · split
          · exact (List.cons_prefix_cons).2 ⟨rfl, ih true⟩
          · exact List.nil_prefix
  exact go items true

theorem weight_ofWord?_le {word : Text} {e : Expr} {rest : List Expr} {n : Nat}
    (h : ofWord? word rest = some (e, n)) : e.weight ≤ 2 + weightAll (rest.take n) := by
  rcases ofWord?_cases h with ⟨t, items, after, rfl, -, rfl, rfl⟩ | ⟨bare, hbare, -, rfl, rfl⟩ |
    ⟨hne, rfl, rfl⟩
  · -- arguments in parentheses
    have hargs := weightAll_arguments_le (listItems items)
    have hitems := weightAll_listItems_le items
    cases items with
    | nil => simp [listItems, arguments, arguments.go, flush, weight, weightAll]
    | cons c more =>
      rw [List.take_succ_cons, weightAll, weight, weight_group_of_ne_nil (List.cons_ne_nil c more)]
      omega
  · -- everything behind a list operator
    have hargs := weightAll_arguments_le bare
    have htake : bare = rest.take bare.length := by
      rw [hbare]
      exact List.prefix_iff_eq_take.1 (List.takeWhile_prefix _)
    rw [weight, ← htake]
    omega
  · -- the operand of a named operator
    have hoperand := weight_collapseOrWrap_le hne
    rw [weight, weightAll, weightAll, ← List.prefix_iff_eq_take.1 (unaryOperand_isPrefix rest)]
    omega

theorem weight_grouped?_le {e inner : Expr} (h : grouped? e = some inner) :
    inner.weight ≤ e.weight := by
  obtain ⟨t, -, rfl⟩ := grouped?_eq_some h
  rw [weight]
  omega

theorem weight_step?_le {item e : Expr} {rest : List Expr} {n : Nat}
    (h : step? item rest = some (e, n)) : e.weight ≤ item.weight + weightAll (rest.take n) := by
  unfold step? at h
  split at h
  · rename_i r hr
    cases h
    obtain ⟨word, hword, hcall⟩ := Option.bind_eq_some_iff.1 hr
    have hitem : 2 ≤ item.weight := by
      cases item with
      | group t parts => exact two_le_weight_group t parts
      | _ => cases hword
    have := weight_ofWord?_le hcall
    omega
  · obtain ⟨inner, hinner, hpair⟩ := Option.map_eq_some_iff.1 h
    cases hpair
    have := weight_grouped?_le hinner
    omega

end Call

/-! ### Operations and conditionals -/

theorem Collapses.weightAll_le {items run : List Expr} (h : Collapses items run) :
    weightAll run ≤ weightAll items := by
  induction h with
  | last => exact Nat.le_refl _
  | operator _ _ _ ih =>
    simp only [weightAll] at ih ⊢
    omega
  | sign hp _ _ ih =>
    have := two_le_weight_of_isOperator (Expr.isOperator_of_isSign hp)
    simp only [weightAll, weight] at ih ⊢
    omega

theorem OperatorTree.Spells.weight_le {t : OperatorTree} {run : List Expr} (h : t.Spells run) :
    t.toExpr.weight ≤ weightAll run := by
  induction h with
  | leaf => exact Nat.le_refl _
  | @node op l r o left right ho _ _ ihl ihr =>
    have := two_le_weight_of_isOperator (Expr.isOperator_of_isInfix ho)
    rw [toExpr, weight, weightAll_append, weightAll]
    omega

theorem OperationOf.weight_le {items : List Expr} {e : Expr} (h : OperationOf items e) :
    e.weight ≤ weightAll items := by
  obtain ⟨run, t, hrun, hspells, -, rfl⟩ := h
  exact Nat.le_trans hspells.weight_le (collapses_iff_signedRun.2 hrun).weightAll_le

theorem Operation.weightAll_resolveRuns_le (items : List Expr) :
    weightAll (resolveRuns items) ≤ weightAll items := by
  have hrun : ∀ run, weightAll (resolved run) ≤ weightAll run := by
    intro run
    rcases resolved_cases run with ⟨e, -, hop, heq⟩ | ⟨-, heq⟩
    · rw [heq, weightAll, weightAll]
      exact hop.weight_le
    · rw [heq]
  induction items using runInduction with
  | run run h =>
    rw [resolveRuns_run h]
    exact hrun run
  | barrier run b rest h hb ih =>
    rw [resolveRuns_run_append h hb, weightAll_append, weightAll_append, weightAll, weightAll]
    have := hrun run
    omega

/-- The signs of a conditional pay for its node and for the groups around its parts. -/
theorem Conditional.weight_le_of_parts? {items test yes no : List Expr}
    (h : parts? items = some (test, yes, no)) :
    (Expr.conditional (collapseOrWrap test) (collapseOrWrap yes) (collapseOrWrap no)).weight
      ≤ weightAll items := by
  obtain ⟨q, k, hq, hk, rfl, -, htest, hyes, hno⟩ := parts?_eq_some h
  have hq := two_le_weight_of_isSymbol hq
  have hk := two_le_weight_of_isSymbol hk
  have htest := weight_collapseOrWrap_le htest
  have hyes := weight_collapseOrWrap_le hyes
  have hno := weight_collapseOrWrap_le hno
  simp only [weight, weightAll_append, weightAll]
  omega

/-! ### No rule makes an expression heavier -/

namespace Rule

/-- What a rule leaves is never heavier. -/
def Lightens (rule : Rule) : Prop := ∀ e, (apply e rule).weight ≤ e.weight

theorem lightens_of_reduce? {rule : Rule}
    (h : ∀ e next, rule.reduce? e = some next → next.weight ≤ e.weight) : rule.Lightens := by
  intro e
  cases hr : rule.reduce? e with
  | none => rw [apply_of_none hr]
  | some next =>
    rw [apply_of_some hr]
    exact h e next hr

theorem lightens_leaf : leaf.Lightens := by
  refine lightens_of_reduce? fun e next h => ?_
  cases e with
  | group t parts =>
    have htwo := two_le_weight_group t parts
    simp only [leaf, Leaf.reduce?] at h
    split at h
    · obtain ⟨l, -, rfl⟩ := Option.map_eq_some_iff.1 h
      exact weight_pos _
    · obtain ⟨s, -, rfl⟩ := Option.map_eq_some_iff.1 h
      exact weight_pos _
    · obtain ⟨m, -, rfl⟩ := Option.map_eq_some_iff.1 h
      exact htwo
    · split at h
      · cases h
        exact weight_pos _
      · obtain ⟨name, -, rfl⟩ := Option.map_eq_some_iff.1 h
        exact weight_pos _
    · obtain ⟨items, hitems, rfl⟩ := Option.map_eq_some_iff.1 h
      have hle := weightAll_replaceAll_le (fun _ _ _ _ => weight_reference?_le) parts
      rw [replaceAll, hitems, Option.getD_some] at hle
      exact weight_group_le hle
  | _ => cases h

theorem lightens_call : call.Lightens := by
  intro e
  cases e with
  | group t parts =>
    rw [apply_call_group]
    exact weight_group_le (weightAll_replaceAll_le (fun _ _ _ _ => Call.weight_step?_le) parts)
  | _ => exact Nat.le_refl _

theorem lightens_operation : operation.Lightens := by
  intro e
  cases e with
  | group t parts =>
    rw [apply_operation_group]
    split
    · exact Nat.le_refl _
    · exact weight_group_le (Operation.weightAll_resolveRuns_le parts)
  | _ => exact Nat.le_refl _

theorem lightens_conditional : conditional.Lightens := by
  refine lightens_of_reduce? fun e next h => ?_
  cases e with
  | group t parts =>
    simp only [conditional, Conditional.reduce?] at h
    split at h
    · cases h
    · obtain ⟨⟨test, yes, no⟩, hparts, rfl⟩ := Option.map_eq_some_iff.1 h
      exact weight_group_le (Conditional.weight_le_of_parts? hparts)
  | _ => cases h

theorem lightens_bindMatch : bindMatch.Lightens := by
  refine lightens_of_reduce? fun e next h => ?_
  simp only [bindMatch, Shape.bindMatch] at h
  split at h
  · split at h
    · cases h
      simp only [weight]
      omega
    · split at h
      · cases h
        simp only [weight]
        omega
      · cases h
  · cases h

theorem lightens_repetition : repetition.Lightens := by
  refine lightens_of_reduce? fun e next h => ?_
  simp only [repetition, Shape.repetition] at h
  split at h
  · split at h
    · cases h
      exact Nat.le_refl _
    · cases h
  · cases h

theorem lightens_guardedDivision : guardedDivision.Lightens := by
  refine lightens_of_reduce? fun e next h => ?_
  simp only [guardedDivision, Shape.guardedDivision] at h
  split at h
  · split at h
    · split at h
      all_goals
        cases h
        simp only [weight, weightAll]
        omega
    · cases h
  · cases h

theorem lightens_collapse : collapse.Lightens := by
  refine lightens_of_reduce? fun e next h => ?_
  simp only [collapse, Shape.collapse] at h
  split at h
  · split at h
    · cases h
      simp only [weight]
      omega
    · cases h
  · cases h

theorem lightens_of_mem_standard {rule : Rule} (h : rule ∈ standard) : rule.Lightens := by
  simp only [standard, List.mem_cons, List.not_mem_nil, or_false] at h
  rcases h with rfl | rfl | rfl | rfl | rfl | rfl | rfl | rfl
  · exact lightens_leaf
  · exact lightens_call
  · exact lightens_operation
  · exact lightens_bindMatch
  · exact lightens_conditional
  · exact lightens_repetition
  · exact lightens_guardedDivision
  · exact lightens_collapse

section

variable {rules : List Rule} (hrules : ∀ rule ∈ rules, rule.Lightens)

include hrules in
theorem weight_round?_le {e next : Expr} (h : round? rules e = some next) :
    next.weight ≤ e.weight := by
  have hfold : ∀ (rules : List Rule), (∀ rule ∈ rules, rule.Lightens) → ∀ e,
      (rules.foldl apply e).weight ≤ e.weight := by
    intro rules
    induction rules with
    | nil => exact fun _ _ => Nat.le_refl _
    | cons rule rest ih =>
      intro hall e
      have hrest := ih (fun r hr => hall r (List.mem_cons_of_mem _ hr)) (apply e rule)
      exact Nat.le_trans hrest (hall rule (List.mem_cons_self ..) e)
  have := hfold rules hrules e
  rwa [← round?_getD, h, Option.getD_some] at this

include hrules in
theorem weight_settle_le {below : Expr → Expr} (hbelow : ∀ c, (below c).weight ≤ c.weight) (n : Nat)
    (e : Expr) : (settle below rules n e).weight ≤ e.weight := by
  induction n generalizing e with
  | zero => exact Nat.le_refl _
  | succ n ih =>
    rw [settle]
    split
    · exact Nat.le_refl _
    · rename_i next hnext
      calc (settle below rules n (next.mapChildren below)).weight
          ≤ (next.mapChildren below).weight := ih _
        _ ≤ next.weight := weight_mapChildren_le fun c _ => hbelow c
        _ ≤ e.weight := weight_round?_le hrules hnext

include hrules in
theorem weight_normalizeWithin_le (levels : Nat) (e : Expr) :
    (normalizeWithin rules levels e).weight ≤ e.weight := by
  induction levels generalizing e with
  | zero => exact Nat.le_refl _
  | succ levels ih =>
    by_cases he : e = .hole
    · rw [he, normalizeWithin_hole]
    · rw [normalizeWithin_succ levels he]
      exact Nat.le_trans (weight_settle_le hrules ih _ _) (weight_mapChildren_le fun c _ => ih c)

end

end Rule
end TagFormula

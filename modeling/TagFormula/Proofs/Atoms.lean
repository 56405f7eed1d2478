import TagFormula.Proofs.Regrouping

/-!
The atoms of an expression from left to right: literals, references, patterns, and tokens that stand for
something themselves. Operators and words are spent on operations and calls, and groups on nothing at all.
Main statement: the rules that put items together neither lose an atom nor repeat one nor change their
order, whichever of them are at work.
-/

namespace TagFormula

/-- What an expression is made of. -/
inductive Atom where
  | literal (l : Literal)
  | value
  | element (index : Int64)
  | field (name : Text)
  | pattern (pattern flags : Text)
  | token (t : Token)
  deriving DecidableEq

/-- Kinds of token that only join or hold others. -/
def TokenKind.isStructural (kind : TokenKind) : Bool :=
  kind = .operator || kind = .word || kind = .document || kind = .statement || kind = .expression
    || kind = .list

namespace Expr

mutual
/-- The atoms from left to right. A pattern comes behind what it is matched with. -/
def atoms : Expr → List Atom
  | .hole => []
  | .literal l => [.literal l]
  | .value => [.value]
  | .element i => [.element i]
  | .field name => [.field name]
  | .binary _ l r => atoms l ++ atoms r
  | .unary _ x => atoms x
  | .conditional c y n => atoms c ++ (atoms y ++ atoms n)
  | .call _ args => atomsAll args
  | .repeated x n => atoms x ++ atoms n
  | .regexMatch s p fl _ => atoms s ++ [.pattern p fl]
  | .group t parts => (if parts.isEmpty && !t.kind.isStructural then [.token t] else []) ++ atomsAll parts

def atomsAll : List Expr → List Atom
  | [] => []
  | e :: es => atoms e ++ atomsAll es
end

/-- Operators and words have no parts, in the whole expression. -/
inductive LeafTokens : Expr → Prop
  | node {e : Expr} (h : e.isOperator ∨ e.isWord → e.children = [])
      (hc : ∀ c ∈ e.children, LeafTokens c) : LeafTokens e

@[simp] theorem atomsAll_append (a b : List Expr) : atomsAll (a ++ b) = atomsAll a ++ atomsAll b := by
  induction a with
  | nil => rfl
  | cons e a ih => rw [List.cons_append, atomsAll, ih, atomsAll, List.append_assoc]

theorem atoms_group {parts : List Expr} (h : parts ≠ []) (t : Token) :
    (group t parts).atoms = atomsAll parts := by
  simp [atoms, h]

theorem atoms_structure {t : Token} (h : t.kind.isStructural) (parts : List Expr) :
    (group t parts).atoms = atomsAll parts := by
  simp [atoms, h]

theorem LeafTokens.of_mem {e c : Expr} (h : e.LeafTokens) (hc : c ∈ e.children) : c.LeafTokens := by
  cases h with
  | node _ hparts => exact hparts c hc

theorem LeafTokens.children_eq_nil {e : Expr} (h : e.LeafTokens) (he : e.isOperator ∨ e.isWord) :
    e.children = [] := by
  cases h with
  | node hleaf _ => exact hleaf he

/-- An expression that is no token has leaves for tokens if its parts do. -/
theorem leafTokens_of_token?_eq_none {e : Expr} (h : e.token? = none)
    (hc : ∀ c ∈ e.children, c.LeafTokens) : e.LeafTokens := by
  refine .node ?_ hc
  rintro (he | he) <;> simp [isOperator, isWord, isKind, h] at he

theorem leafTokens_group_iff {t : Token} {items : List Expr} : (group t items).LeafTokens ↔
    (t.kind = .operator ∨ t.kind = .word → items = []) ∧ ∀ c ∈ items, c.LeafTokens := by
  have hkind : (group t items).isOperator ∨ (group t items).isWord ↔
      t.kind = .operator ∨ t.kind = .word := by
    simp [isOperator, isWord, isKind, token?]
  refine ⟨fun h => ⟨fun hk => h.children_eq_nil (hkind.2 hk), fun c hc => h.of_mem hc⟩, fun h => ?_⟩
  exact .node (fun hk => h.1 (hkind.1 hk)) h.2

/-- Operators and words are no atoms. -/
theorem atoms_of_isOperator {e : Expr} (h : e.LeafTokens) (he : e.isOperator) : e.atoms = [] := by
  obtain ⟨t, parts, rfl, hk⟩ := isOperator_iff.1 he
  have hparts : parts = [] := h.children_eq_nil (Or.inl he)
  rw [hparts, atoms_structure (by simp [TokenKind.isStructural, hk]), atomsAll]

theorem atoms_collapseOrWrap (items : List Expr) : (collapseOrWrap items).atoms = atomsAll items := by
  unfold collapseOrWrap
  split
  · simp [atomsAll]
  · exact atoms_structure (t := ⟨.expression, _, _, _, _⟩) rfl items

theorem leafTokens_collapseOrWrap {items : List Expr} (h : ∀ c ∈ items, c.LeafTokens) :
    (collapseOrWrap items).LeafTokens := by
  unfold collapseOrWrap
  split
  · exact h _ (List.mem_singleton_self _)
  · exact leafTokens_group_iff.2 ⟨by simp, h⟩

/-! ### Parts -/

theorem atomsAll_map {f : Expr → Expr} {es : List Expr} (h : ∀ c ∈ es, (f c).atoms = c.atoms) :
    atomsAll (es.map f) = atomsAll es := by
  induction es with
  | nil => rfl
  | cons e es ih =>
    rw [List.map_cons, atomsAll, atomsAll, h e (List.mem_cons_self ..),
      ih fun c hc => h c (List.mem_cons_of_mem _ hc)]

theorem atoms_mapChildren {f : Expr → Expr} {e : Expr} (h : ∀ c ∈ e.children, (f c).atoms = c.atoms) :
    (e.mapChildren f).atoms = e.atoms := by
  cases e with
  | call name args => exact atomsAll_map h
  | group t parts =>
    rw [children] at h
    rw [mapChildren, atoms, atoms, atomsAll_map h, List.isEmpty_map]
  | regexMatch s p fl neg => cases s <;> simp_all [mapChildren, children, atoms]
  | _ => simp_all [mapChildren, children, atoms]

theorem LeafTokens.mapChildren {f : Expr → Expr} {e : Expr} (h : e.LeafTokens)
    (hf : ∀ c ∈ e.children, (f c).LeafTokens) : (e.mapChildren f).LeafTokens := by
  have hparts : ∀ d ∈ (e.mapChildren f).children, d.LeafTokens := by
    intro d hd
    obtain ⟨c, hc, rfl⟩ := exists_of_mem_children_mapChildren hd
    exact hf c hc
  cases e with
  | group t parts =>
    refine leafTokens_group_iff.2 ⟨fun hk => ?_, hparts⟩
    rw [(leafTokens_group_iff.1 h).1 hk, List.map_nil]
  | _ => exact leafTokens_of_token?_eq_none (by rw [Rule.token?_mapChildren]; rfl) hparts

end Expr

open Expr Relation

/-! ### What takes the place of items -/

section

variable {items : List Expr} (hitems : ∀ x ∈ items, x.LeafTokens)
include hitems

theorem Call.Arguments.atoms {args : List Expr} (h : Call.Arguments items args) :
    atomsAll args = atomsAll items ∧ ∀ a ∈ args, a.LeafTokens := by
  induction h with
  | nil => exact ⟨rfl, hitems⟩
  | @comma c items args hc _ ih =>
    have hcomma := atoms_of_isOperator (hitems c (by simp)) (isOperator_of_isBarrier (isBarrier_of_isComma hc))
    obtain ⟨hatoms, hleaf⟩ := ih fun x hx => hitems x (by simp [hx])
    exact ⟨by rw [atomsAll, hcomma, hatoms, List.nil_append], hleaf⟩
  | last =>
    refine ⟨by rw [atomsAll, atoms_collapseOrWrap, atomsAll, List.append_nil], ?_⟩
    simpa using leafTokens_collapseOrWrap hitems
  | @next c items rest args _ hc _ ih =>
    have hcomma := atoms_of_isOperator (hitems c (by simp)) (isOperator_of_isBarrier (isBarrier_of_isComma hc))
    obtain ⟨hatoms, hleaf⟩ := ih fun x hx => hitems x (by simp [hx])
    have hargument : (collapseOrWrap items).LeafTokens :=
      leafTokens_collapseOrWrap fun x hx => hitems x (by simp [hx])
    refine ⟨?_, by simpa using ⟨hargument, hleaf⟩⟩
    rw [atomsAll, atoms_collapseOrWrap, hatoms, atomsAll_append, atomsAll, hcomma, List.nil_append]

theorem Call.atoms_listItems : atomsAll (Call.listItems items) = atomsAll items ∧
    ∀ x ∈ Call.listItems items, x.LeafTokens := by
  unfold Call.listItems
  split
  · rename_i t parts
    split
    · rename_i ht
      rw [Bool.or_eq_true, decide_eq_true_eq, decide_eq_true_eq] at ht
      have hstructure : t.kind.isStructural := by
        rcases ht with ht | ht <;> simp [TokenKind.isStructural, ht]
      refine ⟨by rw [atomsAll, atoms_structure hstructure, atomsAll, List.append_nil], fun x hx => ?_⟩
      exact (hitems _ (List.mem_singleton_self _)).of_mem hx
    · exact ⟨rfl, hitems⟩
  · exact ⟨rfl, hitems⟩

theorem Collapses.atoms {run : List Expr} (h : Collapses items run) :
    atomsAll run = atomsAll items ∧ ∀ x ∈ run, x.LeafTokens := by
  induction h with
  | last => exact ⟨rfl, hitems⟩
  | @operator x o op rest run _ _ _ ih =>
    obtain ⟨hatoms, hleaf⟩ := ih fun y hy => hitems y (by simp [hy])
    refine ⟨by simp only [atomsAll, hatoms], ?_⟩
    simpa using ⟨hitems x (by simp), hitems o (by simp), hleaf⟩
  | @sign p x symbol rest run hp _ _ ih =>
    obtain ⟨hatoms, hleaf⟩ := ih fun y hy => hitems y (by simp [hy])
    have hsign := atoms_of_isOperator (hitems p (by simp)) (isOperator_of_isSign hp)
    refine ⟨by rw [atomsAll, atomsAll, hsign, ← hatoms]; rfl, ?_⟩
    rw [List.forall_mem_cons] at hleaf ⊢
    exact ⟨leafTokens_of_token?_eq_none rfl (by simpa [children] using hleaf.1), hleaf.2⟩

theorem OperatorTree.Spells.atoms {t : OperatorTree} (h : t.Spells items) :
    t.toExpr.atoms = atomsAll items ∧ t.toExpr.LeafTokens := by
  induction h with
  | @leaf x => exact ⟨by simp [toExpr, atomsAll], hitems x (by simp)⟩
  | @node op l r o left right ho _ _ ihl ihr =>
    obtain ⟨hl, hleft⟩ := ihl fun y hy => hitems y (by simp [hy])
    obtain ⟨hr, hright⟩ := ihr fun y hy => hitems y (by simp [hy])
    have hoperator := atoms_of_isOperator (hitems o (by simp)) (isOperator_of_isInfix ho)
    refine ⟨?_, leafTokens_of_token?_eq_none rfl (by simpa [toExpr, children] using ⟨hleft, hright⟩)⟩
    rw [toExpr, Expr.atoms, hl, hr, atomsAll_append, atomsAll, hoperator, List.nil_append]

end

/-- What takes the place of a stretch of items has the atoms of the stretch. -/
theorem Becomes.atoms {stretch : List Expr} {x : Expr} (h : Becomes stretch x)
    (hleaf : ∀ y ∈ stretch, y.LeafTokens) : x.atoms = atomsAll stretch ∧ x.LeafTokens := by
  have hword : ∀ {t : Token} {parts : List Expr}, t.kind = .word → Expr.group t parts ∈ stretch →
      (Expr.group t parts).atoms = [] := by
    intro t parts ht hmem
    have hparts : parts = [] :=
      (hleaf _ hmem).children_eq_nil (Or.inr (by simp [isWord, isKind, token?, ht]))
    rw [hparts, atoms_structure (by simp [TokenKind.isStructural, ht]), atomsAll]
  cases h with
  | @opened t x =>
    refine ⟨by simp [atomsAll, atoms_group], ?_⟩
    exact (hleaf _ (List.mem_singleton_self _)).of_mem (by simp [children])
  | called ht hargs =>
    obtain ⟨hatoms, hargs⟩ := hargs.atoms fun y hy => hleaf y (by simp [hy])
    refine ⟨by rw [atomsAll, hword ht (by simp), List.nil_append, ← hatoms]; rfl, ?_⟩
    exact leafTokens_of_token?_eq_none rfl hargs
  | @calledWith t u parts inside args ht hu hargs =>
    have hinside : ∀ y ∈ inside, y.LeafTokens := fun y hy =>
      (hleaf (.group u inside) (by simp)).of_mem (by simpa [children] using hy)
    obtain ⟨hitems, hleaves⟩ := Call.atoms_listItems hinside
    obtain ⟨hatoms, hargs⟩ := hargs.atoms hleaves
    refine ⟨?_, leafTokens_of_token?_eq_none rfl hargs⟩
    rw [atomsAll, hword ht (by simp), atomsAll, atoms_structure (by simp [TokenKind.isStructural, hu]),
      ← hitems, ← hatoms, Expr.atoms, atomsAll, List.append_nil, List.nil_append]
  | operation hlength h =>
    obtain ⟨run, t, hrun, hspells, -, rfl⟩ := h
    obtain ⟨hsigns, hleaves⟩ := (collapses_iff_signedRun.2 hrun).atoms hleaf
    obtain ⟨hatoms, hexpr⟩ := hspells.atoms hleaves
    exact ⟨hatoms.trans hsigns, hexpr⟩
  | @conditional test yes no q k hq hk =>
    have hq := atoms_of_isOperator (hleaf q (by simp)) (isOperator_of_isSymbol hq)
    have hk := atoms_of_isOperator (hleaf k (by simp)) (isOperator_of_isSymbol hk)
    have hpart : ∀ part, (∀ y ∈ part, y ∈ test ++ q :: (yes ++ k :: no)) →
        (collapseOrWrap part).LeafTokens := fun part hpart =>
      leafTokens_collapseOrWrap fun y hy => hleaf y (hpart y hy)
    refine ⟨?_, leafTokens_of_token?_eq_none rfl ?_⟩
    · simp only [Expr.atoms, atoms_collapseOrWrap, atomsAll_append, atomsAll, hq, hk, List.nil_append]
    · simp only [children, List.mem_cons, List.not_mem_nil, or_false]
      rintro c (rfl | rfl | rfl)
      · exact hpart test (by simp +contextual)
      · exact hpart yes (by simp +contextual)
      · exact hpart no (by simp +contextual)

theorem Replaces.atoms {items items' : List Expr} (h : TransGen (Replaces Becomes) items items')
    (hleaf : ∀ x ∈ items, x.LeafTokens) :
    atomsAll items' = atomsAll items ∧ ∀ x ∈ items', x.LeafTokens := by
  have hone : ∀ {a b}, Replaces Becomes a b → (∀ x ∈ a, x.LeafTokens) →
      atomsAll b = atomsAll a ∧ ∀ x ∈ b, x.LeafTokens := by
    rintro _ _ ⟨front, hx, back⟩ hall
    simp only [List.mem_append, or_imp, forall_and] at hall
    obtain ⟨hatoms, hleaf⟩ := hx.atoms hall.2.1
    refine ⟨by simp [atomsAll, hatoms], ?_⟩
    simpa [or_imp, forall_and] using ⟨hall.1, hleaf, hall.2.2⟩
  induction h with
  | single h => exact hone h hleaf
  | tail _ h ih =>
    obtain ⟨hatoms, hall⟩ := hone h ih.2
    exact ⟨hatoms.trans ih.1, hall⟩

theorem Becomes.ne_nil {stretch : List Expr} {x : Expr} (h : Becomes stretch x) : stretch ≠ [] := by
  cases h with
  | operation hlength => exact List.ne_nil_of_length_pos (by omega)
  | _ => simp

theorem Replaces.ne_nil {items items' : List Expr} (h : TransGen (Replaces Becomes) items items') :
    items ≠ [] ∧ items' ≠ [] := by
  have hone : ∀ {a b}, Replaces Becomes a b → a ≠ [] ∧ b ≠ [] := by
    rintro _ _ ⟨front, hx, back⟩
    simp [hx.ne_nil]
  induction h with
  | single h => exact hone h
  | tail _ h ih => exact ⟨ih.1, (hone h).2⟩

/-! ### Rules that keep the atoms -/

namespace Rule

/-- Where a rule applies, the atoms stay the same, and operators and words stay without parts. -/
def KeepsAtoms (rule : Rule) : Prop := ∀ e next, e.LeafTokens → rule.reduce? e = some next →
  next.atoms = e.atoms ∧ next.LeafTokens

theorem keepsAtoms_of_mem_group {rule : Rule} (hrule : rule ∈ [call, operation, conditional]) :
    rule.KeepsAtoms := by
  intro e next he h
  cases e with
  | group t items =>
    obtain ⟨items', rfl, hreplaces⟩ := replaces_of_reduce? hrule h
    obtain ⟨hatoms, hleaf⟩ := Replaces.atoms hreplaces fun x hx => he.of_mem hx
    obtain ⟨hitems, hitems'⟩ := Replaces.ne_nil hreplaces
    have hparts := (leafTokens_group_iff.1 he).1
    refine ⟨by rw [atoms_group hitems, atoms_group hitems', hatoms], ?_⟩
    exact leafTokens_group_iff.2 ⟨fun hk => absurd (hparts hk) hitems, hleaf⟩
  | _ =>
    simp only [List.mem_cons, List.not_mem_nil, or_false] at hrule
    rcases hrule with rfl | rfl | rfl <;> cases h

theorem keepsAtoms_bindMatch : bindMatch.KeepsAtoms := by
  intro e next he h
  simp only [bindMatch, Shape.bindMatch] at h
  split at h
  · rename_i op subject p fl neg
    have hbound : ∀ neg', (Expr.regexMatch subject p fl neg').atoms
          = (Expr.binary op subject (.regexMatch .hole p fl neg)).atoms ∧
        (Expr.regexMatch subject p fl neg').LeafTokens := by
      intro neg'
      refine ⟨by simp [atoms], leafTokens_of_token?_eq_none rfl fun c hc => ?_⟩
      have hc : c = subject := by cases subject <;> simp_all [children]
      exact he.of_mem (by simp [hc, children])
    split at h
    · cases h
      exact hbound false
    · split at h
      · cases h
        exact hbound true
      · cases h
  · cases h

theorem keepsAtoms_repetition : repetition.KeepsAtoms := by
  intro e next he h
  simp only [repetition, Shape.repetition] at h
  split at h
  · split at h
    · cases h
      exact ⟨rfl, leafTokens_of_token?_eq_none rfl fun c hc => he.of_mem hc⟩
    · cases h
  · cases h

theorem keepsAtoms_collapse : collapse.KeepsAtoms := by
  intro e next he h
  cases e with
  | group t items =>
    obtain rfl := eq_single_of_collapse h
    refine ⟨by rw [atoms_group (by simp), atomsAll, atomsAll, List.append_nil], ?_⟩
    exact he.of_mem (by simp [children])
  | _ => cases h

section

variable {rules : List Rule} (hrules : ∀ rule ∈ rules, rule.KeepsAtoms)
include hrules

theorem atoms_round? {e next : Expr} (he : e.LeafTokens) (h : round? rules e = some next) :
    next.atoms = e.atoms ∧ next.LeafTokens := by
  have hfold : ∀ (rules : List Rule), (∀ rule ∈ rules, rule.KeepsAtoms) → ∀ e : Expr, e.LeafTokens →
      (rules.foldl apply e).atoms = e.atoms ∧ (rules.foldl apply e).LeafTokens := by
    intro rules
    induction rules with
    | nil => exact fun _ e he => ⟨rfl, he⟩
    | cons rule rest ih =>
      intro hall e he
      have hrest := ih fun r hr => hall r (List.mem_cons_of_mem _ hr)
      cases hr : rule.reduce? e with
      | none =>
        rw [List.foldl_cons, apply_of_none hr]
        exact hrest e he
      | some m =>
        obtain ⟨hm, hleaf⟩ := hall rule (List.mem_cons_self ..) e m he hr
        rw [List.foldl_cons, apply_of_some hr, ← hm]
        exact hrest m hleaf
  have := hfold rules hrules e he
  rwa [← round?_getD, h, Option.getD_some] at this

theorem atoms_settle {below : Expr → Expr}
    (hbelow : ∀ c : Expr, c.LeafTokens → (below c).atoms = c.atoms ∧ (below c).LeafTokens) (n : Nat)
    {e : Expr} (he : e.LeafTokens) :
    (settle below rules n e).atoms = e.atoms ∧ (settle below rules n e).LeafTokens := by
  induction n generalizing e with
  | zero => exact ⟨rfl, he⟩
  | succ n ih =>
    rw [settle]
    split
    · exact ⟨rfl, he⟩
    · rename_i next hnext
      obtain ⟨hatoms, hleaf⟩ := atoms_round? hrules he hnext
      have hparts := atoms_mapChildren fun c hc => (hbelow c (hleaf.of_mem hc)).1
      obtain ⟨hsettle, hsettled⟩ := ih (hleaf.mapChildren fun c hc => (hbelow c (hleaf.of_mem hc)).2)
      exact ⟨hsettle.trans (hparts.trans hatoms), hsettled⟩

theorem atoms_normalizeWithin (levels : Nat) {e : Expr} (he : e.LeafTokens) :
    (normalizeWithin rules levels e).atoms = e.atoms ∧ (normalizeWithin rules levels e).LeafTokens := by
  induction levels generalizing e with
  | zero => exact ⟨rfl, he⟩
  | succ levels ih =>
    by_cases hhole : e = .hole
    · rw [hhole, normalizeWithin_hole]
      exact ⟨rfl, hhole ▸ he⟩
    · have hparts := atoms_mapChildren fun c hc => (ih (he.of_mem hc)).1
      obtain ⟨hatoms, hleaf⟩ := atoms_settle hrules (fun c => ih) maxRounds
        (he.mapChildren fun c hc => (ih (he.of_mem hc)).2)
      rw [normalizeWithin_succ levels hhole]
      exact ⟨hatoms.trans hparts, hleaf⟩

end

/-- The rules that put items together, in their order. -/
def joining : List Rule := [call, operation, bindMatch, conditional, repetition, collapse]

theorem keepsAtoms_of_mem_joining {rule : Rule} (h : rule ∈ joining) : rule.KeepsAtoms := by
  simp only [joining, List.mem_cons, List.not_mem_nil, or_false] at h
  rcases h with rfl | rfl | rfl | rfl | rfl | rfl
  · exact keepsAtoms_of_mem_group (by simp)
  · exact keepsAtoms_of_mem_group (by simp)
  · exact keepsAtoms_bindMatch
  · exact keepsAtoms_of_mem_group (by simp)
  · exact keepsAtoms_repetition
  · exact keepsAtoms_collapse

/-- Whichever of these rules are at work, and however deep the expression is, the normal form has the atoms
of the expression in their order. -/
theorem atoms_normalize (rules : List Rule) (hrules : rules.Sublist joining) (e : Expr)
    (he : e.LeafTokens) : (normalize rules e).atoms = e.atoms :=
  (atoms_normalizeWithin (fun _ h => keepsAtoms_of_mem_joining (hrules.mem h)) (maxDepth + 1) he).1

/-- `join($val, -1) ? 'a' : (2)`, as tokens. -/
def chosenText : Expr :=
  let token kind content parts := Expr.group ⟨kind, [], ascii content, [], none⟩ parts
  token .document "" [token .statement "" [token .word "join" [],
    token .list "" [token .expression "" [token .symbol "$val" [], token .operator "," [],
      token .operator "-" [], token .number "1" []]],
    token .operator "?" [], token .quote "'a'" [], token .operator ":" [],
    token .list "" [token .number "2" []]]]

theorem atoms_normalize_chosenText : chosenText.LeafTokens ∧ (normalize joining chosenText).atoms
    = [(TokenKind.symbol, "$val"), (.number, "1"), (.quote, "'a'"), (.number, "2")].map
        fun t => .token ⟨t.1, [], ascii t.2, [], none⟩ := by
  have hleaf : chosenText.LeafTokens := by
    simp [chosenText, leafTokens_group_iff]
  exact ⟨hleaf, (atoms_normalize joining (.refl _) chosenText hleaf).trans rfl⟩

end Rule
end TagFormula

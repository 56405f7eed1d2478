import TagFormula.Proofs.ReadingBack
import TagFormula.Proofs.Weight

/-!
The limit on the depth. Parts below it stay as they are, so a normal form may depend on it. Main
statement: as long as nothing that a rule would still change lies below the limit, the normal form is
the one without a limit, and light trees never come to it. Where the limit hides a part for a round,
rules can group the parts around it in another way: the normal form may then be canonical, and still not
the one without a limit.
-/

namespace TagFormula

/-- What holds for each of finitely many expressions from some number on holds for all from one on. -/
theorem exists_bound_forall_mem {P : Nat → Expr → Prop} {es : List Expr}
    (h : ∀ e ∈ es, ∃ bound, ∀ n, bound ≤ n → P n e) : ∃ bound, ∀ n, bound ≤ n → ∀ e ∈ es, P n e := by
  induction es with
  | nil => exact ⟨0, fun _ _ _ he => by cases he⟩
  | cons e es ih =>
    obtain ⟨b, hb⟩ := h e (List.mem_cons_self ..)
    obtain ⟨d, hd⟩ := ih fun c hc => h c (List.mem_cons_of_mem _ hc)
    refine ⟨max b d, fun n hn c hc => ?_⟩
    rcases List.mem_cons.1 hc with rfl | hc
    · exact hb n (by omega)
    · exact hd n (by omega) c hc

namespace Rule

/-- Rounds at a node come to a part for which `meets` holds. -/
def SettleMeets (below : Expr → Expr) (meets : Expr → Prop) (rules : List Rule) : Nat → Expr → Prop
  | 0, _ => False
  | n + 1, e =>
    match round? rules e with
    | none => False
    | some next =>
      (∃ c ∈ next.children, meets c) ∨ SettleMeets below meets rules n (next.mapChildren below)

/-- The way to the normal form comes to an expression with the property `P` where no level is left. -/
def MeetsLimit (rules : List Rule) (P : Expr → Prop) : Nat → Expr → Prop
  | 0, e => P e
  | _ + 1, .hole => False
  | levels + 1, e =>
    let meets := MeetsLimit rules P levels
    let below := normalizeWithin rules levels
    (∃ c ∈ e.children, meets c) ∨ SettleMeets below meets rules maxRounds (e.mapChildren below)

/-- Something that a rule would still change lies below the limit. -/
def CutShort (rules : List Rule) (levels : Nat) (e : Expr) : Prop :=
  MeetsLimit rules (fun c => ¬Settled rules c) levels e

/-- The normal form without a limit on the depth: some number of levels is enough to come to no limit. -/
def NormalForm (rules : List Rule) (e r : Expr) : Prop :=
  ∃ levels, ¬MeetsLimit rules (fun _ => True) levels e ∧ normalizeWithin rules levels e = r

variable {rules : List Rule}

theorem meetsLimit_succ {P : Expr → Prop} {e : Expr} (levels : Nat) (h : e ≠ .hole) :
    MeetsLimit rules P (levels + 1) e ↔ (∃ c ∈ e.children, MeetsLimit rules P levels c) ∨
      SettleMeets (normalizeWithin rules levels) (MeetsLimit rules P levels) rules maxRounds
        (e.mapChildren (normalizeWithin rules levels)) := by
  rw [MeetsLimit]
  exact h

theorem SettleMeets.imp {below : Expr → Expr} {P Q : Expr → Prop} (h : ∀ e, P e → Q e) {n : Nat}
    {e : Expr} (hm : SettleMeets below P rules n e) : SettleMeets below Q rules n e := by
  induction n generalizing e with
  | zero => exact hm
  | succ n ih =>
    rw [SettleMeets] at hm ⊢
    split at hm
    · exact hm
    · rcases hm with ⟨c, hc, hp⟩ | hm
      · exact Or.inl ⟨c, hc, h c hp⟩
      · exact Or.inr (ih hm)

theorem MeetsLimit.imp {P Q : Expr → Prop} (h : ∀ e, P e → Q e) {levels : Nat} {e : Expr}
    (hm : MeetsLimit rules P levels e) : MeetsLimit rules Q levels e := by
  induction levels generalizing e with
  | zero => exact h e hm
  | succ levels ih =>
    by_cases he : e = .hole
    · rw [he] at hm
      exact hm.elim
    · rw [meetsLimit_succ levels he] at hm ⊢
      rcases hm with ⟨c, hc, hm⟩ | hm
      · exact Or.inl ⟨c, hc, ih hm⟩
      · exact Or.inr (hm.imp fun _ => ih)

/-! ### The limit and the normal form -/

/-- A settled expression is entered to its own depth only. -/
theorem Settled.exists_not_meetsLimit {e : Expr} (h : Settled rules e) :
    ∃ bound, ∀ n, bound ≤ n → ¬MeetsLimit rules (fun _ => True) n e := by
  induction h with
  | hole =>
    refine ⟨1, fun n hn hm => ?_⟩
    cases n with
    | zero => omega
    | succ n => exact hm
  | @node e hd hc ih =>
    obtain ⟨bound, hbound⟩ := exists_bound_forall_mem ih
    refine ⟨bound + 1, fun n hn hm => ?_⟩
    cases n with
    | zero => omega
    | succ n =>
      by_cases he : e = .hole
      · rw [he] at hm
        exact hm
      · rw [meetsLimit_succ n he, Settled.mapChildren hc] at hm
        rcases hm with ⟨c, hmem, hm⟩ | hm
        · exact hbound n (by omega) c hmem hm
        · rw [maxRounds, SettleMeets, round?_eq_none_iff.2 hd] at hm
          exact hm

/-- Rounds give the same with more levels, if the parts do. -/
theorem exists_settle_eq {levels : Nat}
    (ih : ∀ c, ¬CutShort rules levels c → ∃ bound, ∀ n, bound ≤ n →
      ¬MeetsLimit rules (fun _ => True) n c ∧ normalizeWithin rules n c = normalizeWithin rules levels c)
    {rounds : Nat} {e : Expr}
    (h : ¬SettleMeets (normalizeWithin rules levels) (CutShort rules levels) rules rounds e) :
    ∃ bound, ∀ n, bound ≤ n →
      ¬SettleMeets (normalizeWithin rules n) (MeetsLimit rules (fun _ => True) n) rules rounds e ∧
        settle (normalizeWithin rules n) rules rounds e
          = settle (normalizeWithin rules levels) rules rounds e := by
  induction rounds generalizing e with
  | zero => exact ⟨0, fun _ _ => ⟨id, rfl⟩⟩
  | succ rounds ihr =>
    cases hr : round? rules e with
    | none => exact ⟨0, fun n _ => by simp [SettleMeets, settle, hr]⟩
    | some next =>
      simp only [SettleMeets, hr, not_or, not_exists, not_and] at h
      obtain ⟨b, hb⟩ := exists_bound_forall_mem fun c hc => ih c (h.1 c hc)
      obtain ⟨d, hd⟩ := ihr h.2
      refine ⟨max b d, fun n hn => ?_⟩
      have hparts := hb n (by omega)
      have hmap : next.mapChildren (normalizeWithin rules n)
          = next.mapChildren (normalizeWithin rules levels) :=
        Expr.mapChildren_congr fun c hc => (hparts c hc).2
      obtain ⟨hmeets, hsettle⟩ := hd n (by omega)
      simp only [SettleMeets, settle, hr, hmap, not_or, not_exists, not_and]
      exact ⟨⟨fun c hc => (hparts c hc).1, hmeets⟩, hsettle⟩

/-- With enough levels, no limit is met and the normal form is the same. -/
theorem exists_normalizeWithin_eq {levels : Nat} {e : Expr} (h : ¬CutShort rules levels e) :
    ∃ bound, ∀ n, bound ≤ n → ¬MeetsLimit rules (fun _ => True) n e ∧
      normalizeWithin rules n e = normalizeWithin rules levels e := by
  induction levels generalizing e with
  | zero =>
    have hsettled : Settled rules e := Classical.not_not.1 h
    obtain ⟨bound, hbound⟩ := hsettled.exists_not_meetsLimit
    exact ⟨bound, fun n hn => ⟨hbound n hn, normalizeWithin_of_settled hsettled n⟩⟩
  | succ levels ih =>
    by_cases he : e = .hole
    · refine ⟨1, fun n hn => ?_⟩
      obtain ⟨n, rfl⟩ := Nat.exists_eq_add_of_le' hn
      rw [he]
      exact ⟨id, rfl⟩
    · rw [CutShort, meetsLimit_succ levels he] at h
      simp only [not_or, not_exists, not_and] at h
      obtain ⟨b, hb⟩ := exists_bound_forall_mem fun c hc => ih (h.1 c hc)
      obtain ⟨d, hd⟩ := exists_settle_eq (fun c => ih) h.2
      refine ⟨max b d + 1, fun n hn => ?_⟩
      obtain ⟨n, rfl⟩ := Nat.exists_eq_add_of_le' (Nat.le_trans (Nat.le_add_left 1 _) hn)
      have hparts := hb n (by omega)
      have hmap : e.mapChildren (normalizeWithin rules n)
          = e.mapChildren (normalizeWithin rules levels) :=
        Expr.mapChildren_congr fun c hc => (hparts c hc).2
      obtain ⟨hmeets, hsettle⟩ := hd n (by omega)
      rw [meetsLimit_succ n he, normalizeWithin_succ n he, normalizeWithin_succ levels he, hmap]
      simp only [not_or, not_exists, not_and]
      exact ⟨⟨fun c hc => (hparts c hc).1, hmeets⟩, hsettle⟩

theorem normalForm_of_not_cutShort {levels : Nat} {e : Expr} (h : ¬CutShort rules levels e) :
    NormalForm rules e (normalizeWithin rules levels e) := by
  obtain ⟨bound, hbound⟩ := exists_normalizeWithin_eq h
  exact ⟨bound, hbound bound (Nat.le_refl _)⟩

/-- There is one normal form at most. -/
theorem NormalForm.eq {e r s : Expr} (hr : NormalForm rules e r) (hs : NormalForm rules e s) :
    r = s := by
  obtain ⟨k, hk, rfl⟩ := hr
  obtain ⟨m, hm, rfl⟩ := hs
  have hcut : ∀ {n}, ¬MeetsLimit rules (fun _ => True) n e → ¬CutShort rules n e :=
    fun h hcut => h (hcut.imp fun _ _ => trivial)
  obtain ⟨b, hb⟩ := exists_normalizeWithin_eq (hcut hk)
  obtain ⟨d, hd⟩ := exists_normalizeWithin_eq (hcut hm)
  rw [← (hb (max b d) (by omega)).2, (hd (max b d) (by omega)).2]

/-! ### Small trees -/

theorem not_settleMeets_of_weight_le (hrules : ∀ rule ∈ rules, rule.Lightens) {levels : Nat}
    {meets : Expr → Prop} (hmeets : ∀ c : Expr, c.weight ≤ levels → ¬meets c) {rounds : Nat} {e : Expr}
    (h : e.weight ≤ levels + 1) :
    ¬SettleMeets (normalizeWithin rules levels) meets rules rounds e := by
  induction rounds generalizing e with
  | zero => exact id
  | succ rounds ih =>
    rw [SettleMeets]
    split
    · exact id
    · rename_i next hnext
      have hle := weight_round?_le hrules hnext
      rintro (⟨c, hc, hm⟩ | hm)
      · have := Expr.weight_lt_of_mem_children hc
        exact hmeets c (by omega) hm
      · refine ih ?_ hm
        have := Expr.weight_mapChildren_le fun c (_ : c ∈ next.children) =>
          weight_normalizeWithin_le hrules levels c
        omega

/-- An expression that is not heavier than the limit never comes to it. -/
theorem not_meetsLimit_of_weight_le (hrules : ∀ rule ∈ rules, rule.Lightens) {P : Expr → Prop}
    {levels : Nat} {e : Expr} (h : e.weight ≤ levels) : ¬MeetsLimit rules P levels e := by
  induction levels generalizing e with
  | zero =>
    have := Expr.weight_pos e
    omega
  | succ levels ih =>
    by_cases he : e = .hole
    · rw [he]
      exact id
    · rw [meetsLimit_succ levels he]
      rintro (⟨c, hc, hm⟩ | hm)
      · have := Expr.weight_lt_of_mem_children hc
        exact ih (by omega) hm
      · refine not_settleMeets_of_weight_le hrules (fun c hc => ih hc) ?_ hm
        have := Expr.weight_mapChildren_le fun c (_ : c ∈ e.children) =>
          weight_normalizeWithin_le hrules levels c
        omega

/-! ### Expressions around an expression -/

end Rule

/-- A tree in as many expressions around each other. -/
def TokenTree.nested (tree : TokenTree) : Nat → TokenTree
  | 0 => tree
  | m + 1 => .expression [nested tree m]

namespace Rule

open Expr

theorem ofTokenTree_nested_succ {tree : TokenTree} (h : tree.token.isIgnorable = false) (m : Nat) :
    ofTokenTree (tree.nested (m + 1)) = .group expressionToken [ofTokenTree (tree.nested m)] := by
  have htoken : (tree.nested m).token.isIgnorable = false := by
    cases m with
    | zero => exact h
    | succ m =>
      have hkind : (tree.nested (m + 1)).token.kind = .expression := Token.kind_printed rfl
      simp [Token.isIgnorable, hkind]
  rw [TokenTree.nested, TokenTree.expression, TokenTree.container, ofTokenTree, ofTokenTrees, htoken]
  rfl

theorem weight_nested {tree : TokenTree} (h : tree.token.isIgnorable = false) (m : Nat) :
    (ofTokenTree (tree.nested m)).weight = (ofTokenTree tree).weight + m := by
  induction m with
  | zero => rfl
  | succ m ih =>
    rw [ofTokenTree_nested_succ h, weight, weightAll, ih]
    omega

/-- An expression around a resolved item gives way to it; its parts are then brought to normal form one
level higher than before. -/
theorem normalizeWithin_enclosing {c r : Expr} {n : Nat} (h : normalizeWithin standard n c = r)
    (hr : r.IsResolved) : normalizeWithin standard (n + 1) (.group expressionToken [c])
      = settle (normalizeWithin standard n) standard 63 (r.mapChildren (normalizeWithin standard n)) := by
  have hround : standard.foldl apply (.group expressionToken [r]) = r := by
    have hlayout : Layout [r] [r] := .operand (.self hr) (by intro e he; cases he) .nil
    rw [foldl_standard_of_layout isWrapper_expressionToken hlayout,
      foldl_operand isWrapper_expressionToken hr.isHole]
  have hne : r ≠ .group expressionToken [r] := by
    intro heq
    have htoken := hr.token?
    rw [heq] at htoken
    cases htoken
  rw [normalizeWithin_succ n (by simp), mapChildren_group, List.map_singleton, h, maxRounds,
    settle_succ_of_ne hround hne]

/-- More expressions around a tree with a settled normal form need as many levels more. -/
theorem normalizeWithin_nested {tree : TokenTree} (ht : tree.token.isIgnorable = false) {r : Expr}
    (hr : r.Printable) {n k : Nat} (h : normalizeWithin standard n (ofTokenTree (tree.nested k)) = r)
    (m : Nat) : normalizeWithin standard (n + m) (ofTokenTree (tree.nested (k + m))) = r := by
  induction m with
  | zero => exact h
  | succ m ih =>
    rw [← Nat.add_assoc, ← Nat.add_assoc, ofTokenTree_nested_succ ht,
      normalizeWithin_enclosing ih hr.isResolved, Settled.mapChildren hr.settled_children,
      settle_of_declined hr.declined]

/-! ### A call whose operand the limit hides -/

/-- The tokens of `abs $val < 2`, with its operator in an expression of its own. -/
def comparison : TokenTree :=
  .expression [.word (ascii "abs"), .symbol (ascii "$val"), .expression [.operator (ascii "<")],
    .number (ascii "2")]

/-- The token of the word. -/
def absToken : Token := (TokenTree.word (ascii "abs")).token

theorem kind_absToken : absToken.kind = .word := Token.kind_printed rfl

/-- The token of the value. -/
def valueToken : Token := (TokenTree.symbol (ascii "$val")).token

theorem kind_valueToken : valueToken.kind = .symbol := Token.kind_printed rfl

/-- The token of the number. -/
def twoToken : Token := (TokenTree.number (ascii "2")).token

theorem kind_twoToken : twoToken.kind = .number := Token.kind_printed rfl

theorem kind_expressionToken : expressionToken.kind = .expression := Token.kind_printed rfl

/-- The items behind the word. -/
def comparisonRest : List Expr :=
  [.group valueToken [], .group expressionToken [operatorItem (ascii "<")], .group twoToken []]

theorem isIgnorable_comparison : comparison.token.isIgnorable = false := by
  have hkind : comparison.token.kind = .expression := Token.kind_printed rfl
  simp [Token.isIgnorable, hkind]

theorem ofTokenTree_comparison :
    ofTokenTree comparison = .group expressionToken (Expr.group absToken [] :: comparisonRest) := by
  have hkind : ∀ {t : TokenTree}, t.token.kind = .word ∨ t.token.kind = .symbol ∨
      t.token.kind = .operator ∨ t.token.kind = .number ∨ t.token.kind = .expression →
      t.token.isIgnorable = false := by
    intro t ht
    rcases ht with ht | ht | ht | ht | ht <;> simp [Token.isIgnorable, ht]
  have hword : (TokenTree.word (ascii "abs")).token.isIgnorable = false :=
    hkind (Or.inl (Token.kind_printed rfl))
  have hsymbol : (TokenTree.symbol (ascii "$val")).token.isIgnorable = false :=
    hkind (Or.inr (Or.inl (Token.kind_printed rfl)))
  have hoperator : (TokenTree.operator (ascii "<")).token.isIgnorable = false :=
    hkind (Or.inr (Or.inr (Or.inl (Token.kind_printed rfl))))
  have hnumber : (TokenTree.number (ascii "2")).token.isIgnorable = false :=
    hkind (Or.inr (Or.inr (Or.inr (Or.inl (Token.kind_printed rfl)))))
  have hinner : (TokenTree.expression [.operator (ascii "<")]).token.isIgnorable = false :=
    hkind (Or.inr (Or.inr (Or.inr (Or.inr (Token.kind_printed rfl)))))
  have hgroup : ofTokenTree (.expression [.operator (ascii "<")])
      = .group expressionToken [operatorItem (ascii "<")] := by
    rw [TokenTree.expression, TokenTree.container, ofTokenTree, ofTokenTrees, hoperator]
    rfl
  have hitems : ofTokenTrees [.word (ascii "abs"), .symbol (ascii "$val"),
      .expression [.operator (ascii "<")], .number (ascii "2")]
        = Expr.group absToken [] :: comparisonRest := by
    rw [ofTokenTrees, hword, ofTokenTrees, hsymbol, ofTokenTrees, hinner, ofTokenTrees, hnumber, hgroup]
    rfl
  exact congrArg (Expr.group expressionToken) hitems

theorem weight_comparison : (ofTokenTree comparison).weight = 10 := by
  rw [ofTokenTree_comparison]
  rfl

/-- An expression around an operator gives way to it. -/
theorem normalizeWithin_enclosed_operator (n : Nat) (symbol : Text) :
    normalizeWithin standard (n + 1) (.group expressionToken [operatorItem symbol])
      = operatorItem symbol := by
  have hoperator := isOperator_operatorItem symbol
  have hlayout : Layout [operatorItem symbol] [operatorItem symbol] := .operator hoperator .nil
  have hround : standard.foldl apply (.group expressionToken [operatorItem symbol])
      = operatorItem symbol := by
    rw [foldl_standard_of_layout isWrapper_expressionToken hlayout,
      foldl_operand isWrapper_expressionToken rfl]
  rw [normalizeWithin_succ n (by simp), mapChildren_group, List.map_singleton,
    normalizeWithin_of_settled (settled_operatorItem symbol)]
  cases settled_operatorItem symbol with
  | node hd hc => exact settle_of_round hround hd hc

/-- Each item that the limit does not hide is read. -/
theorem map_comparisonRest (n : Nat) : comparisonRest.map (normalizeWithin standard (n + 1))
    = [.value, operatorItem (ascii "<"), .integer 2] := by
  have hprintable : Expr.value.Printable := trivial
  have hvalue : normalizeWithin standard (n + 1) (.group valueToken []) = .value :=
    normalizeWithin_leaf ((leaf_symbol kind_valueToken []).trans (if_pos rfl)) hprintable n
  have htwo : (Expr.integer 2).Printable := show (0 : Int64) ≤ 2 by decide
  have hnumber : normalizeWithin standard (n + 1) (.group twoToken []) = .integer 2 :=
    normalizeWithin_leaf ((leaf_number kind_twoToken []).trans
      (congrArg _ (Literal.ofNumberToken_ofInt htwo))) htwo n
  rw [comparisonRest, List.map_cons, List.map_cons, List.map_singleton, hvalue, hnumber,
    normalizeWithin_enclosed_operator]

/-- What a named operator without parentheses takes. -/
theorem step?_absToken {rest operand : List Expr} (hrest : ¬rest.head?.any Call.isList)
    (hoperand : Call.unaryOperand rest = operand) (hne : operand ≠ []) :
    Call.step? (.group absToken []) rest
      = some (.call (ascii "abs") [collapseOrWrap operand], operand.length) := by
  have hword : Call.word? (.group absToken []) = some (ascii "abs") := if_pos (e := none) kind_absToken
  have hlist : Call.isListOperator (ascii "abs") = false := by decide
  have hunary : Call.isNamedUnary (ascii "abs") = true := by decide
  have hcall : Call.ofWord? (ascii "abs") rest
      = some (.call (ascii "abs") [collapseOrWrap operand], operand.length) := by
    unfold Call.ofWord?
    dsimp only
    split
    · rename_i r hr
      split at hr
      · rename_i t items _
        split at hr
        · rename_i hk
          simp [Call.isList, isKind, token?, hk] at hrest
        · cases hr
      · cases hr
    · rw [hlist, hunary, hoperand]
      simp [hne]
  simp [Call.step?, hword, hcall]

theorem printable_comparison {x : Expr} (hx : x.Printable) :
    (Expr.binary (ascii "<") x (.integer 2)).Printable := by
  have htable : (⟨ascii "<", 100, false⟩ : Operator) ∈ Operator.table := by decide
  have htwo : (Expr.integer 2).Printable := show (0 : Int64) ≤ 2 by decide
  rw [Printable]
  exact ⟨⟨_, htable, rfl⟩, by decide, hx, htwo⟩

/-- A comparison of a resolved item with the number. -/
theorem foldl_comparison {t : Token} (ht : t.kind.isWrapper) {x : Expr} (hx : x.IsResolved) :
    forOperands.foldl apply (.group t [x, operatorItem (ascii "<"), .integer 2])
      = .binary (ascii "<") x (.integer 2) := by
  have htable : (⟨ascii "<", 100, false⟩ : Operator) ∈ Operator.table := by decide
  obtain ⟨hfind, hgrouping⟩ := find?_symbol _ htable
  have hnumber : (Expr.integer 2).IsResolved := ⟨rfl, rfl⟩
  exact foldl_binary (u := (TokenTree.operator (ascii "<")).token) ht (Token.kind_printed rfl) hfind
    hgrouping hx hnumber []

theorem reference?_absToken (rest : List Expr) : Leaf.reference? (.group absToken []) rest = none :=
  Leaf.reference?_group (by simp [kind_absToken]) (by simp [kind_absToken]) [] rest

/-- With two levels all items are read before the call is made, and its operand ends at the
comparison. -/
theorem normalizeWithin_comparison (n : Nat) : normalizeWithin standard (n + 2) (ofTokenTree comparison)
    = .binary (ascii "<") (.call (ascii "abs") [.value]) (.integer 2) := by
  have hoperator := isOperator_operatorItem (ascii "<")
  have hvalue : Expr.value.IsResolved := ⟨rfl, rfl⟩
  have hnumber : (Expr.integer 2).IsResolved := ⟨rfl, rfl⟩
  have hcallResolved : (Expr.call (ascii "abs") [.value]).IsResolved := ⟨rfl, rfl⟩
  have hstop : ∀ e ∈ [operatorItem (ascii "<"), Expr.integer 2].head?, e.isOperator := by
    rintro e ⟨⟩
    exact hoperator
  have hoperand : Call.unaryOperand [.value, operatorItem (ascii "<"), .integer 2] = [.value] := by
    have hbarrier : (operatorItem (ascii "<")).isBarrier = false :=
      isBarrier_operator (Token.kind_printed rfl) (by decide) []
    have hkind : TokenKind.ofClass (ascii "PPI::Token::Operator") = .operator := TokenKind.ofClass_printed rfl
    have hsymbol : (operatorItem (ascii "<")).operatorSymbol? = some (ascii "<") := if_pos (e := none) hkind
    have hprecedence : Operator.precedence? (ascii "<") = some 100 := by decide
    simp [Call.unaryOperand, Call.unaryOperand.go, hbarrier, hsymbol, hprecedence,
      hvalue.isBarrier, operatorSymbol?_of_isOperand hvalue.isOperand]
  have hcall : Call.step? (.group absToken []) [.value, operatorItem (ascii "<"), .integer 2]
      = some (.call (ascii "abs") [.value], 1) :=
    step?_absToken (by simp [Call.isList, isKind, token?]) hoperand (by simp)
  have hround : standard.foldl apply
      (.group expressionToken [.group absToken [], .value, operatorItem (ascii "<"), .integer 2])
        = .binary (ascii "<") (.call (ascii "abs") [.value]) (.integer 2) := by
    have hleaf : replaceAll Leaf.reference?
        [.group absToken [], .value, operatorItem (ascii "<"), .integer 2]
          = [.group absToken [], .value, operatorItem (ascii "<"), .integer 2] := by
      rw [replaceAll_of_none (reference?_absToken _),
        replaceAll_of_none (reference?_of_not_token hvalue hstop),
        replaceAll_of_none (reference?_operator hoperator _)]
      rfl
    have hcalls : replaceAll Call.step?
        [.group absToken [], .value, operatorItem (ascii "<"), .integer 2]
          = [.call (ascii "abs") [.value], operatorItem (ascii "<"), .integer 2] := by
      rw [replaceAll_of_some hcall, List.drop_one, List.tail_cons,
        replaceAll_of_none (step?_operator hoperator _), replaceAll_of_none (step?_resolved hnumber _),
        replaceAll_nil]
    rw [standard, List.foldl_cons,
      apply_leaf_group (TokenKind.isContainer_of_isWrapper isWrapper_expressionToken), hleaf,
      List.foldl_cons, apply_call_group, hcalls]
    exact foldl_comparison isWrapper_expressionToken hcallResolved
  have hprintable := printable_comparison (x := .call (ascii "abs") [.value]) ⟨trivial, trivial⟩
  rw [ofTokenTree_comparison, normalizeWithin_succ _ (by simp), mapChildren_group, List.map_cons,
    normalizeWithin_of_settled (settled_token (Or.inr kind_absToken)), map_comparisonRest]
  exact settle_of_printable hround hprintable _ _

theorem isOperand_comparisonRest : ∀ e ∈ comparisonRest, e.isOperand := by
  simp [comparisonRest, isOperand, kind_valueToken, kind_expressionToken, kind_twoToken]

theorem replaceAll_reference?_comparisonRest :
    replaceAll Leaf.reference? comparisonRest = comparisonRest := by
  have hvalue := Leaf.reference?_group (t := valueToken) (by simp [kind_valueToken])
    (fun _ => ⟨by decide, by decide⟩) []
  have hinner := Leaf.reference?_group (t := expressionToken) (by simp [kind_expressionToken])
    (by simp [kind_expressionToken]) [operatorItem (ascii "<")]
  have htwo := Leaf.reference?_group (t := twoToken) (by simp [kind_twoToken])
    (by simp [kind_twoToken]) []
  rw [comparisonRest, replaceAll_of_none (hvalue _), replaceAll_of_none (hinner _),
    replaceAll_of_none (htwo _), replaceAll_nil]

theorem replaceAll_step?_comparisonRest : replaceAll Call.step? comparisonRest = comparisonRest := by
  have hvalue := Call.step?_group (t := valueToken) (by simp [kind_valueToken])
    (by simp [kind_valueToken]) []
  have hinner := Call.step?_group (t := expressionToken) (by simp [kind_expressionToken])
    (by simp [kind_expressionToken]) [operatorItem (ascii "<")]
  have htwo := Call.step?_group (t := twoToken) (by simp [kind_twoToken]) (by simp [kind_twoToken]) []
  rw [comparisonRest, replaceAll_of_none (hvalue _), replaceAll_of_none (hinner _),
    replaceAll_of_none (htwo _), replaceAll_nil]

/-- A named operator takes operands side by side. -/
theorem unaryOperand_of_isOperand {items : List Expr} (h : ∀ e ∈ items, e.isOperand) :
    Call.unaryOperand items = items := by
  have go : ∀ ready, Call.unaryOperand.go ready items = items := by
    induction items with
    | nil => exact fun _ => rfl
    | cons e items ih =>
      intro ready
      have he := h e (List.mem_cons_self ..)
      have hrest := ih (fun c hc => h c (List.mem_cons_of_mem _ hc)) false
      simp [Call.unaryOperand.go, isBarrier_of_isOperand he, operatorSymbol?_of_isOperand he, hrest]
  exact go true

/-- With one level the operator is hidden in its expression, and the operand goes on to the end. -/
theorem normalizeWithin_comparison_one : normalizeWithin standard 1 (ofTokenTree comparison)
    = .call (ascii "abs") [wrap comparisonRest] := by
  have hcall : Call.step? (.group absToken []) comparisonRest
      = some (.call (ascii "abs") [wrap comparisonRest], 3) :=
    step?_absToken (by simp [comparisonRest, Call.isList, isKind, token?, kind_valueToken])
      (unaryOperand_of_isOperand isOperand_comparisonRest) (by simp [comparisonRest])
  have hround : standard.foldl apply (.group expressionToken (.group absToken [] :: comparisonRest))
      = .call (ascii "abs") [wrap comparisonRest] := by
    rw [standard, List.foldl_cons,
      apply_leaf_group (TokenKind.isContainer_of_isWrapper isWrapper_expressionToken),
      replaceAll_of_none (reference?_absToken _), replaceAll_reference?_comparisonRest, List.foldl_cons,
      apply_call_group, replaceAll_of_some hcall]
    exact foldl_operand isWrapper_expressionToken rfl
  have hdeclined : Declined standard (.call (ascii "abs") [wrap comparisonRest]) :=
    declined_of_token?_eq_none rfl rfl rfl rfl
  have hparts : ∀ e : Expr, e.mapChildren (normalizeWithin standard 0) = e := fun _ =>
    mapChildren_eq_self fun _ _ => rfl
  rw [ofTokenTree_comparison, normalizeWithin_succ _ (by simp), hparts, maxRounds,
    settle_succ_of_ne hround (by simp), hparts, settle_of_declined hdeclined]

/-- One level is not enough to read the operand. -/
theorem normalizeWithin_wrap_comparisonRest :
    normalizeWithin standard 1 (wrap comparisonRest) = wrap comparisonRest := by
  have hmark : ∀ e ∈ comparisonRest, e.isSymbol "?" = false := fun e he =>
    isSymbol_of_isOperand (isOperand_comparisonRest e he) "?"
  have hmixes : mixesConditional comparisonRest = false := by
    have : comparisonRest.any (·.isSymbol "?") = false := List.any_eq_false.2 (by simpa using hmark)
    simp [mixesConditional, this]
  have hconditional : conditional.reduce? (wrap comparisonRest) = none := by
    cases hparts : Conditional.parts? comparisonRest with
    | none => simp [conditional, Conditional.reduce?, wrap, hparts]
    | some parts =>
      obtain ⟨q, k, hq, -, heq, -⟩ := Conditional.parts?_eq_some hparts
      rw [hmark q (by simp [heq])] at hq
      cases hq
  have hround : standard.foldl apply (wrap comparisonRest) = wrap comparisonRest := by
    rw [standard, List.foldl_cons, wrap, apply_leaf_group rfl, replaceAll_reference?_comparisonRest,
      List.foldl_cons, apply_call_group, replaceAll_step?_comparisonRest, List.foldl_cons,
      apply_operation_group, hmixes, if_neg (by simp),
      Operation.resolveRuns_of_isOperand isOperand_comparisonRest (by simp [comparisonRest]), ← wrap,
      List.foldl_cons, apply_of_none rfl, List.foldl_cons, apply_of_none hconditional]
    rfl
  have hparts : (wrap comparisonRest).mapChildren (normalizeWithin standard 0) = wrap comparisonRest :=
    mapChildren_eq_self fun _ _ => rfl
  rw [normalizeWithin_succ _ (by simp [wrap]), hparts, settle_of_foldl_eq_self hround hparts]

/-- With two levels the operand is read, the comparison included. -/
theorem normalizeWithin_wrap_comparisonRest_two : normalizeWithin standard 2 (wrap comparisonRest)
    = .binary (ascii "<") .value (.integer 2) := by
  have hvalue : Expr.value.IsResolved := ⟨rfl, rfl⟩
  have hnumber : (Expr.integer 2).IsResolved := ⟨rfl, rfl⟩
  have hoperator := isOperator_operatorItem (ascii "<")
  have hlayout : Layout [.value, operatorItem (ascii "<"), .integer 2]
      [.value, operatorItem (ascii "<"), .integer 2] := by
    refine .operand (.self hvalue) ?_
      (.operator hoperator (.operand (.self hnumber) (by intro e he; cases he) .nil))
    rintro e ⟨⟩
    exact hoperator
  have hprintable : (Expr.binary (ascii "<") .value (.integer 2)).Printable :=
    printable_comparison (x := .value) trivial
  rw [wrap, normalizeWithin_succ _ (by simp), mapChildren_group, map_comparisonRest]
  refine settle_of_printable ?_ hprintable _ _
  rw [foldl_standard_of_layout rfl hlayout, foldl_comparison rfl hvalue]

/-- Two levels below the limit, the comparison has become part of the operand. -/
theorem normalizeWithin_nested_comparison (m : Nat) :
    normalizeWithin standard (3 + m) (ofTokenTree (comparison.nested (2 + m)))
      = .call (ascii "abs") [.binary (ascii "<") .value (.integer 2)] := by
  have hpending : (Expr.call (ascii "abs") [wrap comparisonRest]).IsResolved := ⟨rfl, rfl⟩
  have hdeclined : ∀ x, Declined standard (.call (ascii "abs") [x]) := fun _ =>
    declined_of_token?_eq_none rfl rfl rfl rfl
  have htwo : normalizeWithin standard 2 (ofTokenTree (comparison.nested 1))
      = .call (ascii "abs") [wrap comparisonRest] := by
    have hone : normalizeWithin standard 1 (ofTokenTree (comparison.nested 0))
        = .call (ascii "abs") [wrap comparisonRest] := normalizeWithin_comparison_one
    rw [ofTokenTree_nested_succ isIgnorable_comparison, normalizeWithin_enclosing hone hpending,
      mapChildren, List.map_singleton, normalizeWithin_wrap_comparisonRest,
      settle_of_declined (hdeclined _)]
  have hthree : normalizeWithin standard 3 (ofTokenTree (comparison.nested 2))
      = .call (ascii "abs") [.binary (ascii "<") .value (.integer 2)] := by
    rw [ofTokenTree_nested_succ isIgnorable_comparison, normalizeWithin_enclosing htwo hpending,
      mapChildren, List.map_singleton, normalizeWithin_wrap_comparisonRest_two,
      settle_of_declined (hdeclined _)]
  have hprintable : (Expr.call (ascii "abs") [.binary (ascii "<") .value (.integer 2)]).Printable :=
    ⟨printable_comparison (x := .value) trivial, trivial⟩
  exact normalizeWithin_nested isIgnorable_comparison hprintable hthree m

/-- With enough levels the comparison stays outside of the call. -/
theorem normalizeWithin_nested_comparison_of_le {m levels : Nat} (h : m + 2 ≤ levels) :
    normalizeWithin standard levels (ofTokenTree (comparison.nested m))
      = .binary (ascii "<") (.call (ascii "abs") [.value]) (.integer 2) := by
  have hprintable := printable_comparison (x := .call (ascii "abs") [.value]) ⟨trivial, trivial⟩
  have hnested : ∀ n, normalizeWithin standard (n + 2) (ofTokenTree (comparison.nested 0))
      = .binary (ascii "<") (.call (ascii "abs") [.value]) (.integer 2) := normalizeWithin_comparison
  have := normalizeWithin_nested isIgnorable_comparison hprintable (hnested (levels - (m + 2))) m
  rwa [Nat.zero_add, show levels - (m + 2) + 2 + m = levels by omega] at this

/-! ### The normal form and the limit -/

/-- If nothing that a rule would still change lies below the limit, the normal form is the one without a
limit. This is so for every expression that is no heavier than the limit. -/
theorem normalize_eq_normalForm (e : Expr) :
    (¬CutShort standard (maxDepth + 1) e →
      ∀ r, NormalForm standard e r ↔ r = normalize standard e) ∧
    (e.weight ≤ maxDepth + 1 → ¬CutShort standard (maxDepth + 1) e) := by
  constructor
  · intro h r
    have hnormal : NormalForm standard e (normalize standard e) := normalForm_of_not_cutShort h
    constructor
    · exact fun hr => hr.eq hnormal
    · rintro rfl
      exact hnormal
  · exact not_meetsLimit_of_weight_le fun _ => lightens_of_mem_standard

/-- A tree of the greatest weight that never comes to the limit. -/
theorem normalize_eq_normalForm_nested :
    let e := ofTokenTree (comparison.nested 503)
    e.weight ≤ maxDepth + 1 ∧ ¬CutShort standard (maxDepth + 1) e ∧
      normalize standard e = .binary (ascii "<") (.call (ascii "abs") [.value]) (.integer 2) ∧
      ∀ r, NormalForm standard e r ↔ r = normalize standard e := by
  intro e
  have hweight : e.weight ≤ maxDepth + 1 := by
    rw [weight_nested isIgnorable_comparison, weight_comparison, maxDepth]
  have hcut := (normalize_eq_normalForm e).2 hweight
  exact ⟨hweight, hcut, normalizeWithin_nested_comparison_of_le (by decide),
    (normalize_eq_normalForm e).1 hcut⟩

/-- In as many expressions as the limit allows, the normal form is canonical and not the one without a
limit: the comparison goes into the operand of the call. -/
theorem normalize_nested_comparison :
    let e := ofTokenTree (comparison.nested maxDepth)
    (normalize standard e).isCanonical ∧
      normalize standard e = .call (ascii "abs") [.binary (ascii "<") .value (.integer 2)] ∧
      NormalForm standard e (.binary (ascii "<") (.call (ascii "abs") [.value]) (.integer 2)) ∧
      ¬NormalForm standard e (normalize standard e) := by
  intro e
  have hlimited : normalize standard e = .call (ascii "abs") [.binary (ascii "<") .value (.integer 2)] :=
    normalizeWithin_nested_comparison 510
  have hweight : e.weight = 522 := by
    rw [weight_nested isIgnorable_comparison, weight_comparison, maxDepth]
  have hnormal : NormalForm standard e
      (.binary (ascii "<") (.call (ascii "abs") [.value]) (.integer 2)) := by
    refine ⟨522, ?_, normalizeWithin_nested_comparison_of_le (by decide)⟩
    exact not_meetsLimit_of_weight_le (fun _ => lightens_of_mem_standard) (Nat.le_of_eq hweight)
  refine ⟨by rw [hlimited]; rfl, hlimited, hnormal, fun h => ?_⟩
  rw [hlimited] at h
  cases h.eq hnormal

end Rule
end TagFormula

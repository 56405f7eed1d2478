import TagFormula.Proofs.BareCalls
import TagFormula.Proofs.Erasure

/-!
Equality of expressions and their normal forms. Equality compares the kind, the class and the content of tokens; the
text of a quote and the bracket of a subscript are read from other fields. Main statement: a further comparison of the
tokens makes normal forms of equal expressions equal exactly if it tells apart all that the rules read.
-/

namespace TagFormula

namespace Rule

open Expr

/-- Equal expressions whose tokens are read alike have equal normal forms, at every depth. -/
theorem same_normalizeWithin {a b : Expr} (h : a.same b)
    (hreading : a.labels.map Token.reading = b.labels.map Token.reading) (levels : Nat) :
    (normalizeWithin standard levels a).same (normalizeWithin standard levels b) := by
  refine same_of_erase_eq ?_
  rw [← normalizeWithin_erase (fun _ => blind_of_mem_standard) levels a, erase_eq_of_same h hreading,
    normalizeWithin_erase (fun _ => blind_of_mem_standard) levels b]

/-! ### Expressions that show what is read of a token -/

/-- Operands side by side that nothing joins stay as they are. -/
theorem settled_wrap_of_isOperand {items : List Expr} (hsettled : ∀ x ∈ items, Settled standard x)
    (hoperand : ∀ x ∈ items, x.isOperand) (hlength : 2 ≤ items.length)
    (hreference : replaceItems? Leaf.reference? 0 items = none) (hstep : replaceItems? Call.step? 0 items = none) :
    Settled standard (wrap items) := by
  refine .node (declined_group ?_ ?_ ?_) hsettled
  · intro rule hrule
    simp only [List.mem_cons, List.not_mem_nil, or_false] at hrule
    rcases hrule with rfl | rfl | rfl
    · simp only [leaf, Leaf.reduce?, hreference, Option.map_none]
    · simp only [call, Call.reduce?, hstep, Option.map_none]
    · refine operation_eq_none_iff.2 (Or.inr (Or.inr fun run hrun => ?_))
      rw [Operation.runs, Operation.splitAtBarriers_run fun e he => isBarrier_of_isOperand (hoperand e he)] at hrun
      obtain rfl : run = items := by simpa using hrun
      rw [Option.eq_none_iff_forall_ne_some]
      intro e he
      exact not_operationOf_of_isOperand hoperand hlength e (Operation.resolve?_eq_some_iff.1 he).2
  · refine conditional_eq_none_iff.2 (Or.inr (Or.inr ?_))
    cases hparts : Conditional.parts? items with
    | none => rfl
    | some parts =>
      obtain ⟨q, k, hq, -, heq, -⟩ := Conditional.parts?_eq_some hparts
      rw [isSymbol_of_isOperand (hoperand q (by simp [heq]))] at hq
      cases hq
  · refine collapse_eq_none_iff.2 fun x hx => ?_
    simp [hx] at hlength

variable {t : Token}

theorem normalize_quote (ht : t.kind = .quote) :
    normalize standard (.group t []) = (t.quotedText?.map Expr.string).getD (.group t []) := by
  cases htext : t.quotedText? with
  | none =>
    refine normalizeWithin_of_settled (settled_of_leaf_eq_none ?_) _
    rw [leaf_quote ht, htext, Option.map_none]
  | some text =>
    refine normalizeWithin_of_leaf (x := .string text) (fun parts => ?_) rfl rfl _ []
    rw [leaf_quote ht, htext, Option.map_some]

/-- A subscript behind an item is read as a reference, or both stay as they are. -/
theorem normalize_subscripted (ht : t.kind = .subscript) {x y : Expr} {r : Option Expr} (hx : Settled standard x)
    (hy : Settled standard y) (hxoperand : x.isOperand) (hxstep : ∀ rest, Call.step? x rest = none)
    (hystep : Call.step? y [] = none) (hread : Leaf.reference? x [.group t [y]] = r.map (·, 1)) :
    normalize standard (wrap [x, .group t [y]]) = r.getD (wrap [x, .group t [y]]) := by
  have hstep : Call.step? (.group t [y]) [] = none := Call.step?_group (by simp [ht]) (by simp [ht]) [y] []
  have hsettled : ∀ e ∈ [x, .group t [y]], Settled standard e := by
    have hsubscript : Settled standard (.group t [y]) :=
      .node (declined_structure (Or.inr ht) hystep) (by simpa [children] using hy)
    simp [hx, hsubscript]
  cases r with
  | none =>
    refine normalizeWithin_of_settled (settled_wrap_of_isOperand hsettled ?_ (Nat.le_refl 2) ?_ ?_) _
    · have hsubscript : (group t [y]).isOperand := by simp [isOperand, ht]
      simp [hxoperand, hsubscript]
    · simp only [replaceItems?, hread, Option.map_none]
      rfl
    · simp only [replaceItems?, hxstep, hstep, Option.map_none]
  | some e =>
    have hitem : Call.step? e [] = none ∧ e.isHole = false ∧ e.token? = none ∧ e.children = [] := by
      rcases Leaf.reference?_cases hread with ⟨i, rfl⟩ | ⟨name, rfl⟩ <;> exact ⟨rfl, rfl, rfl, rfl⟩
    obtain ⟨hcall, hhole, htoken, hchildren⟩ := hitem
    have hround : standard.foldl apply (wrap [x, .group t [y]]) = e := by
      rw [wrap, foldl_standard_container rfl, replaceAll_of_some hread, List.drop_succ_cons, List.drop_nil,
        replaceAll_nil, replaceAll_of_none hcall, replaceAll_nil, operated_single, finished_single rfl hhole]
    rw [normalize, normalizeWithin_succ _ (by simp [wrap]), Settled.mapChildren (e := wrap _) hsettled]
    exact settle_of_round hround (declined_of_children_eq_nil htoken hchildren) (by simp [hchildren])

theorem settled_of_children_eq_nil {e : Expr} (htoken : e.token? = none) (hchildren : e.children = []) :
    Settled standard e :=
  .node (declined_of_children_eq_nil htoken hchildren) (by simp [hchildren])

/-- A number in a subscript behind the value. -/
def indexTest (t : Token) : Expr := wrap [.value, .group t [.integer 1]]

theorem normalize_indexTest (ht : t.kind = .subscript) : normalize standard (indexTest t)
    = if Leaf.opener t = ch '\x7b' then indexTest t else .element 1 := by
  have hread : Leaf.reference? .value [.group t [.integer 1]]
      = (if Leaf.opener t = ch '\x7b' then none else some (Expr.element 1)).map (·, 1) := by
    by_cases hopener : Leaf.opener t = ch '\x7b' <;>
      simp [Leaf.reference?, Leaf.isValue, Leaf.index?, ht, Expr.integer, hopener]
  rw [indexTest, normalize_subscripted ht (settled_of_children_eq_nil rfl rfl) (settled_of_children_eq_nil rfl rfl)
    rfl (fun _ => rfl) rfl hread]
  split <;> rfl

/-- A name in a subscript behind the symbol of the context. -/
def fieldTest (t : Token) : Expr := wrap [.group (plainToken .symbol "$$self") [], .group t [.string (ascii "A")]]

theorem normalize_fieldTest (ht : t.kind = .subscript) : normalize standard (fieldTest t)
    = if Leaf.opener t = ch '[' then fieldTest t else .field (ascii "A") := by
  have hself : Settled standard (.group (plainToken .symbol "$$self") []) := by
    refine settled_of_leaf_eq_none ?_
    rw [leaf_symbol rfl, if_neg (by decide)]
    rfl
  have hread : Leaf.reference? (.group (plainToken .symbol "$$self") []) [.group t [.string (ascii "A")]]
      = (if Leaf.opener t = ch '[' then none else some (Expr.field (ascii "A"))).map (·, 1) := by
    have hname : ascii "$$self" ≠ ascii "$self" := by decide
    have hne : ascii "A" ≠ [] := by decide
    by_cases hopener : Leaf.opener t = ch '[' <;>
      simp [Leaf.reference?, Leaf.isValue, Leaf.isToken, token?, plainToken, hname, Leaf.fieldOfSubscript?, ht,
        Expr.string, hne, hopener]
  rw [fieldTest, normalize_subscripted ht hself (settled_of_children_eq_nil rfl rfl) rfl (fun _ => rfl) rfl hread]
  split <;> rfl

/-! ### What a comparison of tokens has to tell apart -/

/-- A quote shows its text by itself. -/
theorem quotedText?_eq_of_same {u : Token} (ht : t.kind = .quote) (hu : u.kind = .quote)
    (h : (normalize standard (.group t [])).same (normalize standard (.group u []))) :
    t.quotedText? = u.quotedText? := by
  rw [normalize_quote ht, normalize_quote hu] at h
  cases htext : t.quotedText? <;> cases hutext : u.quotedText? <;> simp_all [Expr.string, same, Literal.same]

/-- A subscript shows its bracket behind the value and behind the symbol of the context. -/
theorem bracket_eq_of_same {u : Token} (ht : t.kind = .subscript) (hu : u.kind = .subscript)
    (hindex : (normalize standard (indexTest t)).same (normalize standard (indexTest u)))
    (hfield : (normalize standard (fieldTest t)).same (normalize standard (fieldTest u))) :
    Leaf.bracket t = Leaf.bracket u := by
  have hbrace : Leaf.opener t = ch '\x7b' ↔ Leaf.opener u = ch '\x7b' := by
    rw [normalize_indexTest ht, normalize_indexTest hu] at hindex
    split at hindex <;> split at hindex <;> simp_all [indexTest, wrap, same]
  have hsquare : Leaf.opener t = ch '[' ↔ Leaf.opener u = ch '[' := by
    rw [normalize_fieldTest ht, normalize_fieldTest hu] at hfield
    split at hfield <;> split at hfield <;> simp_all [fieldTest, wrap, same]
  simp only [Leaf.bracket, Bool.or_eq_true, beq_iff_eq, hbrace, hsquare]
  split
  · rename_i h
    rcases h with h | h
    · rw [h, hsquare.2 h]
    · rw [h, hbrace.2 h]
  · rfl

/-- Let equality compare one thing more of each token. Then equal expressions have equal normal forms exactly if tokens
of one kind, class and content that agree in it are read alike. -/
theorem same_normalize_iff_determines {κ : Type*} (key : Token → κ) :
    (∀ a b : Expr, a.same b → a.labels.map key = b.labels.map key →
      (normalize standard a).same (normalize standard b)) ↔
    ∀ t u : Token, t.kind = u.kind → t.className = u.className → t.content = u.content → key t = key u →
      t.reading = u.reading := by
  constructor
  · intro h t u hkind hclass hcontent hkey
    have hlone : (group t []).same (group u []) := by simp [same, sameAll, hkind, hclass, hcontent]
    have hindex : (indexTest t).same (indexTest u) := by
      simp [indexTest, wrap, same, sameAll, hkind, hclass, hcontent, Expr.integer, Literal.same]
    have hfield : (fieldTest t).same (fieldTest u) := by
      simp [fieldTest, wrap, same, sameAll, hkind, hclass, hcontent, Expr.string, Literal.same]
    refine Token.Reading.ext ?_ ?_
    · by_cases ht : t.kind = .quote
      · have hu : u.kind = .quote := hkind ▸ ht
        rw [Token.reading, Token.reading, if_pos ht, if_pos hu]
        exact quotedText?_eq_of_same ht hu (h _ _ hlone (by simp [labels, labelsAll, hkey]))
      · simp only [Token.reading, ← hkind, if_neg ht]
    · by_cases ht : t.kind = .subscript
      · have hu : u.kind = .subscript := hkind ▸ ht
        rw [Token.reading, Token.reading, if_pos ht, if_pos hu]
        refine congrArg some (bracket_eq_of_same ht hu (h _ _ hindex ?_) (h _ _ hfield ?_))
        · simp [indexTest, wrap, labels, labelsAll, Expr.integer, hkey]
        · simp [fieldTest, wrap, labels, labelsAll, Expr.string, hkey]
      · simp only [Token.reading, ← hkind, if_neg ht]
  · intro h a b hsame hkeys
    refine same_normalizeWithin hsame ?_ _
    refine map_eq_of_determined (fun t u ho hk => ?_) (map_outline_labels (same_iff_outline_eq.1 hsame)) hkeys
    obtain ⟨hkind, hclass, hcontent⟩ := Token.outline_eq_outline_iff.1 ho
    exact h t u hkind hclass hcontent hk

/-- The value with the number one in brackets behind it, as tokens. -/
def valueBracketed (bounds : String) : Expr :=
  .group (Token.ofClass (ascii "PPI::Statement::Expression") [] [] none)
    [.group (Token.ofClass (ascii "PPI::Token::Symbol") (ascii "$val") [] none) [],
      .group (Token.ofClass (ascii "PPI::Structure::Subscript") [] (ascii bounds) none)
        [.group (Token.ofClass (ascii "PPI::Token::Number") (ascii "1") [] none) []]]

/-- `$val[1]` equals `$val{1}`, but only the first is an element of the value. -/
theorem same_brackets_differ :
    (valueBracketed "[]").same (valueBracketed "\x7b\x7d") = true ∧
    (normalize standard (valueBracketed "[]")).same (.element 1) = true ∧
    (normalize standard (valueBracketed "[]")).same (normalize standard (valueBracketed "\x7b\x7d")) = false := by
  decide +kernel

end Rule
end TagFormula

import TagFormula.Formula
import TagFormula.Proofs.FirstDefect
import TagFormula.Proofs.RadixLiteral
import TagFormula.Proofs.Regrouping

/-!
Number tokens that stand for no number. The rules spend words, operators and brackets, but never a number token,
unless it becomes a literal. Main statement: which integers are read at all, and that a token that is not read
is still there in the normal form of any tree it stands in, so that no function comes from the tree.
-/

namespace TagFormula

/-- Kinds of token with parts that no rule drops. A token of another kind stands for something itself, whatever
is in it. -/
def TokenKind.keepsParts (kind : TokenKind) : Bool :=
  !(kind = .number || kind = .quote || kind = .regexp || kind = .symbol || kind = .operator || kind = .word
    || kind = .cast)

namespace Expr

/-- A number token of some content stands in an expression, though not inside a token that stands for something
itself. -/
inductive HoldsNumber (content : Text) : Expr → Prop
  | token {t : Token} {parts : List Expr} (hk : t.kind = .number) (ht : t.content = content) :
      HoldsNumber content (.group t parts)
  | part {e c : Expr} (he : ∀ t ∈ e.token?, t.kind.keepsParts) (hc : c ∈ e.children)
      (h : HoldsNumber content c) : HoldsNumber content e

section

variable {content : Text}

theorem holdsNumber_group_iff {t : Token} {items : List Expr} : (group t items).HoldsNumber content ↔
    (t.kind = .number ∧ t.content = content) ∨ (t.kind.keepsParts ∧ ∃ x ∈ items, x.HoldsNumber content) := by
  constructor
  · intro h
    cases h with
    | token hk ht => exact Or.inl ⟨hk, ht⟩
    | part he hc h => exact Or.inr ⟨he t rfl, _, hc, h⟩
  · rintro (⟨hk, ht⟩ | ⟨hk, x, hx, h⟩)
    · exact .token hk ht
    · refine .part (fun u hu => ?_) hx h
      cases hu
      exact hk

theorem holdsNumber_iff_of_token?_eq_none {e : Expr} (he : e.token? = none) :
    e.HoldsNumber content ↔ ∃ c ∈ e.children, c.HoldsNumber content := by
  constructor
  · intro h
    cases h with
    | token => cases he
    | part _ hc h => exact ⟨_, hc, h⟩
  · rintro ⟨c, hc, h⟩
    exact .part (by simp [he]) hc h

theorem holdsNumber_binary_iff {op : Text} {l r : Expr} :
    (binary op l r).HoldsNumber content ↔ l.HoldsNumber content ∨ r.HoldsNumber content := by
  rw [holdsNumber_iff_of_token?_eq_none rfl]
  simp [children]

/-- Tokens that stand for something other than a number hold none. -/
theorem not_holdsNumber_of_keepsParts {t : Token} (hk : t.kind ≠ .number) (hkeeps : t.kind.keepsParts = false)
    (parts : List Expr) : ¬(group t parts).HoldsNumber content := by
  simp [holdsNumber_group_iff, hk, hkeeps]

theorem not_holdsNumber_of_isOperator {o : Expr} (h : o.isOperator) : ¬o.HoldsNumber content := by
  obtain ⟨t, parts, rfl, hk⟩ := isOperator_iff.1 h
  exact not_holdsNumber_of_keepsParts (by simp [hk]) (by simp [TokenKind.keepsParts, hk]) parts

theorem not_holdsNumber_of_children_eq_nil {e : Expr} (he : e.token? = none) (hc : e.children = []) :
    ¬e.HoldsNumber content := by
  rw [holdsNumber_iff_of_token?_eq_none he, hc]
  simp

theorem HoldsNumber.ne_hole {e : Expr} (h : e.HoldsNumber content) : e ≠ .hole := by
  rintro rfl
  exact not_holdsNumber_of_children_eq_nil rfl rfl h

theorem HoldsNumber.not_isCanonical {e : Expr} (h : e.HoldsNumber content) : e.isCanonical = false := by
  induction h with
  | token => rfl
  | part _ hc _ ih =>
    refine Bool.eq_false_iff.2 fun he => ?_
    rw [isCanonical_of_mem_children he hc] at ih
    cases ih

theorem holdsNumber_collapseOrWrap {items : List Expr} (h : ∃ x ∈ items, x.HoldsNumber content) :
    (collapseOrWrap items).HoldsNumber content := by
  unfold collapseOrWrap
  split
  · simpa using h
  · exact holdsNumber_group_iff.2 (Or.inr ⟨rfl, h⟩)

/-! ### Parts -/

theorem children_regexMatch {s : Expr} (hs : s ≠ .hole) (p fl : Text) (neg : Bool) :
    (regexMatch s p fl neg).children = [s] := by
  cases s with
  | hole => exact absurd rfl hs
  | _ => rfl

theorem mem_children_mapChildren {f : Expr → Expr} {e c : Expr} (hc : c ∈ e.children) (hf : f c ≠ .hole) :
    f c ∈ (e.mapChildren f).children := by
  cases e with
  | call name args => exact List.mem_map_of_mem hc
  | group t parts => exact List.mem_map_of_mem hc
  | regexMatch s p fl neg =>
    by_cases hs : s = .hole
    · rw [hs] at hc
      cases hc
    · rw [children_regexMatch hs, List.mem_singleton] at hc
      subst hc
      rw [mapChildren, children_regexMatch hf]
      · exact List.mem_singleton_self _
      · exact hs
  | binary | unary | conditional | repeated =>
    simp only [children, mapChildren, List.mem_cons, List.not_mem_nil, or_false] at hc ⊢
    grind
  | _ => cases hc

theorem HoldsNumber.mapChildren {f : Expr → Expr} {e : Expr} (h : e.HoldsNumber content)
    (hf : ∀ c ∈ e.children, c.HoldsNumber content → (f c).HoldsNumber content) :
    (e.mapChildren f).HoldsNumber content := by
  cases h with
  | token hk ht => exact .token hk ht
  | part he hc h =>
    have hfc := hf _ hc h
    exact .part (by rwa [Rule.token?_mapChildren]) (mem_children_mapChildren hc hfc.ne_hole) hfc

/-! ### Equality -/

theorem exists_of_sameAll {as bs : List Expr} (h : sameAll as bs) {x : Expr} (hx : x ∈ as) :
    ∃ y ∈ bs, x.same y := by
  induction as generalizing bs with
  | nil => cases hx
  | cons a as ih =>
    cases bs with
    | nil => cases h
    | cons b bs =>
      rw [sameAll, Bool.and_eq_true] at h
      rcases List.mem_cons.1 hx with rfl | hx
      · exact ⟨b, List.mem_cons_self .., h.1⟩
      · obtain ⟨y, hy, hsame⟩ := ih h.2 hx
        exact ⟨y, List.mem_cons_of_mem _ hy, hsame⟩

theorem sameAll_children {c d : Expr} (h : c.same d) : sameAll c.children d.children := by
  cases c with
  | regexMatch s p fl neg =>
    cases d with
    | regexMatch s' p' fl' neg' =>
      rw [same, Bool.and_eq_true] at h
      -- a missing subject equals a missing one only
      cases s <;> cases s' <;> simp_all [children, sameAll, same]
    | _ => simp [same] at h
  | _ => cases d <;> simp_all [same, children, sameAll]

theorem kind_of_same {c d : Expr} (h : c.same d) : c.token?.map (·.kind) = d.token?.map (·.kind) := by
  cases c <;> cases d <;> simp_all [same, token?]

theorem HoldsNumber.of_same {c d : Expr} (h : c.HoldsNumber content) (hsame : c.same d) :
    d.HoldsNumber content := by
  induction h generalizing d with
  | @token t parts hk ht =>
    cases d with
    | group u items =>
      simp only [same, Bool.and_eq_true, decide_eq_true_eq, beq_iff_eq] at hsame
      exact .token (hsame.1.1.1 ▸ hk) (hsame.1.2 ▸ ht)
    | _ => simp [same] at hsame
  | @part e c he hc _ ih =>
    obtain ⟨y, hy, hpart⟩ := exists_of_sameAll (sameAll_children hsame) hc
    refine .part (fun u hu => ?_) hy (ih hpart)
    have hkind := kind_of_same hsame
    rw [Option.mem_def.1 hu] at hkind
    obtain ⟨t, ht, hk⟩ := Option.map_eq_some_iff.1 hkind
    have hkeeps := he t ht
    rwa [hk] at hkeeps

end

end Expr

open Expr Relation

section

variable {content : Text}

/-! ### What takes the place of items -/

/-- If a number token stands among the items, it stands in what takes their place. -/
def KeepsNumber (content : Text) (stretch : List Expr) (x : Expr) : Prop :=
  (∃ y ∈ stretch, y.HoldsNumber content) → x.HoldsNumber content

theorem Replaces.keepsNumber {items items' : List Expr}
    (h : TransGen (Replaces (KeepsNumber content)) items items') (hitems : ∃ x ∈ items, x.HoldsNumber content) :
    ∃ x ∈ items', x.HoldsNumber content := by
  have hone : ∀ {a b}, Replaces (KeepsNumber content) a b → (∃ x ∈ a, x.HoldsNumber content) →
      ∃ x ∈ b, x.HoldsNumber content := by
    rintro _ _ ⟨front, hx, back⟩ ⟨y, hy, hholds⟩
    rcases List.mem_append.1 hy with hy | hy
    · exact ⟨y, by simp [hy], hholds⟩
    · rcases List.mem_append.1 hy with hy | hy
      · exact ⟨_, by simp, hx ⟨y, hy, hholds⟩⟩
      · exact ⟨y, by simp [hy], hholds⟩
  induction h with
  | single h => exact hone h hitems
  | tail _ h ih => exact hone h ih

theorem Call.Arguments.keepsNumber {items args : List Expr} (h : Call.Arguments items args)
    (hitems : ∃ x ∈ items, x.HoldsNumber content) : ∃ a ∈ args, a.HoldsNumber content := by
  have hcomma : ∀ {c : Expr}, c.isComma → ¬c.HoldsNumber content := fun hc =>
    not_holdsNumber_of_isOperator (isOperator_of_isBarrier (isBarrier_of_isComma hc))
  induction h with
  | nil => exact hitems
  | comma hc _ ih =>
    obtain ⟨x, hx, hholds⟩ := hitems
    rcases List.mem_cons.1 hx with rfl | hx
    · exact absurd hholds (hcomma hc)
    · exact ih ⟨x, hx, hholds⟩
  | last => exact ⟨_, List.mem_singleton_self _, holdsNumber_collapseOrWrap hitems⟩
  | next _ hc _ ih =>
    obtain ⟨x, hx, hholds⟩ := hitems
    rcases List.mem_append.1 hx with hx | hx
    · exact ⟨_, List.mem_cons_self .., holdsNumber_collapseOrWrap ⟨x, hx, hholds⟩⟩
    · rcases List.mem_cons.1 hx with rfl | hx
      · exact absurd hholds (hcomma hc)
      · obtain ⟨a, ha, harg⟩ := ih ⟨x, hx, hholds⟩
        exact ⟨a, List.mem_cons_of_mem _ ha, harg⟩

theorem Call.listItems_keepsNumber {items : List Expr} (h : ∃ x ∈ items, x.HoldsNumber content) :
    ∃ x ∈ Call.listItems items, x.HoldsNumber content := by
  unfold Call.listItems
  split
  · rename_i t parts
    split
    · rename_i ht
      rw [Bool.or_eq_true, decide_eq_true_eq, decide_eq_true_eq] at ht
      obtain ⟨x, hx, hholds⟩ := h
      obtain rfl := List.mem_singleton.1 hx
      rcases holdsNumber_group_iff.1 hholds with ⟨hk, -⟩ | ⟨-, hparts⟩
      · rcases ht with ht | ht <;> rw [ht] at hk <;> cases hk
      · exact hparts
    · exact h
  · exact h

theorem Collapses.keepsNumber {items run : List Expr} (h : Collapses items run)
    (hitems : ∃ x ∈ items, x.HoldsNumber content) : ∃ x ∈ run, x.HoldsNumber content := by
  induction h with
  | last => exact hitems
  | @operator x o op rest run _ _ _ ih =>
    obtain ⟨y, hy, hholds⟩ := hitems
    rw [List.mem_cons, List.mem_cons] at hy
    rcases hy with rfl | rfl | hy
    · exact ⟨y, by simp, hholds⟩
    · exact ⟨y, by simp, hholds⟩
    · obtain ⟨z, hz, hholds⟩ := ih ⟨y, hy, hholds⟩
      exact ⟨z, by simp [hz], hholds⟩
  | @sign p x symbol rest run hp _ _ ih =>
    obtain ⟨y, hy, hholds⟩ := hitems
    rcases List.mem_cons.1 hy with rfl | hy
    · exact absurd hholds (not_holdsNumber_of_isOperator (isOperator_of_isSign hp))
    · obtain ⟨z, hz, hholds⟩ := ih ⟨y, hy, hholds⟩
      rcases List.mem_cons.1 hz with rfl | hz
      · refine ⟨_, List.mem_cons_self .., (holdsNumber_iff_of_token?_eq_none rfl).2 ⟨z, ?_, hholds⟩⟩
        exact List.mem_singleton_self z
      · exact ⟨z, List.mem_cons_of_mem _ hz, hholds⟩

theorem OperatorTree.Spells.keepsNumber {t : OperatorTree} {items : List Expr} (h : t.Spells items)
    (hitems : ∃ x ∈ items, x.HoldsNumber content) : t.toExpr.HoldsNumber content := by
  induction h with
  | leaf => simpa [toExpr] using hitems
  | @node op l r o left right ho _ _ ihl ihr =>
    obtain ⟨y, hy, hholds⟩ := hitems
    refine (holdsNumber_iff_of_token?_eq_none rfl).2 ?_
    rcases List.mem_append.1 hy with hy | hy
    · exact ⟨l.toExpr, by simp [toExpr, children], ihl ⟨y, hy, hholds⟩⟩
    · rcases List.mem_cons.1 hy with rfl | hy
      · exact absurd hholds (not_holdsNumber_of_isOperator (isOperator_of_isInfix ho))
      · exact ⟨r.toExpr, by simp [toExpr, children], ihr ⟨y, hy, hholds⟩⟩

theorem Becomes.keepsNumber {stretch : List Expr} {x : Expr} (h : Becomes stretch x) :
    KeepsNumber content stretch x := by
  have hword : ∀ {t : Token} {parts : List Expr}, t.kind = .word →
      ¬(Expr.group t parts).HoldsNumber content := fun ht =>
    not_holdsNumber_of_keepsParts (by simp [ht]) (by simp [TokenKind.keepsParts, ht]) _
  rintro ⟨y, hy, hholds⟩
  cases h with
  | @opened t x ht =>
    obtain rfl := List.mem_singleton.1 hy
    rcases holdsNumber_group_iff.1 hholds with ⟨hk, -⟩ | ⟨-, hx⟩
    · rw [ht] at hk
      cases hk
    · simpa using hx
  | called ht hargs =>
    refine (holdsNumber_iff_of_token?_eq_none rfl).2 (hargs.keepsNumber ?_)
    rcases List.mem_cons.1 hy with rfl | hy
    · exact absurd hholds (hword ht)
    · exact ⟨y, hy, hholds⟩
  | @calledWith t u parts inside args ht hu hargs =>
    refine (holdsNumber_iff_of_token?_eq_none rfl).2 (hargs.keepsNumber (Call.listItems_keepsNumber ?_))
    rw [List.mem_cons, List.mem_singleton] at hy
    rcases hy with rfl | rfl
    · exact absurd hholds (hword ht)
    · rcases holdsNumber_group_iff.1 hholds with ⟨hk, -⟩ | ⟨-, hinside⟩
      · rw [hu] at hk
        cases hk
      · exact hinside
  | operation hlength h =>
    obtain ⟨run, t, hrun, hspells, -, rfl⟩ := h
    exact hspells.keepsNumber ((collapses_iff_signedRun.2 hrun).keepsNumber ⟨y, hy, hholds⟩)
  | @conditional test yes no q k hq hk =>
    have hmark : ∀ {o : Expr} {symbol : String}, o.isSymbol symbol → ¬o.HoldsNumber content := fun ho =>
      not_holdsNumber_of_isOperator (isOperator_of_isSymbol ho)
    refine (holdsNumber_iff_of_token?_eq_none rfl).2 ?_
    simp only [List.mem_append, List.mem_cons] at hy
    rcases hy with hy | rfl | hy | rfl | hy
    · exact ⟨collapseOrWrap test, by simp [children], holdsNumber_collapseOrWrap ⟨y, hy, hholds⟩⟩
    · exact absurd hholds (hmark hq)
    · exact ⟨collapseOrWrap yes, by simp [children], holdsNumber_collapseOrWrap ⟨y, hy, hholds⟩⟩
    · exact absurd hholds (hmark hk)
    · exact ⟨collapseOrWrap no, by simp [children], holdsNumber_collapseOrWrap ⟨y, hy, hholds⟩⟩

/-! ### References -/

namespace Leaf

theorem not_holdsNumber_subscript {t : Token} (ht : t.kind = .subscript) {inner : Expr}
    (h : ¬inner.HoldsNumber content) : ¬(Expr.group t [inner]).HoldsNumber content := by
  simp [holdsNumber_group_iff, ht, h]

theorem not_holdsNumber_of_index? {e : Expr} {i : Int64} (h : index? e = some i) :
    ¬e.HoldsNumber content := by
  unfold index? at h
  split at h
  · split at h
    · rename_i t inner hsubscript
      rw [Bool.and_eq_true, decide_eq_true_eq] at hsubscript
      refine not_holdsNumber_subscript hsubscript.1 ?_
      split at h
      · exact not_holdsNumber_of_children_eq_nil rfl rfl
      · rw [holdsNumber_iff_of_token?_eq_none rfl]
        simpa [children] using not_holdsNumber_of_children_eq_nil rfl rfl
      · cases h
    · cases h
  · cases h

theorem not_holdsNumber_of_fieldOfSubscript? {e : Expr} {name : Text} (h : fieldOfSubscript? e = some name) :
    ¬e.HoldsNumber content := by
  unfold fieldOfSubscript? at h
  split at h
  · split at h
    · rename_i t inner hsubscript
      rw [Bool.and_eq_true, decide_eq_true_eq] at hsubscript
      refine not_holdsNumber_subscript hsubscript.1 ?_
      split at h
      · split_ifs at h with hword
        rw [Bool.and_eq_true, decide_eq_true_eq] at hword
        exact not_holdsNumber_of_keepsParts (by simp [hword.1]) (by simp [TokenKind.keepsParts, hword.1]) _
      · exact not_holdsNumber_of_children_eq_nil rfl rfl
      · cases h
    · cases h
  · cases h

theorem not_holdsNumber_of_isToken {kind : TokenKind} (hkind : kind ≠ .number)
    (hkeeps : kind.keepsParts = false) {symbol : String} {e : Expr} (h : isToken kind symbol e) :
    ¬e.HoldsNumber content := by
  cases e with
  | group t parts =>
    simp only [isToken, token?, Option.any_some, Bool.and_eq_true, decide_eq_true_eq] at h
    exact not_holdsNumber_of_keepsParts (h.1 ▸ hkind) (h.1 ▸ hkeeps) parts
  | _ => cases h

/-- No number token is part of a reference. -/
theorem not_holdsNumber_of_reference? {item e : Expr} {rest : List Expr} {n : Nat}
    (h : reference? item rest = some (e, n)) : ∀ y ∈ item :: rest.take n, ¬y.HoldsNumber content := by
  have hcast : ∀ {e}, isToken .cast "$" e → ¬e.HoldsNumber content :=
    not_holdsNumber_of_isToken (by decide) rfl
  have hsymbol : ∀ {name : String} {e}, isToken .symbol name e → ¬e.HoldsNumber content :=
    not_holdsNumber_of_isToken (by decide) rfl
  cases rest with
  | nil => cases h
  | cons next after =>
    simp only [reference?] at h
    split_ifs at h with hvalue hself hdouble
    · obtain ⟨i, hi, heq⟩ := Option.map_eq_some_iff.1 h
      cases heq
      have hitem : ¬item.HoldsNumber content := by
        cases item with
        | value => exact not_holdsNumber_of_children_eq_nil rfl rfl
        | _ => cases hvalue
      simpa using ⟨hitem, not_holdsNumber_of_index? hi⟩
    · obtain ⟨name, hname, heq⟩ := Option.map_eq_some_iff.1 h
      cases heq
      obtain ⟨subscript, hsubscript, hname⟩ := Option.bind_eq_some_iff.1 hname
      have hpair : ¬item.HoldsNumber content ∧ ¬next.HoldsNumber content := by
        rw [Bool.or_eq_true, Bool.and_eq_true, Bool.and_eq_true] at hself
        rcases hself with ⟨hitem, hnext⟩ | ⟨hitem, hnext⟩
        · exact ⟨hcast hitem, hsymbol hnext⟩
        · exact ⟨hsymbol hitem, not_holdsNumber_of_isOperator (isOperator_of_isSymbol hnext)⟩
      cases after with
      | nil => cases hsubscript
      | cons x after =>
        cases hsubscript
        simpa using ⟨hpair.1, hpair.2, not_holdsNumber_of_fieldOfSubscript? hname⟩
    · obtain ⟨name, hname, heq⟩ := Option.map_eq_some_iff.1 h
      cases heq
      simpa using ⟨hsymbol hdouble, not_holdsNumber_of_fieldOfSubscript? hname⟩

end Leaf

/-! ### The rules -/

namespace Rule

/-- A rule that leaves the number tokens of some content. -/
def KeepsNumbers (content : Text) (rule : Rule) : Prop :=
  ∀ e next, rule.reduce? e = some next → e.HoldsNumber content → next.HoldsNumber content

theorem keepsNumbers_leaf (hcontent : Literal.ofNumberToken content = none) : leaf.KeepsNumbers content := by
  intro e next h hholds
  cases e with
  | group t items =>
    rcases holdsNumber_group_iff.1 hholds with ⟨hk, rfl⟩ | ⟨hk, hitems⟩
    · rw [leaf_number hk, hcontent] at h
      cases h
    · have hleaf : leaf.reduce? (.group t items) = (replaceItems? Leaf.reference? 0 items).map (.group t) := by
        cases hkind : t.kind <;> simp_all [leaf, Leaf.reduce?, TokenKind.keepsParts]
      rw [hleaf] at h
      obtain ⟨items', hitems', rfl⟩ := Option.map_eq_some_iff.1 h
      have hreplaces : TransGen (Replaces (KeepsNumber content)) items items' := by
        refine replaces_of_replaceItems? (fun item rest e n hreference => ?_) hitems'
        rintro ⟨y, hy, hholds⟩
        exact absurd hholds (Leaf.not_holdsNumber_of_reference? hreference y hy)
      exact holdsNumber_group_iff.2 (Or.inr ⟨hk, Replaces.keepsNumber hreplaces hitems⟩)
  | _ => cases h

theorem keepsNumbers_group {rule : Rule} (hrule : rule ∈ [call, operation, conditional]) :
    rule.KeepsNumbers content := by
  intro e next h hholds
  cases e with
  | group t items =>
    obtain ⟨items', rfl, hreplaces⟩ := replaces_of_reduce? hrule h
    rcases holdsNumber_group_iff.1 hholds with ⟨hk, ht⟩ | ⟨hk, hitems⟩
    · exact .token hk ht
    · have hkeeps : TransGen (Replaces (KeepsNumber content)) items items' := by
        refine hreplaces.lift id ?_
        rintro _ _ ⟨front, hx, back⟩
        exact .mk front hx.keepsNumber back
      exact holdsNumber_group_iff.2 (Or.inr ⟨hk, Replaces.keepsNumber hkeeps hitems⟩)
  | _ =>
    simp only [List.mem_cons, List.not_mem_nil, or_false] at hrule
    rcases hrule with rfl | rfl | rfl <;> cases h

theorem keepsNumbers_bindMatch : bindMatch.KeepsNumbers content := by
  intro e next h hholds
  simp only [bindMatch, Shape.bindMatch] at h
  split at h
  · rename_i op subject p fl neg
    have hsubject : subject.HoldsNumber content :=
      (holdsNumber_binary_iff.1 hholds).resolve_right (not_holdsNumber_of_children_eq_nil rfl rfl)
    have hbound : ∀ neg', (Expr.regexMatch subject p fl neg').HoldsNumber content := by
      intro neg'
      rw [holdsNumber_iff_of_token?_eq_none rfl, children_regexMatch hsubject.ne_hole]
      exact ⟨subject, List.mem_singleton_self _, hsubject⟩
    split_ifs at h <;> cases h <;> exact hbound _
  · cases h

theorem keepsNumbers_repetition : repetition.KeepsNumbers content := by
  intro e next h hholds
  simp only [repetition, Shape.repetition] at h
  split at h
  · split_ifs at h
    cases h
    rw [holdsNumber_iff_of_token?_eq_none rfl] at hholds ⊢
    exact hholds
  · cases h

/-- The guard may go since it equals the divisor. -/
theorem keepsNumbers_guardedDivision : guardedDivision.KeepsNumbers content := by
  intro e next h hholds
  simp only [guardedDivision, Shape.guardedDivision] at h
  split at h
  · rename_i guard op n d no
    split at h
    · rename_i hshape
      rw [Bool.and_eq_true, Bool.and_eq_true] at hshape
      obtain ⟨⟨-, hzero⟩, hsame⟩ := hshape
      have hno : ¬no.HoldsNumber content := by
        cases no with
        | literal => exact not_holdsNumber_of_children_eq_nil rfl rfl
        | _ => cases hzero
      have hpart : n.HoldsNumber content ∨ d.HoldsNumber content := by
        rw [holdsNumber_iff_of_token?_eq_none rfl] at hholds
        simp only [children, List.mem_cons, List.not_mem_nil, or_false] at hholds
        obtain ⟨c, rfl | rfl | rfl, hc⟩ := hholds
        · exact Or.inr (hc.of_same hsame)
        · exact holdsNumber_binary_iff.1 hc
        · exact absurd hc hno
      split at h
      · rename_i hone
        cases h
        have hn : ¬n.HoldsNumber content := by
          cases n with
          | literal => exact not_holdsNumber_of_children_eq_nil rfl rfl
          | _ => cases hone
        exact (holdsNumber_iff_of_token?_eq_none rfl).2 ⟨d, List.mem_singleton_self _, hpart.resolve_left hn⟩
      · cases h
        rw [holdsNumber_iff_of_token?_eq_none rfl]
        simpa [children] using hpart
    · cases h
  · cases h

theorem keepsNumbers_collapse : collapse.KeepsNumbers content := by
  intro e next h hholds
  cases e with
  | group t items =>
    obtain rfl := eq_single_of_collapse h
    rcases holdsNumber_group_iff.1 hholds with ⟨hk, -⟩ | ⟨-, hitems⟩
    · simp [collapse, Shape.collapse, hk] at h
    · simpa using hitems
  | _ => cases h

theorem keepsNumbers_standard (hcontent : Literal.ofNumberToken content = none) :
    ∀ rule ∈ standard, rule.KeepsNumbers content := by
  intro rule hrule
  simp only [standard, List.mem_cons, List.not_mem_nil, or_false] at hrule
  rcases hrule with rfl | rfl | rfl | rfl | rfl | rfl | rfl | rfl
  · exact keepsNumbers_leaf hcontent
  · exact keepsNumbers_group (by simp)
  · exact keepsNumbers_group (by simp)
  · exact keepsNumbers_bindMatch
  · exact keepsNumbers_group (by simp)
  · exact keepsNumbers_repetition
  · exact keepsNumbers_guardedDivision
  · exact keepsNumbers_collapse

section

variable {rules : List Rule} (hrules : ∀ rule ∈ rules, rule.KeepsNumbers content)
include hrules

theorem holdsNumber_round? {e next : Expr} (h : round? rules e = some next) (he : e.HoldsNumber content) :
    next.HoldsNumber content := by
  induction rules generalizing e next with
  | nil => cases h
  | cons rule rest ih =>
    have hrest : ∀ r ∈ rest, r.KeepsNumbers content := fun r hr => hrules r (List.mem_cons_of_mem _ hr)
    rw [round?] at h
    split at h
    · exact ih hrest h he
    · rename_i m hm
      cases h
      have hnext := hrules rule (List.mem_cons_self ..) e m hm he
      cases hround : round? rest m with
      | none => exact hnext
      | some last => exact ih hrest hround hnext

theorem holdsNumber_settle {below : Expr → Expr}
    (hbelow : ∀ c : Expr, c.HoldsNumber content → (below c).HoldsNumber content) (n : Nat) {e : Expr}
    (he : e.HoldsNumber content) : (settle below rules n e).HoldsNumber content := by
  induction n generalizing e with
  | zero => exact he
  | succ n ih =>
    rw [settle]
    split
    · exact he
    · rename_i next hnext
      exact ih ((holdsNumber_round? hrules hnext he).mapChildren fun c _ => hbelow c)

theorem holdsNumber_normalizeWithin (levels : Nat) {e : Expr} (he : e.HoldsNumber content) :
    (normalizeWithin rules levels e).HoldsNumber content := by
  induction levels generalizing e with
  | zero => exact he
  | succ levels ih =>
    rw [normalizeWithin_succ levels he.ne_hole]
    exact holdsNumber_settle hrules (fun c => ih) maxRounds (he.mapChildren fun c _ => ih)

end

end Rule

/-- No function comes from an expression with a number token left in it. -/
theorem Formula.exists_error_of_holdsNumber (f : Formula) {e : Expr} (h : e.HoldsNumber content) :
    ∃ failure, f.define e = .error failure := by
  have hreports : Source.Reports (Source.places e) (Source.ofExpr e) := Source.reports_ofExprAt e []
  rw [define]
  cases hresult : Source.ofExpr e with
  | error fault => exact ⟨_, rfl⟩
  | ok source =>
    rw [hresult] at hreports
    have hcanonical := Source.isCanonical_of_defectKind?_eq_none hreports.of_ok
    rw [h.not_isCanonical] at hcanonical
    cases hcanonical

end

/-! ### Which integers are read -/

namespace Literal

open Radix

/-- Exactly the accepted texts behind a mark are read. -/
theorem isSome_ofNumberToken_iff {content t : Text} (ht : content.filter (· != ch '_') = t)
    (hinteger : WrittenAsInteger t) :
    (ofNumberToken content).isSome ↔ ∃ (r : Radix) (body : Text), r.Marks body t ∧ r.Accepts body := by
  constructor
  · intro h
    have hne : t ≠ [] := by
      rintro rfl
      rw [ofNumberToken, ht] at h
      cases h
    obtain ⟨r, body, hmarks, heq⟩ := exists_marks ht hinteger hne
    rw [heq, isSome_ofDigits_iff hmarks.nonempty] at h
    exact ⟨r, body, hmarks, h⟩
  · rintro ⟨r, body, hmarks, hbody⟩
    rw [ofNumberToken_of_marks ht hinteger hmarks hbody]
    exact (isSome_ofDigits_iff hmarks.nonempty).2 hbody

/-- A text without blanks, signs and zero bytes, and without a second mark behind the mark of base sixteen. -/
structure Unadorned (t : Text) : Prop where
  bytes : ∀ b ∈ t, b ≠ 0 ∧ Byte.isSpace b = false ∧ b ≠ ch '+' ∧ b ≠ ch '-'
  marked : ∀ body rest, hexadecimal.Marks body t → ¬hexadecimal.Marks rest body

/-- Without such additions, what is accepted is made of digits. -/
theorem Unadorned.spells {t body : Text} (h : Unadorned t) {r : Radix} (hmarks : r.Marks body t)
    (hbody : r.Accepts body) : r.Spells body t := by
  have hbytes : ∀ b ∈ body, b ≠ 0 ∧ Byte.isSpace b = false ∧ b ≠ ch '+' ∧ b ≠ ch '-' := by
    obtain ⟨m, -, rfl⟩ := hmarks.mark
    exact fun b hb => h.bytes b (List.mem_append_right m hb)
  have hseen : body.upToZero = body :=
    List.takeWhile_eq_self_iff.2 fun b hb => by simpa using (hbytes b hb).1
  rw [Accepts, hseen] at hbody
  obtain ⟨negative, digits, hrun⟩ := hbody.resolve_left hmarks.nonempty
  obtain ⟨hblanks, hsign, hmark, hne, hdigits⟩ := hrun
  rename_i blanks sign mark
  cases blanks with
  | cons b blanks =>
    have hspace := (hbytes b (List.mem_cons_self ..)).2.1
    rw [hblanks b (List.mem_cons_self ..)] at hspace
    cases hspace
  | nil =>
    cases hsign with
    | plus => exact absurd rfl (hbytes (ch '+') (List.mem_cons_self ..)).2.2.1
    | minus => exact absurd rfl (hbytes (ch '-') (List.mem_cons_self ..)).2.2.2
    | absent =>
      rcases hmark with rfl | ⟨rfl, hmark⟩
      · exact ⟨hmarks, hdigits⟩
      · exact absurd (marks_of_ne_decimal (by decide) hne ⟨mark, hmark, rfl⟩) (h.marked _ digits hmarks)

end Literal

namespace Formula

open Radix Literal

end Formula
end TagFormula

import Mathlib.Data.List.Forall2
import TagFormula.Proofs.NormalFormEquations

/-!
Items that look alike and have one normal form may stand for each other. Main statements: a group of items
in which no reference and no call starts is settled by operations and conditionals alone, and as far as
normal forms go, calls and operations may be found before or after the items become a group.
-/

namespace TagFormula

namespace Rule

open Expr

/-- Two items that look alike and have one normal form. -/
structure Agree (x y : Expr) : Prop where
  normalForm : normalForm x = normalForm y
  face : x.face = y.face

theorem Agree.refl (x : Expr) : Agree x x := ⟨rfl, rfl⟩

theorem Agree.symm {x y : Expr} (h : Agree x y) : Agree y x := ⟨h.normalForm.symm, h.face.symm⟩

theorem Agree.unary {x y : Expr} (h : Agree x y) (op : Text) : Agree (.unary op x) (.unary op y) :=
  ⟨normalForm_congr (by rw [mapChildren, mapChildren, h.normalForm]), rfl⟩

theorem Agree.binary {l l' r r' : Expr} (hl : Agree l l') (hr : Agree r r') (op : Text) :
    Agree (.binary op l r) (.binary op l' r') :=
  ⟨normalForm_congr (by rw [mapChildren, mapChildren, hl.normalForm, hr.normalForm]), rfl⟩

theorem Agree.eq_of_isOperator {o o' : Expr} (h : Agree o o') (ho : o.isOperator) : o' = o :=
  eq_of_face_eq_operator ho h.face.symm

theorem Agree.isOperand {x y : Expr} (h : Agree x y) : y.isOperand = x.isOperand := by
  rw [← isOperand_face, ← h.face, isOperand_face]

theorem Agree.isSymbol {x y : Expr} (h : Agree x y) (s : String) : y.isSymbol s = x.isSymbol s := by
  rw [← isSymbol_face, ← h.face, isSymbol_face]

/-! ### Lists of items -/

/-- Items agree one by one. -/
abbrev AgreeAll (items items' : List Expr) : Prop := List.Forall₂ Agree items items'

theorem AgreeAll.symm {items items' : List Expr} (h : AgreeAll items items') : AgreeAll items' items := by
  induction h with
  | nil => exact .nil
  | cons hx _ ih => exact .cons hx.symm ih

theorem AgreeAll.map_face {items items' : List Expr} (h : AgreeAll items items') :
    items'.map face = items.map face := by
  induction h with
  | nil => rfl
  | cons hx _ ih => rw [List.map_cons, List.map_cons, ih, hx.face]

theorem AgreeAll.map_normalForm {items items' : List Expr} (h : AgreeAll items items') :
    items.map normalForm = items'.map normalForm := by
  induction h with
  | nil => rfl
  | cons hx _ ih => rw [List.map_cons, List.map_cons, ih, hx.normalForm]

/-- Items that are ready agree with their normal forms. -/
theorem agreeAll_map_normalForm {items : List Expr} (h : ∀ x ∈ items, Ready x) :
    AgreeAll items (items.map normalForm) := by
  rw [AgreeAll, List.forall₂_map_right_iff, List.forall₂_same]
  exact fun x hx => ⟨(normalForm_normalForm x).symm, (h x hx).face_normalForm.symm⟩

theorem normalForm_group_congr {items items' : List Expr} (h : AgreeAll items items') (t : Token) :
    normalForm (.group t items) = normalForm (.group t items') :=
  normalForm_congr (by rw [mapChildren_group, mapChildren_group, h.map_normalForm])

theorem normalForm_collapseOrWrap_congr {items items' : List Expr} (h : AgreeAll items items') :
    normalForm (collapseOrWrap items) = normalForm (collapseOrWrap items') := by
  cases h with
  | nil => rfl
  | cons hx hrest =>
    cases hrest with
    | nil => exact hx.normalForm
    | cons hy hrest => exact normalForm_group_congr (.cons hx (.cons hy hrest)) _

/-- Items around an operator agree with items around the same operator. -/
theorem AgreeAll.exists_of_append {front back items' : List Expr} {o : Expr} (ho : o.isOperator)
    (h : AgreeAll (front ++ o :: back) items') :
    ∃ front' back', items' = front' ++ o :: back' ∧ AgreeAll front front' ∧ AgreeAll back back' := by
  induction front generalizing items' with
  | nil =>
    obtain ⟨o', back', hagree, hback, rfl⟩ := List.forall₂_cons_left_iff.1 h
    exact ⟨[], back', by rw [hagree.eq_of_isOperator ho]; rfl, .nil, hback⟩
  | cons x front ih =>
    obtain ⟨x', rest', hx, hrest, rfl⟩ := List.forall₂_cons_left_iff.1 h
    obtain ⟨front', back', rfl, hfront, hback⟩ := ih hrest
    exact ⟨x' :: front', back', rfl, .cons hx hfront, hback⟩

end Rule

open Rule Expr

/-! ### Operations -/

theorem Collapses.agree {items run items' : List Expr} (h : Collapses items run)
    (hitems : AgreeAll items items') : ∃ run', Collapses items' run' ∧ AgreeAll run run' := by
  induction h generalizing items' with
  | last hx =>
    obtain ⟨x', _, hx', hnil, rfl⟩ := List.forall₂_cons_left_iff.1 hitems
    cases hnil
    exact ⟨[x'], .last (hx'.isOperand ▸ hx), .cons hx' .nil⟩
  | @operator x o op rest run hx ho h ih =>
    obtain ⟨x', _, hx', htail, rfl⟩ := List.forall₂_cons_left_iff.1 hitems
    obtain ⟨o', rest', ho', hrest, rfl⟩ := List.forall₂_cons_left_iff.1 htail
    obtain ⟨run', hrun, hagree⟩ := ih hrest
    rw [ho'.eq_of_isOperator (isOperator_of_isInfix ho)]
    exact ⟨x' :: o :: run', .operator (hx'.isOperand ▸ hx) ho hrun, .cons hx' (.cons (.refl o) hagree)⟩
  | @sign p x symbol rest run hp h hpower ih =>
    obtain ⟨p', rest', hp', hrest, rfl⟩ := List.forall₂_cons_left_iff.1 hitems
    obtain ⟨_, hrun, hagree⟩ := ih hrest
    obtain ⟨y, tail, hy, htail, rfl⟩ := List.forall₂_cons_left_iff.1 hagree
    rw [hp'.eq_of_isOperator (isOperator_of_isSign hp)]
    refine ⟨.unary symbol y :: tail, .sign hp hrun ?_, .cons (hy.unary symbol) htail⟩
    intro o ho
    cases htail with
    | nil => cases ho
    | cons ho' _ =>
      cases ho
      rw [ho'.isSymbol]
      exact hpower _ rfl

theorem OperatorTree.Spells.agree {t : OperatorTree} {run run' : List Expr} (h : t.Spells run)
    (hrun : AgreeAll run run') : ∃ t' : OperatorTree, t'.Spells run' ∧ t'.top? = t.top? ∧
      (t.Grouped → t'.Grouped) ∧ Agree t.toExpr t'.toExpr := by
  induction h generalizing run' with
  | leaf hx =>
    obtain ⟨x', _, hx', hnil, rfl⟩ := List.forall₂_cons_left_iff.1 hrun
    cases hnil
    exact ⟨.leaf x', .leaf (hx'.isOperand ▸ hx), rfl, id, hx'⟩
  | @node op l r o left right ho hl hr ihl ihr =>
    obtain ⟨left', right', rfl, hleft, hright⟩ := hrun.exists_of_append (isOperator_of_isInfix ho)
    obtain ⟨l', hl', htopl, hgroupedl, hagreel⟩ := ihl hleft
    obtain ⟨r', hr', htopr, hgroupedr, hagreer⟩ := ihr hright
    refine ⟨.node op l' r', .node ho hl' hr', rfl, ?_, hagreel.binary hagreer op.symbol⟩
    rintro ⟨honLeft, honRight, hgl, hgr⟩
    exact ⟨by rwa [htopl], by rwa [htopr], hgroupedl hgl, hgroupedr hgr⟩

theorem OperationOf.agree {items items' : List Expr} {e : Expr} (h : OperationOf items e)
    (hitems : AgreeAll items items') : ∃ e', OperationOf items' e' ∧ Agree e e' := by
  obtain ⟨run, t, hsigned, hspells, hgrouped, rfl⟩ := h
  obtain ⟨run', hcollapses, hrun⟩ := (collapses_iff_signedRun.2 hsigned).agree hitems
  obtain ⟨t', hspells', -, hgrouped', hagree⟩ := hspells.agree hrun
  exact ⟨t'.toExpr, ⟨run', t', collapses_iff_signedRun.1 hcollapses, hspells', hgrouped' hgrouped, rfl⟩,
    hagree⟩

namespace Operation

theorem resolved_agree {run run' : List Expr} (h : AgreeAll run run') :
    AgreeAll (resolved run) (resolved run') := by
  rcases resolved_cases run with ⟨e, hlength, hop, heq⟩ | ⟨hnone, heq⟩
  · obtain ⟨e', hop', hagree⟩ := hop.agree h
    have hresolve : resolve? run' = some e' := resolve?_eq_some_iff.2 ⟨h.length_eq ▸ hlength, hop'⟩
    rw [heq, resolved, hresolve]
    exact .cons hagree .nil
  · rw [heq, resolved, resolve?_of_faces h.map_face hnone]
    exact h

theorem resolveRuns_agree {items items' : List Expr} (h : AgreeAll items items') :
    AgreeAll (resolveRuns items) (resolveRuns items') := by
  have hbarrier : ∀ {run run' : List Expr}, AgreeAll run run' → (∀ e ∈ run, e.isBarrier = false) →
      ∀ e ∈ run', e.isBarrier = false := by
    intro run run' hrun hno
    induction hrun with
    | nil => exact hno
    | cons hx _ ih =>
      rw [List.forall_mem_cons] at hno ⊢
      exact ⟨by rw [← isBarrier_face, ← hx.face, isBarrier_face]; exact hno.1, ih hno.2⟩
  induction items using runInduction generalizing items' with
  | run run hrun =>
    rw [resolveRuns_run hrun, resolveRuns_run (hbarrier h hrun)]
    exact resolved_agree h
  | barrier run b rest hrun hb ih =>
    obtain ⟨run', rest', rfl, hrun', hrest⟩ := h.exists_of_append (isOperator_of_isBarrier hb)
    rw [resolveRuns_run_append hrun hb, resolveRuns_run_append (hbarrier hrun' hrun) hb]
    exact List.rel_append (resolved_agree hrun') (.cons (.refl b) (ih hrest))

end Operation

/-! ### Conditionals -/

theorem Rule.AgreeAll.span {items items' : List Expr} (h : AgreeAll items items') {p : Expr → Bool}
    (hp : ∀ x y, Agree x y → p y = p x) : AgreeAll (items.takeWhile p) (items'.takeWhile p) ∧
      AgreeAll (items.dropWhile p) (items'.dropWhile p) := by
  induction h with
  | nil => exact ⟨.nil, .nil⟩
  | @cons x y _ _ hx hrest ih =>
    rw [List.takeWhile_cons, List.takeWhile_cons, List.dropWhile_cons, List.dropWhile_cons, hp x y hx]
    split
    · exact ⟨.cons hx ih.1, ih.2⟩
    · exact ⟨.nil, .cons hx hrest⟩

namespace Conditional

theorem splitAtColon?_agree {items items' yes no : List Expr} (h : AgreeAll items items') {depth : Nat}
    (hsplit : splitAtColon? depth items = some (yes, no)) : ∃ yes' no',
      splitAtColon? depth items' = some (yes', no') ∧ AgreeAll yes yes' ∧ AgreeAll no no' := by
  induction h generalizing depth yes with
  | nil => cases hsplit
  | @cons x x' rest rest' hx hrest ih =>
    have goOn : ∀ d, (splitAtColon? d rest).map (fun parts => (x :: parts.1, parts.2)) = some (yes, no) →
        ∃ yes' no', (splitAtColon? d rest').map (fun parts => (x' :: parts.1, parts.2)) = some (yes', no') ∧
          AgreeAll yes yes' ∧ AgreeAll no no' := by
      intro d hd
      obtain ⟨parts, hparts, heq⟩ := Option.map_eq_some_iff.1 hd
      obtain ⟨rfl, rfl⟩ := Prod.mk.inj heq
      obtain ⟨yes', no', hsplit', hyes, hno⟩ := ih hparts
      exact ⟨x' :: yes', no', by rw [hsplit']; rfl, .cons hx hyes, hno⟩
    simp only [splitAtColon?, hx.isSymbol] at hsplit ⊢
    split
    · rename_i hq
      rw [if_pos hq] at hsplit
      exact goOn _ hsplit
    · rename_i hq
      rw [if_neg hq] at hsplit
      split
      · rename_i hk
        rw [if_pos hk] at hsplit
        cases depth with
        | zero =>
          obtain ⟨rfl, rfl⟩ := Prod.mk.inj (Option.some.inj hsplit)
          exact ⟨[], rest', rfl, .nil, hrest⟩
        | succ depth => exact goOn depth hsplit
      · rename_i hk
        rw [if_neg hk] at hsplit
        exact goOn _ hsplit

theorem parts?_agree {items items' test yes no : List Expr} (h : AgreeAll items items')
    (hparts : parts? items = some (test, yes, no)) : ∃ test' yes' no',
      parts? items' = some (test', yes', no') ∧ AgreeAll test test' ∧ AgreeAll yes yes' ∧ AgreeAll no no' := by
  have hempty : ∀ {a b : List Expr}, AgreeAll a b → b.isEmpty = a.isEmpty := by
    intro a b hab
    cases hab <;> rfl
  obtain ⟨htest, hdrop⟩ := h.span (p := fun e => !e.isSymbol "?") fun x y hxy => by rw [hxy.isSymbol]
  simp only [parts?, Option.bind_eq_bind, Option.bind_eq_some_iff] at hparts ⊢
  obtain ⟨⟨yes₀, no₀⟩, hsplit, hif⟩ := hparts
  obtain ⟨yes', no', hsplit', hyes, hno⟩ := splitAtColon?_agree (List.forall₂_drop 1 hdrop) hsplit
  split at hif
  · cases hif
  · rename_i hne
    cases hif
    refine ⟨_, yes', no', ⟨_, hsplit', ?_⟩, htest, hyes, hno⟩
    rw [← hempty htest, ← hempty hyes, ← hempty hno] at hne
    rw [if_neg hne]

end Conditional

namespace Rule

theorem operated_agree {items items' : List Expr} (h : AgreeAll items items') :
    AgreeAll (operated items) (operated items') := by
  have hmixes : mixesConditional items' = mixesConditional items := by
    rw [← mixesConditional_face, h.map_face, mixesConditional_face]
  unfold operated
  rw [hmixes]
  split
  · exact h
  · exact Operation.resolveRuns_agree h

section

variable {t : Token} (ht : t.kind.isWrapper)
include ht

/-- Items that become a conditional or stand alone, against items that agree with them. -/
theorem normalForm_finished_of_resolved {items items' : List Expr} (h : AgreeAll items items')
    (hitems : (∃ test yes no, items.any isComma = false ∧ mixesConditional items = false ∧
        Conditional.parts? items = some (test, yes, no)) ∨ ∃ x, items = [x] ∧ x.isHole = false) :
    normalForm (finished t items) = normalForm (finished t items') := by
  rcases hitems with ⟨test, yes, no, hcomma, hmixes, hparts⟩ | ⟨x, rfl, hx⟩
  · obtain ⟨test', yes', no', hparts', htest, hyes, hno⟩ := Conditional.parts?_agree h hparts
    have hcomma' : items'.any isComma = false := by
      have := congrArg (List.any · isComma) h.map_face
      simpa [List.any_map, Function.comp_def, hcomma] using this
    have hmixes' : mixesConditional items' = false := by
      rw [← mixesConditional_face, h.map_face, mixesConditional_face, hmixes]
    rw [finished_conditional ht hcomma hmixes hparts, finished_conditional ht hcomma' hmixes' hparts']
    refine normalForm_congr ?_
    rw [mapChildren, mapChildren, normalForm_collapseOrWrap_congr htest,
      normalForm_collapseOrWrap_congr hyes, normalForm_collapseOrWrap_congr hno]
  · obtain ⟨x', _, hx', hnil, rfl⟩ := List.forall₂_cons_left_iff.1 h
    cases hnil
    have hhole : x'.isHole = false := by rw [← isHole_face, ← hx'.face, isHole_face, hx]
    rw [finished_single ht hx, finished_single ht hhole, hx'.normalForm]

theorem normalForm_finished_congr {items items' : List Expr} (h : AgreeAll items items') :
    normalForm (finished t items) = normalForm (finished t items') := by
  rcases finished_cases items with hconditional | ⟨-, hsingle | ⟨-, hgroup⟩⟩
  · exact normalForm_finished_of_resolved ht h (Or.inl hconditional)
  · exact normalForm_finished_of_resolved ht h (Or.inr hsingle)
  · rcases finished_cases items' with hconditional | ⟨-, hsingle | ⟨-, hgroup'⟩⟩
    · exact (normalForm_finished_of_resolved ht h.symm (Or.inl hconditional)).symm
    · exact (normalForm_finished_of_resolved ht h.symm (Or.inr hsingle)).symm
    · rw [hgroup, hgroup']
      exact normalForm_group_congr h t

end

end Rule

/-! ### Items in which nothing starts any more -/

theorem replaceAll_of_idle {step : Expr → List Expr → Option (Expr × Nat)} {items : List Expr}
    (h : Idle step items) : replaceAll step items = items := by
  rw [replaceAll, replaceItems?_eq_none_iff.2 h]
  rfl

theorem replaceAll_ne_nil {step : Expr → List Expr → Option (Expr × Nat)} {items : List Expr}
    (h : items ≠ []) : replaceAll step items ≠ [] := by
  obtain ⟨item, rest, rfl⟩ := List.exists_cons_of_ne_nil h
  cases hs : step item rest with
  | none => simp [replaceAll_of_none hs]
  | some r => simp [replaceAll_of_some (show step item rest = some (r.1, r.2) from hs)]

theorem Call.step?_of_grouped? {item inner : Expr} (h : grouped? item = some inner) (rest : List Expr) :
    step? item rest = some (inner, 0) := by
  obtain ⟨t, ht, rfl⟩ := grouped?_eq_some h
  simp [step?, word?, ht, h]

/-- What stands for several items is a call. -/
theorem inert_of_calls_eq_single {items : List Expr} {x : Expr} (hlength : 2 ≤ items.length)
    (h : replaceAll Call.step? items = [x]) : x.Inert := by
  obtain ⟨item, rest, rfl⟩ := List.exists_cons_of_length_pos (Nat.lt_of_lt_of_le Nat.zero_lt_two hlength)
  have hrest : rest ≠ [] := by
    rintro rfl
    simp at hlength
  cases hs : Call.step? item rest with
  | none =>
    rw [replaceAll_of_none hs, List.cons.injEq] at h
    exact absurd h.2 (replaceAll_ne_nil hrest)
  | some r =>
    obtain ⟨e, n⟩ := r
    rw [replaceAll_of_some hs, List.cons.injEq] at h
    obtain ⟨rfl, hdrop⟩ := h
    rcases Call.step?_eq_some hs with ⟨-, he⟩ | hgrouped
    · exact he
    · -- parentheses that give way cover no other item
      rw [Call.step?_of_grouped? hgrouped] at hs
      cases hs
      exact absurd hdrop (replaceAll_ne_nil hrest)

/-- What stands for several items is an operation. -/
theorem inert_of_resolveRuns_eq_single {items : List Expr} {x : Expr} (hlength : 2 ≤ items.length)
    (h : Operation.resolveRuns items = [x]) : x.Inert := by
  have hmerges := merges_resolveRuns items
  rw [h] at hmerges
  cases hmerges with
  | keep hmerges =>
    cases hmerges
    simp at hlength
  | merge _ he => exact he

namespace Rule

/-- A group in which no reference and no call starts. -/
theorem normalForm_of_idle {t : Token} (ht : t.kind.isWrapper) {items : List Expr}
    (hready : ∀ x ∈ items, Ready x) (hreference : Idle Leaf.reference? items)
    (hstep : Idle Call.step? items) :
    normalForm (.group t items) = normalForm (finished t (operated items)) := by
  have hagree := agreeAll_map_normalForm hready
  have hreference' := hreference.of_faces (fun item rest => by rw [Leaf.reference?_face]) hagree.map_face
  have hstep' := hstep.of_faces (fun item rest => Call.step?_face) hagree.map_face
  rw [normalForm_group_congr hagree t,
    normalForm_container (TokenKind.isContainer_of_isWrapper ht) (settled_map_normalForm items),
    replaceAll_of_idle hreference', replaceAll_of_idle hstep']
  exact (normalForm_finished_congr ht (operated_agree hagree)).symm

theorem ready_calls {items : List Expr} (h : ∀ x ∈ items, Settled standard x) :
    ∀ x ∈ replaceAll Call.step? items, Ready x := by
  intro x hx
  rcases mem_calls hx with ⟨hx, -⟩ | hx | ⟨y, hy, hgrouped⟩
  · exact Or.inl (h x hx)
  · exact Or.inr hx
  · exact Or.inl ((h y hy).of_grouped? hgrouped).1

theorem operated_single (x : Expr) : operated [x] = [x] := by
  unfold operated
  split
  · rfl
  · exact Operation.resolveRuns_of_length_lt (by simp)

theorem operated_resolveRuns (items : List Expr) :
    operated (Operation.resolveRuns items) = Operation.resolveRuns items := by
  unfold operated
  split
  · rfl
  · exact Operation.resolveRuns_resolveRuns items

/-- The token of a group that items are put into. -/
def wrapToken : Token := ⟨.expression, ascii "PPI::Statement::Expression", [], [], none⟩

theorem collapseOrWrap_of_two_le {items : List Expr} (h : 2 ≤ items.length) :
    collapseOrWrap items = .group wrapToken items := by
  unfold collapseOrWrap
  split
  · simp at h
  · rfl

/-- Items in which nothing starts are settled by operations and conditionals. -/
theorem normalForm_collapseOrWrap_of_idle {items : List Expr} (hready : ∀ x ∈ items, Ready x)
    (hreference : Idle Leaf.reference? items) (hstep : Idle Call.step? items) (hne : items ≠ [])
    (hsingle : ∀ x, items = [x] → x.isHole = false) :
    normalForm (collapseOrWrap items) = normalForm (finished wrapToken (operated items)) := by
  by_cases hlength : 2 ≤ items.length
  · rw [collapseOrWrap_of_two_le hlength, normalForm_of_idle rfl hready hreference hstep]
  · obtain ⟨x, rfl⟩ : ∃ x, items = [x] := by
      have := List.length_pos_iff.2 hne
      exact List.length_eq_one_iff.1 (by omega)
    rw [operated_single, finished_single rfl (hsingle x rfl)]
    rfl

/-- Calls may be found before items become a group. -/
theorem normalForm_calls {items : List Expr} (hsettled : ∀ x ∈ items, Settled standard x)
    (hlength : 2 ≤ items.length) (hbefore : Idle Leaf.reference? items)
    (hreference : Idle Leaf.reference? (replaceAll Call.step? items))
    (hstep : Idle Call.step? (replaceAll Call.step? items)) :
    normalForm (collapseOrWrap (replaceAll Call.step? items)) = normalForm (collapseOrWrap items) := by
  have hne : items ≠ [] := List.ne_nil_of_length_pos (by omega)
  rw [collapseOrWrap_of_two_le hlength, normalForm_container rfl hsettled, replaceAll_of_idle hbefore]
  exact normalForm_collapseOrWrap_of_idle (ready_calls hsettled) hreference hstep (replaceAll_ne_nil hne)
    fun x hx => (inert_of_calls_eq_single hlength hx).isHole

/-- Operations may be found before items become a group, if no conditional stands beside an operator that
binds less tightly. -/
theorem normalForm_resolveRuns {items : List Expr} (hready : ∀ x ∈ items, Ready x)
    (hreference : Idle Leaf.reference? items) (hstep : Idle Call.step? items)
    (hmixes : mixesConditional items = false) :
    normalForm (collapseOrWrap (Operation.resolveRuns items)) = normalForm (collapseOrWrap items) := by
  by_cases hlength : 2 ≤ items.length
  · have hmerges := merges_resolveRuns items
    have hready' : ∀ x ∈ Operation.resolveRuns items, Ready x :=
      fun x hx => (hmerges.mem hx).elim (hready x) Or.inr
    have hne : Operation.resolveRuns items ≠ [] := by
      intro hnil
      rw [hnil] at hmerges
      cases hmerges
      simp at hlength
    rw [collapseOrWrap_of_two_le hlength, normalForm_of_idle rfl hready hreference hstep,
      normalForm_collapseOrWrap_of_idle hready' (hreference.merges steady_reference? hmerges)
        (hstep.merges steady_step? hmerges) hne
        fun x hx => (inert_of_resolveRuns_eq_single hlength hx).isHole,
      operated_resolveRuns, operated, hmixes]
    rfl
  · rw [Operation.resolveRuns_of_length_lt (by omega)]

end Rule
end TagFormula

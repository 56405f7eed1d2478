import TagFormula.Proofs.RoundLimit

/-!
Normal forms without a limit on the depth, as a function. Main statements: the normal form of an expression
is that of the expression with its parts in normal form, and a round over such parts does not change it. So
a node may be followed round by round, with no regard to levels and to the number of rounds.
-/

namespace TagFormula

namespace Rule

open Expr

/-- Where rounds end by themselves, it does not matter how many more there may be. -/
theorem settle_eq_of_settleEnds {rules : List Rule} {below : Expr → Expr} {ends : Expr → Prop} {k n m : Nat}
    {e : Expr} (h : SettleEnds below ends rules k e) (hn : k ≤ n) (hm : k ≤ m) :
    settle below rules n e = settle below rules m e := by
  induction k generalizing n m e with
  | zero => exact h.elim
  | succ k ih =>
    obtain ⟨n, rfl⟩ := Nat.exists_eq_add_of_le' (Nat.le_trans (Nat.le_add_left 1 k) hn)
    obtain ⟨m, rfl⟩ := Nat.exists_eq_add_of_le' (Nat.le_trans (Nat.le_add_left 1 k) hm)
    cases hr : round? rules e with
    | none =>
      have hd := round?_eq_none_iff.1 hr
      rw [settle_of_declined hd, settle_of_declined hd]
    | some next =>
      rw [settleEnds_succ hr] at h
      rw [settle, settle, hr]
      exact ih h.2 (by omega) (by omega)

/-! ### The normal form -/

/-- The normal form without a limit on the depth: no expression needs more levels than its weight. -/
def normalForm (e : Expr) : Expr := normalizeWithin standard e.weight e

theorem not_meetsLimit_standard {n : Nat} {e : Expr} (h : e.weight ≤ n) :
    ¬MeetsLimit standard (fun _ => True) n e :=
  not_meetsLimit_of_weight_le (fun _ => lightens_of_mem_standard) h

theorem normalizeWithin_of_not_meetsLimit {n : Nat} {e : Expr}
    (h : ¬MeetsLimit standard (fun _ => True) n e) : normalizeWithin standard n e = normalForm e :=
  NormalForm.eq ⟨n, h, rfl⟩ ⟨e.weight, not_meetsLimit_standard (Nat.le_refl _), rfl⟩

theorem normalizeWithin_of_weight_le {n : Nat} {e : Expr} (h : e.weight ≤ n) :
    normalizeWithin standard n e = normalForm e :=
  normalizeWithin_of_not_meetsLimit (not_meetsLimit_standard h)

theorem settled_normalForm (e : Expr) : Settled standard (normalForm e) :=
  (done_of_not_meetsLimit (not_meetsLimit_standard (Nat.le_refl _))).2

theorem settled_map_normalForm (items : List Expr) : ∀ x ∈ items.map normalForm, Settled standard x := by
  intro x hx
  obtain ⟨y, -, rfl⟩ := List.mem_map.1 hx
  exact settled_normalForm y

theorem normalForm_of_settled {e : Expr} (h : Settled standard e) : normalForm e = e :=
  normalizeWithin_of_settled h _

theorem normalForm_normalForm (e : Expr) : normalForm (normalForm e) = normalForm e :=
  normalForm_of_settled (settled_normalForm e)

theorem Ready.face_normalForm {x : Expr} (h : Ready x) : (normalForm x).face = x.face :=
  h.face_normalizeWithin x.weight

theorem settled_of_mem_mapChildren {e : Expr} :
    ∀ d ∈ (e.mapChildren normalForm).children, Settled standard d := by
  intro d hd
  obtain ⟨c, -, rfl⟩ := exists_of_mem_children_mapChildren hd
  exact settled_normalForm c

theorem mapChildren_ne_hole {f : Expr → Expr} {e : Expr} (h : e ≠ .hole) : e.mapChildren f ≠ .hole := by
  cases e with
  | hole => exact absurd rfl h
  | regexMatch s => cases s <;> simp [mapChildren]
  | _ => simp [mapChildren]

/-- Parts may be brought to normal form first. -/
theorem normalForm_mapChildren (e : Expr) : normalForm (e.mapChildren normalForm) = normalForm e := by
  by_cases he : e = .hole
  · rw [he]
    rfl
  · have hweight : (e.mapChildren normalForm).weight ≤ e.weight :=
      weight_mapChildren_le fun c _ => weight_normalizeWithin_le (fun _ => lightens_of_mem_standard) _ c
    have hparts : e.mapChildren (normalizeWithin standard e.weight) = e.mapChildren normalForm :=
      mapChildren_congr fun c hc => normalizeWithin_of_weight_le (Nat.le_of_lt (weight_lt_of_mem_children hc))
    rw [← normalizeWithin_of_weight_le (Nat.le_succ_of_le hweight),
      ← normalizeWithin_of_weight_le (Nat.le_succ e.weight), Nat.succ_eq_add_one,
      normalizeWithin_succ _ (mapChildren_ne_hole he), normalizeWithin_succ _ he, hparts,
      Settled.mapChildren settled_of_mem_mapChildren]

theorem normalForm_congr {e e' : Expr} (h : e.mapChildren normalForm = e'.mapChildren normalForm) :
    normalForm e = normalForm e' := by
  rw [← normalForm_mapChildren e, h, normalForm_mapChildren]

theorem declined_hole : Declined standard .hole := declined_of_children_eq_nil rfl rfl

/-- A round over parts in normal form leads to the same normal form. -/
theorem normalForm_foldl {e : Expr} (he : ∀ c ∈ e.children, Settled standard c) :
    normalForm (standard.foldl apply e) = normalForm e := by
  rw [← round?_getD]
  cases hr : round? standard e with
  | none => rfl
  | some next =>
    have hnext : next.weight ≤ e.weight := weight_round?_le (fun _ => lightens_of_mem_standard) hr
    have hne : e ≠ .hole := by
      rintro rfl
      rw [round?_eq_none_iff.2 declined_hole] at hr
      cases hr
    have hlimit := not_meetsLimit_standard (Nat.le_succ_of_le hnext)
    rw [Option.getD_some, ← normalizeWithin_of_weight_le (Nat.le_succ_of_le hnext),
      ← normalizeWithin_of_weight_le (Nat.le_succ e.weight), Nat.succ_eq_add_one,
      normalizeWithin_succ _ hne, Settled.mapChildren he, maxRounds, settle, hr]
    by_cases hhole : next = .hole
    · rw [hhole, normalizeWithin_hole]
      exact (settle_of_declined declined_hole _).symm
    · have hends := (done_of_not_meetsLimit hlimit).1
      rw [Nat.succ_eq_add_one, endsWithin_succ _ hhole] at hends
      rw [normalizeWithin_succ _ hhole]
      exact settle_eq_of_settleEnds hends.2 (by decide) (by decide)

/-! ### Rounds at a group -/

/-- Items with their operations resolved, unless a conditional stands beside an operator that binds less
tightly. -/
def operated (items : List Expr) : List Expr :=
  if mixesConditional items then items else Operation.resolveRuns items

/-- What becomes of a group as a conditional, or as the single item that it holds. -/
def finished (t : Token) (items : List Expr) : Expr := apply (apply (.group t items) conditional) collapse

theorem conditional_eq_some_iff {t : Token} {items : List Expr} {next : Expr} :
    conditional.reduce? (.group t items) = some next ↔ items.any isComma = false ∧
      mixesConditional items = false ∧ ∃ test yes no, Conditional.parts? items = some (test, yes, no) ∧
        next = .group t [.conditional (collapseOrWrap test) (collapseOrWrap yes) (collapseOrWrap no)] := by
  simp only [conditional, Conditional.reduce?]
  split
  · rename_i h
    rw [Bool.or_eq_true] at h
    simp only [reduceCtorEq, false_iff, not_and]
    intro hcomma hmixes
    rcases h with h | h <;> simp_all
  · rename_i h
    rw [Bool.or_eq_true, not_or, Bool.not_eq_true, Bool.not_eq_true] at h
    simp only [h.1, h.2, true_and, Option.map_eq_some_iff, Prod.exists]
    constructor
    · rintro ⟨test, yes, no, hparts, rfl⟩
      exact ⟨test, yes, no, hparts, rfl⟩
    · rintro ⟨test, yes, no, hparts, rfl⟩
      exact ⟨test, yes, no, hparts, rfl⟩

/-- A round over a group: references, calls, operations, then the group as a whole. -/
theorem foldl_standard_container {t : Token} (ht : t.kind.isContainer) (items : List Expr) :
    standard.foldl apply (.group t items)
      = finished t (operated (replaceAll Call.step? (replaceAll Leaf.reference? items))) := by
  rw [standard, List.foldl_cons, apply_leaf_group ht, List.foldl_cons, apply_call_group, List.foldl_cons,
    apply_operation_group, List.foldl_cons, apply_of_none rfl, List.foldl_cons]
  generalize replaceAll Call.step? (replaceAll Leaf.reference? items) = left
  change [repetition, guardedDivision, collapse].foldl apply (apply (.group t (operated left)) conditional)
    = finished t (operated left)
  unfold finished
  cases hc : conditional.reduce? (.group t (operated left)) with
  | none =>
    rw [apply_of_none hc]
    rfl
  | some next =>
    obtain ⟨-, -, test, yes, no, -, rfl⟩ := conditional_eq_some_iff.1 hc
    rw [apply_of_some hc]
    rfl

theorem normalForm_container {t : Token} (ht : t.kind.isContainer) {items : List Expr}
    (h : ∀ x ∈ items, Settled standard x) : normalForm (.group t items)
      = normalForm (finished t (operated (replaceAll Call.step? (replaceAll Leaf.reference? items)))) := by
  rw [← foldl_standard_container ht, normalForm_foldl (e := .group t items) h]

section

variable {t : Token} (ht : t.kind.isWrapper)
include ht

theorem finished_conditional {items test yes no : List Expr} (hcomma : items.any isComma = false)
    (hmixes : mixesConditional items = false) (h : Conditional.parts? items = some (test, yes, no)) :
    finished t items
      = .conditional (collapseOrWrap test) (collapseOrWrap yes) (collapseOrWrap no) := by
  have hc := (conditional_eq_some_iff (t := t)).2 ⟨hcomma, hmixes, test, yes, no, h, rfl⟩
  rw [finished, apply_of_some hc, apply_of_some (collapse_single ht rfl)]

theorem finished_single {x : Expr} (hx : x.isHole = false) : finished t [x] = x := by
  rw [finished, apply_of_none (conditional_single t x), apply_of_some (collapse_single ht hx)]

omit ht in
/-- A group becomes a conditional, or its single item, or it stays as it is. -/
theorem finished_cases (items : List Expr) :
    (∃ test yes no, items.any isComma = false ∧ mixesConditional items = false ∧
      Conditional.parts? items = some (test, yes, no)) ∨
    conditional.reduce? (.group t items) = none ∧ ((∃ x, items = [x] ∧ x.isHole = false) ∨
      collapse.reduce? (.group t items) = none ∧ finished t items = .group t items) := by
  cases hc : conditional.reduce? (.group t items) with
  | some next =>
    obtain ⟨hcomma, hmixes, test, yes, no, hparts, -⟩ := conditional_eq_some_iff.1 hc
    exact Or.inl ⟨test, yes, no, hcomma, hmixes, hparts⟩
  | none =>
    refine Or.inr ⟨rfl, ?_⟩
    cases hcollapse : collapse.reduce? (.group t items) with
    | none => exact Or.inr ⟨rfl, by rw [finished, apply_of_none hc, apply_of_none hcollapse]⟩
    | some x =>
      obtain rfl := eq_single_of_collapse hcollapse
      refine Or.inl ⟨x, rfl, ?_⟩
      by_contra hx
      rw [Bool.not_eq_false] at hx
      have hnone : collapse.reduce? (.group t [x]) = none :=
        collapse_eq_none_iff.2 fun y hy _ => by rwa [← (List.cons.inj hy).1]
      rw [hnone] at hcollapse
      cases hcollapse

end

end Rule
end TagFormula

import TagFormula.Proofs.Climbing
import TagFormula.Rule.Operation

/-!
The grammar of items without brackets, and the operations found in it. A conditional has runs between its
signs; a run has signed operands between its operators. Main statement: an operation is found for
exactly the runs of at least two items, and it is the one that the grammar gives.
-/

namespace TagFormula

/-- A token of an operator in front of an operand. -/
def Expr.IsSign (p : Expr) (symbol : Text) : Prop :=
  ∃ t parts, p = .group t parts ∧ t.kind = .operator ∧ t.content = symbol ∧ Operator.isPrefix symbol

/-! ### The grammar -/

/-- An operand behind any number of signs; the last one is applied first. -/
inductive Signed : List Expr → Expr → Prop
  | operand {x : Expr} (hx : x.isOperand) : Signed [x] x
  | sign {p x : Expr} {symbol : Text} {items : List Expr} (hp : p.IsSign symbol)
      (h : Signed items x) : Signed (p :: items) (.unary symbol x)

/-- Signed operands with an operator between each two, and the run they make once the signs are applied.
No sign may stand on the left of `**`, which binds more tightly. -/
inductive SignedRun : List Expr → List Expr → Prop
  | single {x : Expr} {items : List Expr} (h : Signed items x) : SignedRun items [x]
  | cons {x o : Expr} {op : Operator} {items rest run : List Expr} (h : Signed items x)
      (ho : o.IsInfix op) (hpower : 1 < items.length → op.symbol ≠ ascii "**")
      (hrest : SignedRun rest run) : SignedRun (items ++ o :: rest) (x :: o :: run)

/-- The operation that a run stands for. -/
def OperationOf (items : List Expr) (e : Expr) : Prop :=
  ∃ (run : List Expr) (t : OperatorTree),
    SignedRun items run ∧ t.Spells run ∧ t.Grouped ∧ t.toExpr = e

/-- What a sequence of items stands for: a run, or a conditional with a run as its test. -/
inductive Derives : List Expr → Expr → Prop
  | run {items : List Expr} {e : Expr} (h : OperationOf items e) : Derives items e
  | conditional {test yes no : List Expr} {q k c y n : Expr} (hc : OperationOf test c)
      (hq : q.isSymbol "?") (hy : Derives yes y) (hk : k.isSymbol ":") (hn : Derives no n) :
      Derives (test ++ q :: (yes ++ k :: no)) (.conditional c y n)

/-! ### Operands, signs and operators -/

namespace Expr

theorem isOperator_of_isSign {p : Expr} {symbol : Text} (h : p.IsSign symbol) : p.isOperator := by
  obtain ⟨t, parts, rfl, hk, -⟩ := h
  simp [isOperator, isKind, token?, hk]

theorem isOperator_of_isInfix {o : Expr} {op : Operator} (h : o.IsInfix op) : o.isOperator := by
  obtain ⟨t, parts, rfl, hk, -⟩ := h
  simp [isOperator, isKind, token?, hk]

theorem isOperator_of_isOperand {x : Expr} (h : x.isOperand) : x.isOperator = false := by
  cases x <;> simp_all [isOperand, isOperator, isKind, token?]

theorem operatorSymbol?_of_isOperand {x : Expr} (h : x.isOperand) : x.operatorSymbol? = none := by
  cases x <;> simp_all [isOperand, operatorSymbol?]

theorem isSymbol_of_isOperand {x : Expr} (h : x.isOperand) (s : String) :
    x.isSymbol s = false := by
  cases x <;> simp_all [isOperand, isSymbol, token?]

theorem not_isSign_of_isOperand {x : Expr} {symbol : Text} (h : x.isOperand) : ¬x.IsSign symbol := by
  intro hs
  have := isOperator_of_isSign hs
  rw [isOperator_of_isOperand h] at this
  cases this

/-- The operator between two operands has the symbol of its token. -/
theorem isSymbol_of_isInfix {o : Expr} {op : Operator} (h : o.IsInfix op) (s : String) :
    o.isSymbol s = (op.symbol == ascii s) := by
  obtain ⟨t, parts, rfl, hk, hfind⟩ := h
  have hsymbol : op.symbol = t.content := by simpa using List.find?_some hfind
  simp [isSymbol, token?, hk, hsymbol]

end Expr

namespace Operation

theorem prefixSymbol?_eq_some {p : Expr} {symbol : Text} :
    prefixSymbol? p = some symbol ↔ p.IsSign symbol := by
  cases p with
  | group t parts =>
    simp only [prefixSymbol?, Expr.operatorSymbol?, Expr.IsSign, Option.filter_eq_some_iff]
    constructor
    · rintro ⟨h, hp⟩
      split at h
      · rename_i hk
        cases h
        exact ⟨t, parts, rfl, hk, rfl, hp⟩
      · cases h
    · rintro ⟨_, _, ⟨⟩, hk, rfl, hp⟩
      exact ⟨if_pos hk, hp⟩
  | _ => simp [prefixSymbol?, Expr.operatorSymbol?, Expr.IsSign]

theorem prefixSymbol?_of_isOperand {x : Expr} (h : x.isOperand) : prefixSymbol? x = none := by
  cases hs : prefixSymbol? x with
  | none => rfl
  | some symbol => exact absurd (prefixSymbol?_eq_some.1 hs) (Expr.not_isSign_of_isOperand h)

end Operation

/-! ### Runs item by item -/

/-- The same runs, read item by item: a sign goes to the first operand behind it. -/
inductive Collapses : List Expr → List Expr → Prop
  | last {x : Expr} (hx : x.isOperand) : Collapses [x] [x]
  | operator {x o : Expr} {op : Operator} {rest run : List Expr} (hx : x.isOperand)
      (ho : o.IsInfix op) (h : Collapses rest run) : Collapses (x :: o :: rest) (x :: o :: run)
  | sign {p x : Expr} {symbol : Text} {rest run : List Expr} (hp : p.IsSign symbol)
      (h : Collapses rest (x :: run)) (hpower : ∀ o ∈ run.head?, o.isSymbol "**" = false) :
      Collapses (p :: rest) (.unary symbol x :: run)

theorem Signed.collapses {items : List Expr} {x : Expr} (h : Signed items x) :
    Collapses items [x] := by
  induction h with
  | operand hx => exact .last hx
  | sign hp _ ih => exact .sign hp ih (by intro o ho; cases ho)

theorem Signed.ne_nil {items : List Expr} {x : Expr} (h : Signed items x) : items ≠ [] := by
  cases h <;> simp

theorem Signed.collapses_append {items rest run : List Expr} {x o : Expr} {op : Operator}
    (h : Signed items x) (ho : o.IsInfix op) (hpower : 1 < items.length → op.symbol ≠ ascii "**")
    (hrest : Collapses rest run) : Collapses (items ++ o :: rest) (x :: o :: run) := by
  induction h with
  | operand hx => exact .operator hx ho hrest
  | @sign p x symbol items hp h ih =>
    have hlength : 1 < (p :: items).length := by
      have := List.length_pos_iff.2 h.ne_nil
      simpa using this
    refine .sign hp (ih fun _ => hpower hlength) ?_
    rintro _ ⟨⟩
    rw [Expr.isSymbol_of_isInfix ho]
    simpa using hpower hlength

theorem collapses_iff_signedRun {items run : List Expr} :
    Collapses items run ↔ SignedRun items run := by
  constructor
  · intro h
    induction h with
    | last hx => exact .single (.operand hx)
    | operator hx ho _ ih => exact .cons (.operand hx) ho (by simp) ih
    | sign hp _ hpower ih =>
      cases ih with
      | single h => exact .single (.sign hp h)
      | cons h ho _ hrest =>
        have hsymbol := hpower _ rfl
        rw [Expr.isSymbol_of_isInfix ho] at hsymbol
        exact .cons (.sign hp h) ho (fun _ => by simpa using hsymbol) hrest
  · intro h
    induction h with
    | single h => exact h.collapses
    | cons h ho hpower _ ih => exact h.collapses_append ho hpower ih

theorem Collapses.ne_nil {items run : List Expr} (h : Collapses items run) : items ≠ [] := by
  cases h <;> simp

theorem Collapses.isRun {items run : List Expr} (h : Collapses items run) : IsRun run := by
  induction h with
  | last hx => exact .single hx
  | operator hx ho _ ih => exact .cons hx ho ih
  | sign hp _ _ ih =>
    cases ih with
    | single hx => exact .single rfl
    | cons hx ho h => exact .cons rfl ho h

theorem IsRun.collapses {items : List Expr} (h : IsRun items) : Collapses items items := by
  induction h with
  | single hx => exact .last hx
  | cons hx ho _ ih => exact .operator hx ho ih

/-! ### Applying signs -/

namespace Operation

theorem length_applyPrefixes_le (ready : Bool) (items : List Expr) :
    (applyPrefixes ready items).length ≤ items.length := by
  fun_induction applyPrefixes ready items <;> simp_all
  omega

/-- An item where no sign may stand is kept. -/
theorem applyPrefixes_false_cons (o : Expr) (rest : List Expr) :
    applyPrefixes false (o :: rest) = o :: applyPrefixes o.isOperator rest := by
  cases rest with
  | nil => rfl
  | cons x rest =>
    rw [applyPrefixes]
    cases prefixSymbol? o <;> simp

theorem applyPrefixes_operand {x : Expr} (hx : x.isOperand) (ready : Bool) (rest : List Expr) :
    applyPrefixes ready (x :: rest) = x :: applyPrefixes false rest := by
  cases rest with
  | nil => cases ready <;> rfl
  | cons y rest =>
    rw [applyPrefixes, prefixSymbol?_of_isOperand hx, Expr.isOperator_of_isOperand hx]

/-- A sign is applied to the operand behind it, unless `**` follows. -/
theorem applyPrefixes_sign {p : Expr} {symbol : Text} (hp : p.IsSign symbol) (x : Expr)
    (rest : List Expr) : applyPrefixes true (p :: x :: rest)
      = if x.isOperand && !rest.head?.any (·.isSymbol "**") then
          .unary symbol x :: applyPrefixes false rest
        else p :: applyPrefixes true (x :: rest) := by
  rw [applyPrefixes, prefixSymbol?_eq_some.2 hp, Expr.isOperator_of_isSign hp]
  simp

end Operation

open Operation

/-- Applying signs keeps the run that the items make. -/
theorem Collapses.applyPrefixes {items run : List Expr} (h : Collapses items run) :
    Collapses (applyPrefixes true items) run := by
  induction h with
  | last hx =>
    rw [applyPrefixes_operand hx]
    exact .last hx
  | operator hx ho h ih =>
    rw [applyPrefixes_operand hx, applyPrefixes_false_cons, Expr.isOperator_of_isInfix ho]
    exact .operator hx ho ih
  | @sign p x symbol rest run hp h hpower ih =>
    cases rest with
    | nil => exact absurd rfl h.ne_nil
    | cons y rest =>
      rw [applyPrefixes_sign hp]
      split
      · rename_i hy
        simp only [Bool.and_eq_true, Bool.not_eq_true'] at hy
        rw [applyPrefixes_operand hy.1] at ih
        cases h with
        | last _ => exact .last rfl
        | operator hx ho _ =>
          rw [applyPrefixes_false_cons] at ih ⊢
          cases ih with
          | operator _ _ hrest => exact .operator rfl ho hrest
          | sign hs => exact absurd hs (Expr.not_isSign_of_isOperand hx)
        | sign hs => exact absurd hs (Expr.not_isSign_of_isOperand hy.1)
      · exact .sign hp ih hpower

/-- Behind an operand, signs are applied only after the next operator. -/
theorem collapses_operand_of_applyPrefixes {x : Expr} {rest run : List Expr} (hx : x.isOperand)
    (ih : ∀ items run, items.length < rest.length → Collapses (applyPrefixes true items) run →
      Collapses items run)
    (h : Collapses (x :: applyPrefixes false rest) run) :
    ∃ tail, run = x :: tail ∧ tail.head? = rest.head? ∧
      ∀ y : Expr, y.isOperand → Collapses (y :: rest) (y :: tail) := by
  cases rest with
  | nil =>
    cases h with
    | last _ => exact ⟨[], rfl, rfl, fun y hy => .last hy⟩
    | sign hs => exact absurd hs (Expr.not_isSign_of_isOperand hx)
  | cons o rest =>
    rw [applyPrefixes_false_cons] at h
    cases h with
    | operator _ ho h =>
      rw [Expr.isOperator_of_isInfix ho] at h
      exact ⟨_, rfl, rfl, fun y hy => .operator hy ho (ih rest _ (by simp) h)⟩
    | sign hs => exact absurd hs (Expr.not_isSign_of_isOperand hx)

/-- The run that items make once signs are applied is the run that they make. -/
theorem collapses_of_applyPrefixes {items run : List Expr} :
    Collapses (applyPrefixes true items) run → Collapses items run := by
  -- an operand and the operator behind it are passed over at once
  induction hn : items.length using Nat.strong_induction_on generalizing items run with
  | _ n ih =>
    subst hn
    intro h
    match items with
    | [] => exact h
    | [_] => exact h
    | p :: x :: rest =>
      have ihrest : ∀ items run, items.length < (x :: rest).length →
          Collapses (applyPrefixes true items) run → Collapses items run :=
        fun items run hlt => ih items.length (Nat.lt_succ_of_lt hlt) rfl
      by_cases hp : p.isOperand
      · rw [applyPrefixes_operand hp] at h
        obtain ⟨tail, rfl, -, hall⟩ := collapses_operand_of_applyPrefixes hp ihrest h
        exact hall p hp
      · cases hs : prefixSymbol? p with
        | none =>
          rw [applyPrefixes, hs] at h
          generalize applyPrefixes p.isOperator (x :: rest) = tail at h
          cases h with
          | last hx => exact absurd hx hp
          | operator hx => exact absurd hx hp
          | sign hsign => rw [prefixSymbol?_eq_some.2 hsign] at hs; cases hs
        | some symbol =>
          have hsign := prefixSymbol?_eq_some.1 hs
          rw [applyPrefixes_sign hsign] at h
          split at h
          · rename_i hx
            simp only [Bool.and_eq_true, Bool.not_eq_true'] at hx
            obtain ⟨tail, rfl, hhead, hall⟩ := collapses_operand_of_applyPrefixes rfl
              (fun items run hlt => ihrest items run (Nat.lt_succ_of_lt hlt)) h
            refine .sign hsign (hall x hx.1) ?_
            intro o ho
            rw [hhead] at ho
            have := hx.2
            rw [ho] at this
            exact this
          · have ihnext := @ih _ (Nat.lt_succ_self _) (x :: rest)
            generalize applyPrefixes true (x :: rest) = tail at h ihnext
            cases h with
            | last hx => exact absurd hx hp
            | operator hx => exact absurd hx hp
            | sign hsign' h hpower => exact .sign hsign' (ihnext rfl h) hpower

/-- Items to which no sign can be applied are their own run. -/
theorem Collapses.eq_of_length_le {items run : List Expr} (h : Collapses items run)
    (hlength : items.length ≤ (Operation.applyPrefixes true items).length) : run = items := by
  induction h with
  | last => rfl
  | operator hx ho h ih =>
    rw [applyPrefixes_operand hx, applyPrefixes_false_cons, Expr.isOperator_of_isInfix ho] at hlength
    rw [ih (by simpa using hlength)]
  | @sign p x symbol rest run hp h hpower ih =>
    cases rest with
    | nil => exact absurd rfl h.ne_nil
    | cons y rest =>
      rw [applyPrefixes_sign hp] at hlength
      split at hlength
      · have := length_applyPrefixes_le false rest
        simp only [List.length_cons] at hlength
        omega
      · rename_i hstuck
        -- what follows the sign is an operand, so that the sign could be applied
        obtain ⟨rfl, rfl⟩ := List.cons.inj (ih (by simpa using hlength))
        refine absurd ?_ hstuck
        have hx : x.isOperand := by
          cases h.isRun with
          | single hx => exact hx
          | cons hx => exact hx
        cases run with
        | nil => simp [hx]
        | cons o run => simp [hx, hpower o rfl]

namespace Operation

theorem collapsePrefixes_of_collapses {items run : List Expr} (h : Collapses items run) :
    collapsePrefixes items = run := by
  fun_induction collapsePrefixes items with
  | case1 items next hlt ih => exact ih h.applyPrefixes
  | case2 items next hle => exact (h.eq_of_length_le (Nat.le_of_not_lt hle)).symm

theorem collapses_collapsePrefixes {items : List Expr} (h : IsRun (collapsePrefixes items)) :
    Collapses items (collapsePrefixes items) := by
  fun_induction collapsePrefixes items with
  | case1 items next hlt ih => exact collapses_of_applyPrefixes (ih h)
  | case2 items next hle => exact h.collapses

theorem applyPrefixes_ne_nil {ready : Bool} {items : List Expr} (h : items ≠ []) :
    applyPrefixes ready items ≠ [] := by
  fun_cases applyPrefixes ready items <;> simp_all

theorem applyPrefixes_eq_single {ready : Bool} {items : List Expr} {e : Expr}
    (h : applyPrefixes ready items = [e]) : items = [e] ∨ e.isOperand := by
  match items with
  | [] => cases h
  | [_] => exact Or.inl h
  | p :: x :: rest =>
    have hrest : ∀ b, applyPrefixes b (x :: rest) ≠ [] := fun b => applyPrefixes_ne_nil (by simp)
    rw [applyPrefixes] at h
    split at h
    · split at h
      · exact Or.inr ((List.cons.inj h).1 ▸ rfl)
      · exact absurd (List.cons.inj h).2 (hrest _)
    · exact absurd (List.cons.inj h).2 (hrest _)

/-- Of several items, only signs with their operand become a single one. -/
theorem collapsePrefixes_eq_single {items : List Expr} {e : Expr}
    (h : collapsePrefixes items = [e]) : items = [e] ∨ e.isOperand := by
  fun_induction collapsePrefixes items with
  | case1 items next hlt ih =>
    rcases ih h with hnext | he
    · exact applyPrefixes_eq_single hnext
    · exact Or.inr he
  | case2 items next hle => exact Or.inl h

/-- An operation is found for exactly the runs of at least two items. -/
theorem resolve?_eq_some_iff {items : List Expr} {e : Expr} :
    resolve? items = some e ↔ 2 ≤ items.length ∧ OperationOf items e := by
  by_cases hlength : items.length < 2
  · rw [resolve?, if_pos hlength]
    exact ⟨nofun, fun h => absurd h.1 (Nat.not_le_of_lt hlength)⟩
  · rw [resolve?, if_neg hlength]
    constructor
    · intro h
      have hrun : Expr.ofRun? (collapsePrefixes items) = some e := by
        split at h
        · rename_i x hx
          rw [hx, ← h]
          refine Expr.ofRun?_single ((collapsePrefixes_eq_single hx).resolve_left ?_)
          rintro rfl
          simp at hlength
        · exact h
      obtain ⟨t, hspells, hgrouped, rfl⟩ := Expr.ofRun?_eq_some_iff.1 hrun
      have hisRun : IsRun (collapsePrefixes items) := isRun_iff.2 ⟨_, hspells.ofItems?⟩
      have hsigned := collapses_iff_signedRun.1 (collapses_collapsePrefixes hisRun)
      exact ⟨Nat.le_of_not_lt hlength, _, t, hsigned, hspells, hgrouped, rfl⟩
    · rintro ⟨-, run, t, hsigned, hspells, hgrouped, rfl⟩
      have hrun : Expr.ofRun? run = some t.toExpr :=
        Expr.ofRun?_eq_some_iff.2 ⟨t, hspells, hgrouped, rfl⟩
      have hcollapses := collapses_iff_signedRun.2 hsigned
      rw [collapsePrefixes_of_collapses hcollapses]
      split
      · cases hcollapses.isRun with
        | single hx => rw [← hrun, Expr.ofRun?_single hx]
      · exact hrun

end Operation

theorem operationOf_single {x e : Expr} : OperationOf [x] e ↔ x.isOperand ∧ e = x := by
  constructor
  · rintro ⟨run, t, hsigned, hspells, hgrouped, rfl⟩
    cases collapses_iff_signedRun.2 hsigned with
    | last hx =>
      have hrun := Expr.ofRun?_eq_some_iff.2 ⟨t, hspells, hgrouped, rfl⟩
      rw [Expr.ofRun?_single hx] at hrun
      exact ⟨hx, (Option.some.inj hrun).symm⟩
    | sign _ h => exact absurd rfl h.ne_nil
  · rintro ⟨hx, rfl⟩
    exact ⟨[e], .leaf e, .single (.operand hx), .leaf hx, trivial, rfl⟩

end TagFormula

import Mathlib.Data.List.TakeWhile
import TagFormula.Proofs.Grammar
import TagFormula.Proofs.Normalization

/-!
Runs between barriers. Resolving operations replaces each run by its operation and keeps the barriers, so
that what stands between two barriers afterwards comes from what stood between them before.
-/

namespace TagFormula

theorem isOperand_of_operationOf {items : List Expr} {e : Expr} (h : OperationOf items e) :
    e.isOperand := by
  obtain ⟨run, t, -, hspells, -, rfl⟩ := h
  cases hspells with
  | leaf hx => exact hx
  | node => rfl

theorem Expr.isBarrier_of_isOperand {x : Expr} (h : x.isOperand) : x.isBarrier = false := by
  simp [isBarrier, isComma, isSymbol_of_isOperand h]

theorem Expr.isOperator_of_isSymbol {e : Expr} {s : String} (h : e.isSymbol s) : e.isOperator := by
  cases e with
  | group t parts => simp_all [isSymbol, isOperator, isKind, token?]
  | _ => cases h

theorem Expr.isOperator_of_isBarrier {e : Expr} (h : e.isBarrier) : e.isOperator := by
  simp only [isBarrier, isComma, Bool.or_eq_true] at h
  rcases h with ((h | h) | h) | h <;> exact isOperator_of_isSymbol h

theorem Expr.isBarrier_of_isComma {e : Expr} (h : e.isComma) : e.isBarrier := by
  simp [isBarrier, h]

/-- Operands side by side, with no operator between them, are no operation. -/
theorem not_operationOf_of_isOperand {items : List Expr} (h : ∀ e ∈ items, e.isOperand)
    (hlength : 2 ≤ items.length) (e : Expr) : ¬OperationOf items e := by
  rintro ⟨run, t, hrun, -⟩
  cases hrun with
  | single hsigned =>
    cases hsigned with
    | operand => simp at hlength
    | sign hp => exact Expr.not_isSign_of_isOperand (h _ (List.mem_cons_self ..)) hp
  | @cons x o op front rest run hsigned ho =>
    have hoperator := Expr.isOperator_of_isInfix ho
    rw [Expr.isOperator_of_isOperand (h o (by simp))] at hoperator
    cases hoperator

namespace Operation

/-- The items with every run resolved that can be. -/
def resolveRuns (items : List Expr) : List Expr :=
  resolved (splitAtBarriers items).1
    ++ (splitAtBarriers items).2.flatMap fun (barrier, run) => barrier :: resolved run

theorem splitAtBarriers_run {run : List Expr} (h : ∀ e ∈ run, e.isBarrier = false) :
    splitAtBarriers run = (run, []) := by
  induction run with
  | nil => rfl
  | cons e run ih =>
    rw [splitAtBarriers, ih fun c hc => h c (List.mem_cons_of_mem _ hc)]
    simp [h e (List.mem_cons_self ..)]

theorem splitAtBarriers_append {run : List Expr} (h : ∀ e ∈ run, e.isBarrier = false) {b : Expr}
    (hb : b.isBarrier) (rest : List Expr) : splitAtBarriers (run ++ b :: rest)
      = (run, (b, (splitAtBarriers rest).1) :: (splitAtBarriers rest).2) := by
  induction run with
  | nil => simp [splitAtBarriers, hb]
  | cons e run ih =>
    rw [List.cons_append, splitAtBarriers, ih fun c hc => h c (List.mem_cons_of_mem _ hc)]
    simp [h e (List.mem_cons_self ..)]

/-- Items are a run, or a run in front of a barrier and further items. -/
@[elab_as_elim]
theorem runInduction {P : List Expr → Prop} (run : ∀ run, (∀ e ∈ run, e.isBarrier = false) → P run)
    (barrier : ∀ run b rest, (∀ e ∈ run, e.isBarrier = false) → b.isBarrier → P rest →
      P (run ++ b :: rest)) (items : List Expr) : P items := by
  have go : ∀ items front, (∀ e ∈ front, e.isBarrier = false) → P (front ++ items) := by
    intro items
    induction items with
    | nil =>
      intro front hfront
      rw [List.append_nil]
      exact run front hfront
    | cons e items ih =>
      intro front hfront
      cases he : e.isBarrier with
      | true => exact barrier front e items hfront he (ih [] (by intro c hc; cases hc))
      | false =>
        have hmore : ∀ c ∈ front ++ [e], c.isBarrier = false := by
          intro c hc
          rcases List.mem_append.1 hc with hc | hc
          · exact hfront c hc
          · rw [List.mem_singleton.1 hc, he]
        have := ih (front ++ [e]) hmore
        rwa [List.append_assoc] at this
  exact go items [] (by intro e he; cases he)

/-! ### Resolved runs -/

theorem resolved_cases (run : List Expr) :
    (∃ e, 2 ≤ run.length ∧ OperationOf run e ∧ resolved run = [e]) ∨
      (resolve? run = none ∧ resolved run = run) := by
  unfold resolved
  split
  · rename_i e he
    obtain ⟨hlength, hop⟩ := resolve?_eq_some_iff.1 he
    exact Or.inl ⟨e, hlength, hop, rfl⟩
  · rename_i he
    exact Or.inr ⟨he, rfl⟩

theorem isBarrier_of_mem_resolved {run : List Expr} (h : ∀ e ∈ run, e.isBarrier = false) :
    ∀ e ∈ resolved run, e.isBarrier = false := by
  rcases resolved_cases run with ⟨x, -, hop, heq⟩ | ⟨-, heq⟩
  · rw [heq]
    intro e he
    rw [List.mem_singleton.1 he]
    exact Expr.isBarrier_of_isOperand (isOperand_of_operationOf hop)
  · rw [heq]
    exact h

theorem resolveRuns_run {run : List Expr} (h : ∀ e ∈ run, e.isBarrier = false) :
    resolveRuns run = resolved run := by
  simp [resolveRuns, splitAtBarriers_run h]

theorem resolveRuns_run_append {run : List Expr} (h : ∀ e ∈ run, e.isBarrier = false) {b : Expr}
    (hb : b.isBarrier) (rest : List Expr) :
    resolveRuns (run ++ b :: rest) = resolved run ++ b :: resolveRuns rest := by
  simp [resolveRuns, splitAtBarriers_append h hb]

/-- No operation reaches across a barrier. -/
theorem resolveRuns_append {b : Expr} (hb : b.isBarrier) (items rest : List Expr) :
    resolveRuns (items ++ b :: rest) = resolveRuns items ++ b :: resolveRuns rest := by
  induction items using runInduction with
  | run run h => rw [resolveRuns_run_append h hb, resolveRuns_run h]
  | barrier run c more h hc ih =>
    rw [List.append_assoc, List.cons_append, resolveRuns_run_append h hc, ih,
      resolveRuns_run_append h hc, List.append_assoc, List.cons_append]

/-- What stands around a barrier comes from what stood around it. -/
theorem exists_of_resolveRuns_eq_append {b : Expr} (hb : b.isBarrier) {items front back : List Expr}
    (h : resolveRuns items = front ++ b :: back) :
    ∃ i j, items = i ++ b :: j ∧ resolveRuns i = front ∧ resolveRuns j = back := by
  induction items using runInduction generalizing front with
  | run run hrun =>
    rw [resolveRuns_run hrun] at h
    have hmem : b ∈ resolved run := by simp [h]
    rw [isBarrier_of_mem_resolved hrun b hmem] at hb
    cases hb
  | barrier run c rest hrun hc ih =>
    rw [resolveRuns_run_append hrun hc] at h
    have hno := isBarrier_of_mem_resolved hrun
    rcases List.append_eq_append_iff.1 h with ⟨more, rfl, hmore⟩ | ⟨more, hmore, htail⟩
    · -- the barrier stands behind the first run
      cases more with
      | nil =>
        obtain ⟨rfl, rfl⟩ := List.cons.inj hmore
        exact ⟨run, rest, rfl, by rw [resolveRuns_run hrun, List.append_nil], rfl⟩
      | cons d more =>
        obtain ⟨rfl, hrest⟩ := List.cons.inj hmore
        obtain ⟨i, j, rfl, hi, hj⟩ := ih hrest
        refine ⟨run ++ c :: i, j, by simp, ?_, hj⟩
        rw [resolveRuns_run_append hrun hc, hi]
    · -- the barrier would be part of the first run
      cases more with
      | nil =>
        obtain ⟨rfl, rfl⟩ := List.cons.inj htail
        refine ⟨run, rest, rfl, ?_, rfl⟩
        rw [resolveRuns_run hrun, hmore, List.append_nil]
      | cons d more =>
        obtain ⟨rfl, -⟩ := List.cons.inj htail
        rw [hno b (by simp [hmore])] at hb
        cases hb

theorem length_resolveRuns_le (items : List Expr) : (resolveRuns items).length ≤ items.length := by
  have hrun : ∀ run, (resolved run).length ≤ run.length := by
    intro run
    rcases resolved_cases run with ⟨e, hlength, -, heq⟩ | ⟨-, heq⟩
    · rw [heq]
      exact Nat.le_trans (by simp) hlength
    · rw [heq]
  induction items using runInduction with
  | run run h =>
    rw [resolveRuns_run h]
    exact hrun run
  | barrier run b rest h hb ih =>
    rw [resolveRuns_run_append h hb]
    simp only [List.length_append, List.length_cons]
    have := hrun run
    omega

theorem resolveRuns_resolveRuns (items : List Expr) :
    resolveRuns (resolveRuns items) = resolveRuns items := by
  have hrun : ∀ run, resolved (resolved run) = resolved run := by
    intro run
    rcases resolved_cases run with ⟨e, -, -, heq⟩ | ⟨-, heq⟩
    · rw [heq]
      rfl
    · rw [heq, heq]
  induction items using runInduction with
  | run run h =>
    rw [resolveRuns_run h, resolveRuns_run (isBarrier_of_mem_resolved h), hrun]
  | barrier run b rest h hb ih =>
    rw [resolveRuns_run_append h hb, resolveRuns_run_append (isBarrier_of_mem_resolved h) hb, hrun, ih]

/-- Parts of resolved items are resolved. -/
theorem resolveRuns_parts {b : Expr} (hb : b.isBarrier) {front back : List Expr}
    (h : resolveRuns (front ++ b :: back) = front ++ b :: back) :
    resolveRuns front = front ∧ resolveRuns back = back := by
  rw [resolveRuns_append hb] at h
  have hfront := length_resolveRuns_le front
  have hback := length_resolveRuns_le back
  have hlength := congrArg List.length h
  simp only [List.length_append, List.length_cons] at hlength
  obtain ⟨hf, ht⟩ := List.append_inj h (by omega)
  exact ⟨hf, (List.cons.inj ht).2⟩

/-- Every item afterwards is one from before or the operation of some of them. -/
theorem mem_resolveRuns {items : List Expr} {x : Expr} (hx : x ∈ resolveRuns items) :
    x ∈ items ∨ ∃ run, (∀ e ∈ run, e ∈ items) ∧ OperationOf run x := by
  have hrun : ∀ run, x ∈ resolved run → x ∈ run ∨ OperationOf run x := by
    intro run hx
    rcases resolved_cases run with ⟨e, -, hop, heq⟩ | ⟨-, heq⟩
    · rw [heq, List.mem_singleton] at hx
      exact Or.inr (hx ▸ hop)
    · exact Or.inl (heq ▸ hx)
  induction items using runInduction with
  | run run h =>
    rw [resolveRuns_run h] at hx
    rcases hrun run hx with hx | hop
    · exact Or.inl hx
    · exact Or.inr ⟨run, fun _ he => he, hop⟩
  | barrier run b rest h hb ih =>
    rw [resolveRuns_run_append h hb, List.mem_append, List.mem_cons] at hx
    rcases hx with hx | rfl | hx
    · rcases hrun run hx with hx | hop
      · exact Or.inl (by simp [hx])
      · exact Or.inr ⟨run, fun e he => by simp [he], hop⟩
    · exact Or.inl (by simp)
    · rcases ih hx with hx | ⟨run', hsub, hop⟩
      · exact Or.inl (by simp [hx])
      · exact Or.inr ⟨run', fun e he => by simp [hsub e he], hop⟩

/-! ### The rule -/

theorem resolveRuns_eq_self {items : List Expr}
    (h : ∀ run ∈ (splitAtBarriers items).1 :: (splitAtBarriers items).2.map (·.2), resolve? run = none) :
    resolveRuns items = items := by
  induction items using runInduction with
  | run run hrun =>
    rw [splitAtBarriers_run hrun] at h
    rw [resolveRuns_run hrun, resolved, h run (List.mem_cons_self ..)]
  | barrier run b rest hrun hb ih =>
    rw [splitAtBarriers_append hrun hb] at h
    rw [resolveRuns_run_append hrun hb, resolved, h run (List.mem_cons_self ..),
      ih fun r hr => h r (List.mem_cons_of_mem _ hr)]

theorem resolveRuns_of_length_lt {items : List Expr} (h : items.length < 2) :
    resolveRuns items = items := by
  match items with
  | [] => rfl
  | [e] => cases he : e.isBarrier <;> simp [resolveRuns, splitAtBarriers, he, resolved, resolve?]
  | _ :: _ :: rest =>
    rw [List.length_cons, List.length_cons] at h
    omega

theorem resolveRuns_of_isOperand {items : List Expr} (h : ∀ e ∈ items, e.isOperand)
    (hlength : 2 ≤ items.length) : resolveRuns items = items := by
  rw [resolveRuns_run fun e he => Expr.isBarrier_of_isOperand (h e he)]
  rcases resolved_cases items with ⟨e, -, hop, -⟩ | ⟨-, heq⟩
  · exact absurd hop (not_operationOf_of_isOperand h hlength e)
  · exact heq

end Operation

open Operation in
/-- What operations leave of a group. -/
theorem Rule.apply_operation_group (t : Token) (items : List Expr) :
    apply (.group t items) operation
      = .group t (if Expr.mixesConditional items then items else resolveRuns items) := by
  cases hmixes : Expr.mixesConditional items with
  | true =>
    have hnone : operation.reduce? (.group t items) = none := by
      simp [operation, Operation.reduce?, hmixes]
    rw [apply_of_none hnone]
    rfl
  | false =>
    by_cases hlength : items.length < 2
    · have hnone : operation.reduce? (.group t items) = none := by
        simp [operation, Operation.reduce?, hlength]
      rw [apply_of_none hnone, resolveRuns_of_length_lt hlength]
      rfl
    · by_cases hany : ((splitAtBarriers items).1 :: (splitAtBarriers items).2.map (·.2)).any
          fun run => (resolve? run).isSome
      · have hsome : operation.reduce? (.group t items) = some (.group t (resolveRuns items)) := by
          simp only [operation, Operation.reduce?, hmixes, hlength, decide_false, Bool.or_false,
            Bool.false_eq_true, if_false, if_pos hany]
          rfl
        rw [apply_of_some hsome]
        rfl
      · have hnone : operation.reduce? (.group t items) = none := by
          simp only [operation, Operation.reduce?, hmixes, hlength, decide_false, Bool.or_false,
            Bool.false_eq_true, if_false, if_neg hany]
        have hself : resolveRuns items = items := resolveRuns_eq_self fun run hrun => by
          rw [Bool.not_eq_true, List.any_eq_false] at hany
          exact Option.not_isSome_iff_eq_none.1 (hany run hrun)
        rw [apply_of_none hnone, hself]
        rfl

/-! ### The parts of a conditional -/

namespace Conditional

theorem splitAtColon?_eq_some {depth : Nat} {items yes no : List Expr}
    (h : splitAtColon? depth items = some (yes, no)) :
    ∃ k, k.isSymbol ":" ∧ items = yes ++ k :: no := by
  induction items generalizing depth yes with
  | nil => cases h
  | cons e rest ih =>
    have goOn : ∀ d, (splitAtColon? d rest).map (fun parts => (e :: parts.1, parts.2))
        = some (yes, no) → ∃ k, k.isSymbol ":" ∧ e :: rest = yes ++ k :: no := by
      intro d hd
      obtain ⟨⟨before, after⟩, hsplit, heq⟩ := Option.map_eq_some_iff.1 hd
      obtain ⟨rfl, rfl⟩ := Prod.mk.inj heq
      obtain ⟨k, hk, rfl⟩ := ih hsplit
      exact ⟨k, hk, rfl⟩
    unfold splitAtColon? at h
    split at h
    · exact goOn _ h
    · split at h
      · rename_i hk
        cases depth with
        | zero =>
          obtain ⟨rfl, rfl⟩ := Prod.mk.inj (Option.some.inj h)
          exact ⟨e, hk, rfl⟩
        | succ depth => exact goOn _ h
      · exact goOn _ h

/-- The parts of a conditional, with its signs between them. -/
theorem parts?_eq_some {items test yes no : List Expr} (h : parts? items = some (test, yes, no)) :
    ∃ q k, q.isSymbol "?" ∧ k.isSymbol ":" ∧ items = test ++ q :: (yes ++ k :: no) ∧
      (∀ e ∈ test, e.isSymbol "?" = false) ∧ test ≠ [] ∧ yes ≠ [] ∧ no ≠ [] := by
  simp only [parts?, Option.bind_eq_bind, Option.bind_eq_some_iff] at h
  obtain ⟨⟨yes', no'⟩, hsplit, h⟩ := h
  split at h
  · cases h
  · rename_i hne
    simp only [Bool.or_eq_true, List.isEmpty_iff, not_or] at hne
    cases h
    obtain ⟨k, hk, heq⟩ := splitAtColon?_eq_some hsplit
    have htest : ∀ e ∈ items.takeWhile fun e => !e.isSymbol "?", e.isSymbol "?" = false := by
      intro e he
      simpa using List.mem_takeWhile_imp he
    cases hdrop : items.dropWhile fun e => !e.isSymbol "?" with
    | nil => simp [hdrop] at heq
    | cons q rest =>
      have hq : q.isSymbol "?" := by
        have := List.head_dropWhile_not (fun e : Expr => !e.isSymbol "?") (by rw [hdrop]; simp)
        simpa [hdrop] using this
      rw [hdrop, List.drop_one, List.tail_cons] at heq
      refine ⟨q, k, hq, hk, ?_, htest, hne.1.1, hne.1.2, hne.2⟩
      rw [← heq, ← hdrop, List.takeWhile_append_dropWhile]

end Conditional

end TagFormula

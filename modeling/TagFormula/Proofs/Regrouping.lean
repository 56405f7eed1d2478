import Mathlib.Logic.Relation
import TagFormula.Proofs.RoundLimit

/-!
What the rules for groups do to the items of a group: each puts one expression in the place of a stretch
of items, once or several times. Main statement: calls, operations and conditionals change a group in no
other way. What they keep, or make smaller, has then to be looked at for one stretch only.
-/

namespace TagFormula

open Expr

/-- Items at commas, and the arguments between them. -/
inductive Call.Arguments : List Expr → List Expr → Prop
  | nil : Arguments [] []
  | comma {c : Expr} {items args : List Expr} (hc : c.isComma) (h : Arguments items args) :
      Arguments (c :: items) args
  | last {items : List Expr} (hne : items ≠ []) : Arguments items [collapseOrWrap items]
  | next {c : Expr} {items rest args : List Expr} (hne : items ≠ []) (hc : c.isComma)
      (h : Arguments rest args) : Arguments (items ++ c :: rest) (collapseOrWrap items :: args)

/-- What a stretch of items may become: the item in parentheses, a call, an operation or a conditional. -/
inductive Becomes : List Expr → Expr → Prop
  | opened {t : Token} {x : Expr} (ht : t.kind = .list) : Becomes [.group t [x]] x
  | called {t : Token} {parts taken args : List Expr} (ht : t.kind = .word)
      (hargs : Call.Arguments taken args) : Becomes (.group t parts :: taken) (.call t.content args)
  | calledWith {t u : Token} {parts inside args : List Expr} (ht : t.kind = .word) (hu : u.kind = .list)
      (hargs : Call.Arguments (Call.listItems inside) args) :
      Becomes [.group t parts, .group u inside] (.call t.content args)
  | operation {run : List Expr} {e : Expr} (hlength : 2 ≤ run.length) (h : OperationOf run e) :
      Becomes run e
  | conditional {test yes no : List Expr} {q k : Expr} (hq : q.isSymbol "?") (hk : k.isSymbol ":")
      (htest : test ≠ []) (hyes : yes ≠ []) (hno : no ≠ []) :
      Becomes (test ++ q :: (yes ++ k :: no))
        (.conditional (collapseOrWrap test) (collapseOrWrap yes) (collapseOrWrap no))

/-- One stretch among the items gives way to what it becomes. -/
inductive Replaces (becomes : List Expr → Expr → Prop) : List Expr → List Expr → Prop
  | mk (front : List Expr) {stretch : List Expr} {x : Expr} (h : becomes stretch x) (back : List Expr) :
      Replaces becomes (front ++ (stretch ++ back)) (front ++ x :: back)

section

variable {becomes : List Expr → Expr → Prop} {items items' : List Expr}

theorem Replaces.append_left (front : List Expr) (h : Replaces becomes items items') :
    Replaces becomes (front ++ items) (front ++ items') := by
  obtain ⟨more, hx, back⟩ := h
  simpa using Replaces.mk (front ++ more) hx back

open Relation

/-- Replacing items from left to right is replacing one stretch after the other. -/
theorem replaces_of_replaceItems? {step : Expr → List Expr → Option (Expr × Nat)}
    (hstep : ∀ item rest e n, step item rest = some (e, n) → becomes (item :: rest.take n) e)
    {covered : Nat} (h : replaceItems? step covered items = some items') :
    TransGen (Replaces becomes) (items.drop covered) items' := by
  induction items generalizing covered items' with
  | nil => cases h
  | cons item rest ih =>
    cases covered with
    | succ covered => exact ih h
    | zero =>
      rw [replaceItems?] at h
      split at h
      · rename_i e n hs
        cases h
        have hfirst : Replaces becomes (item :: rest) (e :: rest.drop n) := by
          have := Replaces.mk [] (hstep item rest e n hs) (rest.drop n)
          rwa [List.nil_append, List.nil_append, List.cons_append, List.take_append_drop] at this
        cases hmore : replaceItems? step n rest with
        | none => exact .single hfirst
        | some more =>
          exact (TransGen.single hfirst).trans ((ih hmore).lift (e :: ·) fun _ _ => .append_left [e])
      · obtain ⟨more, hmore, rfl⟩ := Option.map_eq_some_iff.1 h
        exact (ih hmore).lift (item :: ·) fun _ _ => .append_left [item]

end

/-! ### Calls -/

namespace Call

theorem arguments_spec (items : List Expr) : Arguments items (arguments items) := by
  have go : ∀ items current, Arguments (current.reverse ++ items) (arguments.go current items) := by
    intro items
    induction items with
    | nil =>
      intro current
      rw [arguments.go, List.append_nil]
      cases current with
      | nil => exact .nil
      | cons e current => exact .last (by simp)
    | cons item rest ih =>
      intro current
      rw [arguments.go]
      split
      · rename_i hcomma
        cases current with
        | nil => exact .comma hcomma (ih [])
        | cons e current => exact .next (by simp) hcomma (ih [])
      · split
        · rename_i hbare
          rw [Bool.and_eq_true, List.isEmpty_iff] at hbare
          rw [hbare.1]
          exact .last (List.cons_ne_nil item rest)
        · have := ih (item :: current)
          rwa [List.reverse_cons, List.append_assoc] at this
  exact go items []

theorem becomes_of_step? {item e : Expr} {rest : List Expr} {n : Nat}
    (h : step? item rest = some (e, n)) : Becomes (item :: rest.take n) e := by
  unfold step? at h
  split at h
  · rename_i r hr
    cases h
    obtain ⟨word, hword, hcall⟩ := Option.bind_eq_some_iff.1 hr
    obtain ⟨t, parts, rfl, ht, rfl⟩ : ∃ t parts, item = .group t parts ∧ t.kind = .word ∧ t.content = word := by
      cases item with
      | group t parts =>
        rw [word?] at hword
        split at hword
        · exact ⟨t, parts, rfl, ‹_›, Option.some.inj hword⟩
        · cases hword
      | _ => cases hword
    rcases ofWord?_cases hcall with ⟨u, inside, after, rfl, hu, rfl, rfl⟩ | ⟨bare, hbare, -, rfl, rfl⟩ |
      ⟨hne, rfl, rfl⟩
    · exact .calledWith ht hu (arguments_spec _)
    · have htake : rest.take bare.length = bare := by
        rw [hbare]
        exact (List.prefix_iff_eq_take.1 (List.takeWhile_prefix _)).symm
      rw [htake]
      exact .called ht (arguments_spec bare)
    · rw [← List.prefix_iff_eq_take.1 (unaryOperand_isPrefix rest)]
      exact .called ht (.last hne)
  · obtain ⟨inner, hinner, hpair⟩ := Option.map_eq_some_iff.1 h
    cases hpair
    obtain ⟨t, ht, rfl⟩ := grouped?_eq_some hinner
    exact .opened ht

end Call

/-! ### The rules -/

open Relation

theorem Operation.replaces_resolveRuns (items : List Expr) :
    ReflTransGen (Replaces Becomes) items (resolveRuns items) := by
  have hrun : ∀ run back, ReflTransGen (Replaces Becomes) (run ++ back) (resolved run ++ back) := by
    intro run back
    rcases resolved_cases run with ⟨e, hlength, hop, heq⟩ | ⟨-, heq⟩
    · rw [heq]
      exact .single (.mk [] (.operation hlength hop) back)
    · rw [heq]
  induction items using runInduction with
  | run run h =>
    rw [resolveRuns_run h]
    simpa using hrun run []
  | barrier run b rest h hb ih =>
    rw [resolveRuns_run_append h hb]
    refine (hrun run (b :: rest)).trans (ih.lift (resolved run ++ b :: ·) fun _ _ hr => ?_)
    exact (hr.append_left [b]).append_left (resolved run)

namespace Rule

/-- Calls, operations and conditionals put expressions in the place of stretches of items. -/
theorem replaces_of_reduce? {rule : Rule} (hrule : rule ∈ [call, operation, conditional]) {t : Token}
    {items : List Expr} {next : Expr} (h : rule.reduce? (.group t items) = some next) :
    ∃ items', next = .group t items' ∧ TransGen (Replaces Becomes) items items' := by
  simp only [List.mem_cons, List.not_mem_nil, or_false] at hrule
  rcases hrule with rfl | rfl | rfl
  · obtain ⟨items', hitems, rfl⟩ := Option.map_eq_some_iff.1 h
    exact ⟨items', rfl, replaces_of_replaceItems? (fun _ _ _ _ => Call.becomes_of_step?) hitems⟩
  · have hnext := apply_operation_group t items
    rw [apply_of_some h] at hnext
    refine ⟨_, hnext, ?_⟩
    have hsome : ¬operation.reduce? (.group t items) = none := by rw [h]; simp
    rw [operation_eq_none_iff, not_or, not_or] at hsome
    rw [if_neg hsome.2.1]
    -- the rule has found an operation, so that at least one run is not what it was
    rcases reflTransGen_iff_eq_or_transGen.1 (Operation.replaces_resolveRuns items) with heq | hreplaces
    · refine absurd (fun run hrun => ?_) hsome.2.2
      rw [← heq] at hrun
      exact Operation.resolve?_of_mem_runs run hrun
    · exact hreplaces
  · simp only [conditional, Conditional.reduce?] at h
    split at h
    · cases h
    · obtain ⟨⟨test, yes, no⟩, hparts, rfl⟩ := Option.map_eq_some_iff.1 h
      obtain ⟨q, k, hq, hk, rfl, -, htest, hyes, hno⟩ := Conditional.parts?_eq_some hparts
      refine ⟨_, rfl, .single ?_⟩
      simpa using Replaces.mk [] (.conditional hq hk htest hyes hno) []

end Rule
end TagFormula

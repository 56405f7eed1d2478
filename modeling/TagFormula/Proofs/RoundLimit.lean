import TagFormula.Proofs.DepthLimit
import TagFormula.Proofs.Merging
import TagFormula.Proofs.Rounds

/-!
The number of rounds at a node. Parentheses give way in the first round, references and calls are found by
the second, and what an operation or a conditional leaves alone changes once more at most. Main statement:
unless the limit on the depth is met, four rounds are enough at every node, so that the limit on rounds is
never what ends them.
-/

namespace TagFormula

open Expr

/-! ### Rules see faces -/

namespace Call

@[simp] theorem word?_face (e : Expr) : word? e.face = word? e := by cases e <;> rfl

@[simp] theorem grouped?_face (e : Expr) : grouped? e.face = grouped? e := by cases e <;> rfl

@[simp] theorem takes_face (word : Text) (e : Expr) : takes word e.face = takes word e := by
  cases e <;> rfl

theorem step?_face {item : Expr} {rest : List Expr} :
    step? item.face (rest.map face) = none ↔ step? item rest = none := by
  cases rest <;> simp [step?_eq_none_iff]

end Call

theorem idle_map_face {step : Expr → List Expr → Option (Expr × Nat)}
    (hstep : ∀ item rest, step item.face (rest.map face) = none ↔ step item rest = none)
    {items : List Expr} : Idle step (items.map face) ↔ Idle step items := by
  induction items with
  | nil => rfl
  | cons item rest ih => simp only [List.map_cons, Idle, hstep, ih]

/-- Items with the faces of others, as far as something that rests on faces is concerned. -/
theorem Idle.of_faces {step : Expr → List Expr → Option (Expr × Nat)}
    (hstep : ∀ item rest, step item.face (rest.map face) = none ↔ step item rest = none)
    {items items' : List Expr} (hfaces : items'.map face = items.map face) (h : Idle step items) :
    Idle step items' := by
  rw [← idle_map_face hstep, hfaces, idle_map_face hstep]
  exact h

theorem Expr.mixesConditional_face (items : List Expr) :
    mixesConditional (items.map face) = mixesConditional items := by
  simp [mixesConditional, List.any_map, Function.comp_def]

namespace Conditional

theorem splitAtColon?_map {f : Expr → Expr} (hf : ∀ e symbol, (f e).isSymbol symbol = e.isSymbol symbol)
    (depth : Nat) (items : List Expr) : splitAtColon? depth (items.map f)
      = (splitAtColon? depth items).map fun parts => (parts.1.map f, parts.2.map f) := by
  induction items generalizing depth with
  | nil => rfl
  | cons e rest ih =>
    have goOn : ∀ d, (splitAtColon? d (rest.map f)).map (fun parts => (f e :: parts.1, parts.2))
        = ((splitAtColon? d rest).map fun parts => (e :: parts.1, parts.2)).map
          fun parts => (parts.1.map f, parts.2.map f) := by
      intro d
      rw [ih]
      cases splitAtColon? d rest <;> rfl
    simp only [List.map_cons, splitAtColon?, hf]
    split
    · exact goOn _
    · split
      · cases depth with
        | zero => rfl
        | succ depth => exact goOn depth
      · exact goOn _

/-- The parts of a conditional lie between the same signs, whatever the items become. -/
theorem parts?_map {f : Expr → Expr} (hf : ∀ e symbol, (f e).isSymbol symbol = e.isSymbol symbol)
    (items : List Expr) : parts? (items.map f)
      = (parts? items).map fun parts => (parts.1.map f, parts.2.1.map f, parts.2.2.map f) := by
  simp only [parts?, List.takeWhile_map, List.dropWhile_map, ← List.map_drop, Function.comp_def, hf,
    splitAtColon?_map hf]
  cases splitAtColon? 0 ((items.dropWhile fun e => !e.isSymbol "?").drop 1) with
  | none => rfl
  | some parts =>
    simp only [Option.map_some, Option.bind_eq_bind, Option.bind_some, List.isEmpty_map]
    split <;> rfl

theorem parts?_face (items : List Expr) : (parts? (items.map face)).isSome = (parts? items).isSome := by
  rw [parts?_map isSymbol_face, Option.isSome_map]

end Conditional

namespace Operation

theorem splitAtBarriers_map {f : Expr → Expr} (hf : ∀ e, (f e).isBarrier = e.isBarrier) (items : List Expr) :
    splitAtBarriers (items.map f)
      = ((splitAtBarriers items).1.map f, (splitAtBarriers items).2.map fun b => (f b.1, b.2.map f)) := by
  induction items with
  | nil => rfl
  | cons e rest ih =>
    simp only [List.map_cons, splitAtBarriers, ih, hf]
    split <;> simp

/-- The runs between barriers. -/
def runs (items : List Expr) : List (List Expr) :=
  (splitAtBarriers items).1 :: (splitAtBarriers items).2.map (·.2)

theorem runs_face (items : List Expr) : runs (items.map face) = (runs items).map (List.map face) := by
  simp [runs, splitAtBarriers_map isBarrier_face]

/-- An operation is found for items that make a run once signs are applied. -/
theorem isSome_resolve?_iff {items : List Expr} :
    (resolve? items).isSome ↔ 2 ≤ items.length ∧ ∃ run, Collapses items run := by
  rw [Option.isSome_iff_exists]
  constructor
  · rintro ⟨e, he⟩
    obtain ⟨hlength, run, t, hsigned, -⟩ := resolve?_eq_some_iff.1 he
    exact ⟨hlength, run, collapses_iff_signedRun.2 hsigned⟩
  · rintro ⟨hlength, run, hrun⟩
    obtain ⟨e, he⟩ := Expr.exists_ofRun?_of_isRun hrun.isRun
    obtain ⟨t, hspells, hgrouped, heq⟩ := Expr.exists_tree_of_ofRun? he
    exact ⟨_, resolve?_eq_some_iff.2
      ⟨hlength, run, t, collapses_iff_signedRun.1 hrun, hspells, hgrouped, heq⟩⟩

end Operation

theorem Expr.eq_of_face_eq_operator {o o' : Expr} (ho : o.isOperator) (h : o'.face = o.face) : o' = o := by
  obtain ⟨t, parts, rfl, -⟩ := isOperator_iff.1 ho
  exact eq_of_face_eq_group h

/-- Items with the faces of a run make a run. -/
theorem Collapses.of_faces {items run items' : List Expr} (h : Collapses items run)
    (hfaces : items'.map face = items.map face) :
    ∃ run', Collapses items' run' ∧ run'.map face = run.map face := by
  induction h generalizing items' with
  | @last x hx =>
    obtain ⟨x', rfl, hx'⟩ := List.map_eq_singleton_iff.1 hfaces
    rw [← isOperand_face, ← hx', isOperand_face] at hx
    exact ⟨[x'], .last hx, hfaces⟩
  | @operator x o op rest run hx ho h ih =>
    obtain ⟨x', tail, rfl, hx', htail⟩ := List.map_eq_cons_iff.1 hfaces
    obtain ⟨o', rest', rfl, ho', hrest⟩ := List.map_eq_cons_iff.1 htail
    rw [eq_of_face_eq_operator (isOperator_of_isInfix ho) ho'] at *
    obtain ⟨run', hrun, hrunFaces⟩ := ih hrest
    rw [← isOperand_face, ← hx', isOperand_face] at hx
    exact ⟨x' :: o :: run', .operator hx ho hrun, by simp [hx', hrunFaces]⟩
  | @sign p x symbol rest run hp h hpower ih =>
    obtain ⟨p', rest', rfl, hp', hrest⟩ := List.map_eq_cons_iff.1 hfaces
    rw [eq_of_face_eq_operator (isOperator_of_isSign hp) hp'] at *
    obtain ⟨run', hrun, hrunFaces⟩ := ih hrest
    obtain ⟨y, tail, rfl, hy, htail⟩ := List.map_eq_cons_iff.1 hrunFaces
    refine ⟨.unary symbol y :: tail, .sign hp hrun ?_, by rw [List.map_cons, List.map_cons, htail]; rfl⟩
    intro o ho
    have hhead : tail.head?.map face = run.head?.map face := by
      rw [← List.head?_map, htail, List.head?_map]
    rw [ho, Option.map_some] at hhead
    obtain ⟨o', ho', heq⟩ := Option.map_eq_some_iff.1 hhead.symm
    rw [← isSymbol_face, ← heq, isSymbol_face]
    exact hpower o' ho'

theorem Operation.resolve?_of_faces {items items' : List Expr} (hfaces : items'.map face = items.map face)
    (h : resolve? items = none) : resolve? items' = none := by
  rw [← Option.not_isSome_iff_eq_none, isSome_resolve?_iff] at h ⊢
  rintro ⟨hlength, run, hrun⟩
  obtain ⟨run', hrun', -⟩ := hrun.of_faces hfaces.symm
  have hcount := congrArg List.length hfaces
  rw [List.length_map, List.length_map] at hcount
  exact h ⟨by omega, run', hrun'⟩

namespace Rule

/-- What the rule for leaves makes of a group: literals and matches do not depend on the items, all else
has references replaced. -/
theorem leaf_group_cases (t : Token) :
    (∃ r : Option Expr, (∀ items, leaf.reduce? (.group t items) = r) ∧
      ∀ x ∈ r, x.token? = none ∧ x.children = []) ∨
    ∀ items, leaf.reduce? (.group t items) = (replaceItems? Leaf.reference? 0 items).map (.group t) := by
  cases hk : t.kind with
  | number =>
    refine Or.inl ⟨_, leaf_number hk, fun x hx => ?_⟩
    obtain ⟨l, -, rfl⟩ := Option.map_eq_some_iff.1 hx
    exact ⟨rfl, rfl⟩
  | quote =>
    refine Or.inl ⟨_, leaf_quote hk, fun x hx => ?_⟩
    obtain ⟨l, -, rfl⟩ := Option.map_eq_some_iff.1 hx
    exact ⟨rfl, rfl⟩
  | regexp =>
    refine Or.inl ⟨_, fun items => by simp only [leaf, Leaf.reduce?, hk]; rfl, fun x hx => ?_⟩
    obtain ⟨l, -, rfl⟩ := Option.map_eq_some_iff.1 hx
    exact ⟨rfl, rfl⟩
  | symbol =>
    refine Or.inl ⟨_, leaf_symbol hk, fun x hx => ?_⟩
    split at hx
    · cases hx
      exact ⟨rfl, rfl⟩
    · obtain ⟨l, -, rfl⟩ := Option.map_eq_some_iff.1 hx
      exact ⟨rfl, rfl⟩
  | _ => exact Or.inr fun items => by simp only [leaf, Leaf.reduce?, hk]

theorem leaf_of_idle {t : Token} {items items' : List Expr} (h : leaf.reduce? (.group t items) = none)
    (hidle : Idle Leaf.reference? items → Idle Leaf.reference? items') :
    leaf.reduce? (.group t items') = none := by
  rcases leaf_group_cases t with ⟨r, hr, -⟩ | hr
  · rw [hr] at h ⊢
    exact h
  · rw [hr, Option.map_eq_none_iff, replaceItems?_eq_none_iff] at h ⊢
    exact hidle h

theorem call_eq_none_iff {t : Token} {items : List Expr} :
    call.reduce? (.group t items) = none ↔ Idle Call.step? items := by
  simp [call, Call.reduce?, replaceItems?_eq_none_iff]

theorem operation_eq_none_iff {t : Token} {items : List Expr} :
    operation.reduce? (.group t items) = none ↔ items.length < 2 ∨ mixesConditional items ∨
      ∀ run ∈ Operation.runs items, Operation.resolve? run = none := by
  simp only [operation, Operation.reduce?, Operation.runs]
  split
  · rename_i h
    rw [Bool.or_eq_true, decide_eq_true_eq] at h
    exact ⟨fun _ => h.imp_right Or.inl, fun _ => rfl⟩
  · rename_i h
    rw [Bool.or_eq_true, decide_eq_true_eq, not_or] at h
    simp only [h.1, h.2, Bool.false_eq_true, false_or]
    split
    · rename_i hany
      obtain ⟨run, hrun, hsome⟩ := List.any_eq_true.1 hany
      constructor
      · intro h
        cases h
      · intro hnone
        rw [hnone run hrun] at hsome
        cases hsome
    · rename_i hany
      rw [Bool.not_eq_true, List.any_eq_false] at hany
      exact ⟨fun _ run hrun => Option.not_isSome_iff_eq_none.1 (hany run hrun), fun _ => rfl⟩

theorem conditional_eq_none_iff {t : Token} {items : List Expr} :
    conditional.reduce? (.group t items) = none ↔ items.any isComma ∨ mixesConditional items ∨
      (Conditional.parts? items).isSome = false := by
  simp only [conditional, Conditional.reduce?]
  split
  · rename_i h
    rw [Bool.or_eq_true] at h
    exact ⟨fun _ => h.imp_right Or.inl, fun _ => rfl⟩
  · rename_i h
    rw [Bool.or_eq_true, not_or] at h
    simp [h.1, h.2]

theorem collapse_eq_none_iff {t : Token} {items : List Expr} :
    collapse.reduce? (.group t items) = none ↔ ∀ x, items = [x] → t.kind.isWrapper → x.isHole := by
  simp only [collapse, Shape.collapse]
  split
  · rename_i u x heq
    obtain ⟨rfl, rfl⟩ := Expr.group.inj heq
    simp [TokenKind.isWrapper]
  · rename_i hne
    refine ⟨?_, fun _ => rfl⟩
    rintro - x rfl
    exact absurd rfl (hne t x)

theorem eq_single_of_collapse {t : Token} {items : List Expr} {x : Expr}
    (h : collapse.reduce? (.group t items) = some x) : items = [x] := by
  simp only [collapse, Shape.collapse] at h
  split at h
  · rename_i u y heq
    obtain ⟨rfl, rfl⟩ := Expr.group.inj heq
    split at h
    · cases h
      rfl
    · cases h
  · cases h

/-- To a group only the rules for items, conditionals and single items could apply. -/
theorem declined_group {t : Token} {items : List Expr}
    (hitems : ∀ rule ∈ [leaf, call, operation], rule.reduce? (.group t items) = none)
    (hconditional : conditional.reduce? (.group t items) = none)
    (hcollapse : collapse.reduce? (.group t items) = none) : Declined standard (.group t items) := by
  intro rule hrule
  simp only [standard, List.mem_cons, List.not_mem_nil, or_false] at hrule
  rcases hrule with rfl | rfl | rfl | rfl | rfl | rfl | rfl | rfl
  · exact hitems leaf (by simp)
  · exact hitems call (by simp)
  · exact hitems operation (by simp)
  · rfl
  · exact hconditional
  · rfl
  · rfl
  · exact hcollapse

/-- A group on which all rules decline, with parts that look the same. -/
theorem declined_of_faces {t : Token} {items items' : List Expr}
    (hfaces : items'.map face = items.map face) (h : Declined standard (.group t items)) :
    Declined standard (.group t items') := by
  have hcount : items'.length = items.length := by simpa using congrArg List.length hfaces
  have hany : ∀ p : Expr → Bool, (∀ e : Expr, p e.face = p e) → items'.any p = items.any p := by
    intro p hp
    have := congrArg (List.any · p) hfaces
    simpa [List.any_map, Function.comp_def, hp] using this
  have hmixes : mixesConditional items' = mixesConditional items := by
    rw [← mixesConditional_face, hfaces, mixesConditional_face]
  have hleaf : leaf.reduce? (.group t items') = none :=
    leaf_of_idle (h leaf (by simp [standard]))
      (Idle.of_faces (fun item rest => by rw [Leaf.reference?_face]) hfaces)
  have hcall : call.reduce? (.group t items') = none := by
    have := h call (by simp [standard])
    rw [call_eq_none_iff] at this ⊢
    exact this.of_faces (fun item rest => Call.step?_face) hfaces
  have hoperation : operation.reduce? (.group t items') = none := by
    have := h operation (by simp [standard])
    rw [operation_eq_none_iff] at this ⊢
    rw [hcount, hmixes]
    refine this.imp_right (Or.imp_right fun hruns run' hrun' => ?_)
    have hmem : run'.map face ∈ (Operation.runs items).map (List.map face) := by
      rw [← Operation.runs_face, ← hfaces, Operation.runs_face]
      exact List.mem_map_of_mem hrun'
    obtain ⟨run, hrun, hrunFaces⟩ := List.mem_map.1 hmem
    exact Operation.resolve?_of_faces hrunFaces.symm (hruns run hrun)
  have hconditional : conditional.reduce? (.group t items') = none := by
    have := h conditional (by simp [standard])
    rw [conditional_eq_none_iff] at this ⊢
    rwa [hany _ isComma_face, hmixes, ← Conditional.parts?_face, hfaces, Conditional.parts?_face]
  have hcollapse : collapse.reduce? (.group t items') = none := by
    have := h collapse (by simp [standard])
    rw [collapse_eq_none_iff] at this ⊢
    rintro x rfl hwrapper
    obtain ⟨y, rfl, hy⟩ := List.map_eq_singleton_iff.1 hfaces.symm
    rw [← isHole_face, ← hy, isHole_face]
    exact this y rfl hwrapper
  exact declined_group (by simpa using ⟨hleaf, hcall, hoperation⟩) hconditional hcollapse

/-! ### A round at a group -/

end Rule

namespace Operation

theorem runs_run {run : List Expr} (h : ∀ e ∈ run, e.isBarrier = false) : runs run = [run] := by
  rw [runs, splitAtBarriers_run h]
  rfl

theorem runs_run_append {run : List Expr} (h : ∀ e ∈ run, e.isBarrier = false) {b : Expr}
    (hb : b.isBarrier) (rest : List Expr) : runs (run ++ b :: rest) = run :: runs rest := by
  rw [runs, splitAtBarriers_append h hb]
  rfl

/-- Runs that are resolved hold no operation any more. -/
theorem resolve?_of_mem_runs {items : List Expr} :
    ∀ run ∈ runs (resolveRuns items), resolve? run = none := by
  have hresolved : ∀ run, resolve? (resolved run) = none := by
    intro run
    rcases resolved_cases run with ⟨e, -, -, heq⟩ | ⟨hnone, heq⟩
    · rw [heq]
      rfl
    · rw [heq, hnone]
  induction items using runInduction with
  | run run h =>
    rw [resolveRuns_run h, runs_run (isBarrier_of_mem_resolved h)]
    simpa using hresolved run
  | barrier run b rest h hb ih =>
    rw [resolveRuns_run_append h hb, runs_run_append (isBarrier_of_mem_resolved h) hb]
    simpa using ⟨hresolved run, ih⟩

end Operation

/-- An item after all calls is one from before that is in no parentheses, a call, or an item that was in
parentheses. -/
theorem mem_calls {items : List Expr} {x : Expr} (hx : x ∈ replaceAll Call.step? items) :
    (x ∈ items ∧ Call.grouped? x = none) ∨ x.Inert ∨ ∃ y ∈ items, Call.grouped? y = some x := by
  revert hx
  refine replaceAll_induct (P := fun items items' => x ∈ items' →
    (x ∈ items ∧ Call.grouped? x = none) ∨ x.Inert ∨ ∃ y ∈ items, Call.grouped? y = some x) ?_ ?_ ?_ items
  · exact fun hx => by cases hx
  · intro item rest hs ih hx
    rcases List.mem_cons.1 hx with rfl | hx
    · exact Or.inl ⟨List.mem_cons_self .., (Call.step?_eq_none_iff.1 hs).2⟩
    · rcases ih hx with ⟨hx, hgrouped⟩ | hx | ⟨y, hy, hgrouped⟩
      · exact Or.inl ⟨List.mem_cons_of_mem _ hx, hgrouped⟩
      · exact Or.inr (Or.inl hx)
      · exact Or.inr (Or.inr ⟨y, List.mem_cons_of_mem _ hy, hgrouped⟩)
  · intro item rest e n hs ih hx
    have hdrop : ∀ {y}, y ∈ rest.drop n → y ∈ item :: rest :=
      fun hy => List.mem_cons_of_mem _ (List.mem_of_mem_drop hy)
    rcases List.mem_cons.1 hx with rfl | hx
    · rcases Call.step?_eq_some hs with ⟨-, he⟩ | hgrouped
      · exact Or.inr (Or.inl he)
      · exact Or.inr (Or.inr ⟨item, List.mem_cons_self .., hgrouped⟩)
    · rcases ih hx with ⟨hx, hgrouped⟩ | hx | ⟨y, hy, hgrouped⟩
      · exact Or.inl ⟨hdrop hx, hgrouped⟩
      · exact Or.inr (Or.inl hx)
      · exact Or.inr (Or.inr ⟨y, hdrop hy, hgrouped⟩)

namespace Rule

/-- An item in normal form, or one that looks like any operand and may still have parts that are not. -/
def Ready (x : Expr) : Prop := Settled standard x ∨ x.Inert

/-- A settled item in parentheses is settled, and not in parentheses itself. -/
theorem Settled.of_grouped? {x y : Expr} (hy : Settled standard y) (h : Call.grouped? y = some x) :
    Settled standard x ∧ Call.grouped? x = none := by
  obtain ⟨t, -, rfl⟩ := Call.grouped?_eq_some h
  cases hy with
  | node hd hc =>
    have hidle := call_eq_none_iff.1 (hd call (by simp [standard]))
    exact ⟨hc x (by simp [children]), (Call.step?_eq_none_iff.1 hidle.1).2⟩

/-- What a round makes of the items of a group, before the group itself may give way to one of them. -/
structure RoundItems (t : Token) (items left : List Expr) : Prop where
  /-- Nothing is in parentheses any more, if the items were settled. -/
  ready (h : ∀ x ∈ items, Settled standard x) : ∀ x ∈ left, Ready x ∧ Call.grouped? x = none
  /-- The rules for items decline, if nothing was in parentheses before. -/
  quiet (h : Ungrouped items) : ∀ rule ∈ [leaf, call, operation], rule.reduce? (.group t left) = none

theorem roundItems_single {t : Token} {items left : List Expr} (h : RoundItems t items left)
    {c : Expr} (hc : c.Inert) : RoundItems t items [c] where
  ready _ x hx := by
    rw [List.mem_singleton.1 hx]
    exact ⟨Or.inr hc, hc.grouped?⟩
  quiet hitems rule hrule := by
    have hleaf := h.quiet hitems leaf (by simp)
    simp only [List.mem_cons, List.not_mem_nil, or_false] at hrule
    rcases hrule with rfl | rfl | rfl
    · exact leaf_of_idle hleaf fun _ => ⟨Leaf.reference?_of_inert hc _, trivial⟩
    · exact call_eq_none_iff.2 ⟨Call.step?_of_inert hc _, trivial⟩
    · exact operation_eq_none_iff.2 (Or.inl (by simp))

/-- References, calls and operations, in this order. -/
theorem roundItems_resolveRuns {t : Token} {items refs : List Expr} (hrefs : Merges items refs)
    (hleaf : leaf.reduce? (.group t refs) = none) :
    RoundItems t items (if mixesConditional (replaceAll Call.step? refs) then replaceAll Call.step? refs
      else Operation.resolveRuns (replaceAll Call.step? refs)) := by
  generalize hops : (if mixesConditional (replaceAll Call.step? refs) then replaceAll Call.step? refs
    else Operation.resolveRuns (replaceAll Call.step? refs)) = ops
  have hmerges : Merges (replaceAll Call.step? refs) ops := by
    rw [← hops]
    split
    · exact .refl _
    · exact merges_resolveRuns _
  have hoperation : operation.reduce? (.group t ops) = none := by
    rw [operation_eq_none_iff, ← hops]
    split
    · rename_i hmixes
      exact Or.inr (Or.inl hmixes)
    · exact Or.inr (Or.inr Operation.resolve?_of_mem_runs)
  constructor
  · intro hitems x hx
    have hinert : x.Inert → Ready x ∧ Call.grouped? x = none := fun h => ⟨Or.inr h, h.grouped?⟩
    have hready : ∀ {y}, y ∈ refs → Ready y := fun hy => (hrefs.mem hy).imp_left (hitems _)
    rcases hmerges.mem hx with hx | hx
    · rcases mem_calls hx with ⟨hx, hgrouped⟩ | hx | ⟨y, hy, hgrouped⟩
      · exact ⟨hready hx, hgrouped⟩
      · exact hinert hx
      · rcases hready hy with hy | hy
        · exact (hy.of_grouped? hgrouped).imp_left Or.inl
        · rw [hy.grouped?] at hgrouped
          cases hgrouped
    · exact hinert hx
  · intro hitems rule hrule
    have hungrouped := hrefs.ungrouped hitems
    simp only [List.mem_cons, List.not_mem_nil, or_false] at hrule
    rcases hrule with rfl | rfl | rfl
    · exact leaf_of_idle hleaf fun hidle =>
        (hidle.merges steady_reference? (merges_calls hungrouped)).merges steady_reference? hmerges
    · exact call_eq_none_iff.2 ((idle_calls hungrouped).merges steady_step? hmerges)
    · exact hoperation

/-- The rule for leaves makes a literal or a match of a group, or it leaves a group in which it applies no
more. -/
theorem apply_leaf_cases (t : Token) (items : List Expr) :
    (∃ x, x.token? = none ∧ x.children = [] ∧ apply (.group t items) leaf = x) ∨
    ∃ refs, Merges items refs ∧ leaf.reduce? (.group t refs) = none ∧
      apply (.group t items) leaf = .group t refs := by
  rcases leaf_group_cases t with ⟨r, hr, hx⟩ | hr
  · cases r with
    | none => exact Or.inr ⟨items, .refl items, hr items, apply_of_none (hr items)⟩
    | some x => exact Or.inl ⟨x, (hx x rfl).1, (hx x rfl).2, apply_of_some (hr items)⟩
  · refine Or.inr ⟨replaceAll Leaf.reference? items, merges_references items, ?_, ?_⟩
    · rw [hr, replaceItems?_eq_none_iff.2 (idle_references items)]
      rfl
    · rw [apply, hr, replaceAll]
      cases replaceItems? Leaf.reference? 0 items <;> rfl

/-- A leaf is left alone by all rules. -/
theorem declined_of_children_eq_nil {e : Expr} (he : e.token? = none) (hc : e.children = []) :
    Declined standard e := by
  cases e with
  | group => cases he
  | binary | conditional => cases hc
  | _ => exact declined_of_token?_eq_none rfl rfl rfl rfl

/-- A token that the rule for literals reads, whatever parts it has, as an expression without parts. -/
theorem normalizeWithin_of_leaf {t : Token} {x : Expr} (h : ∀ parts, leaf.reduce? (.group t parts) = some x)
    (hx : x.token? = none) (hc : x.children = []) (k : Nat) (parts : List Expr) :
    normalizeWithin standard (k + 1) (.group t parts) = x := by
  have hdeclined := declined_of_children_eq_nil hx hc
  have hround : ∀ parts, standard.foldl apply (.group t parts) = x := by
    intro parts
    rw [standard, List.foldl_cons, apply_of_some (h parts)]
    exact foldl_apply_of_declined fun rule hrule => hdeclined rule (List.mem_cons_of_mem _ hrule)
  rw [normalizeWithin_succ k (by simp), mapChildren_group]
  exact settle_of_round (hround _) hdeclined (by simp [hc])

/-- A round at a group leaves a leaf, or items to which no rule but that for single items applies. -/
theorem foldl_standard_group (t : Token) (items : List Expr) :
    (∃ x, x.token? = none ∧ x.children = [] ∧ standard.foldl apply (.group t items) = x) ∨
    ∃ left, RoundItems t items left ∧ conditional.reduce? (.group t left) = none ∧
      standard.foldl apply (.group t items) = apply (.group t left) collapse := by
  rcases apply_leaf_cases t items with ⟨x, hx, hc, heq⟩ | ⟨refs, hrefs, hleaf, heq⟩
  · refine Or.inl ⟨x, hx, hc, ?_⟩
    have hdeclined := declined_of_children_eq_nil hx hc
    rw [standard, List.foldl_cons, heq]
    exact foldl_apply_of_declined fun rule hrule => hdeclined rule (List.mem_cons_of_mem _ hrule)
  · refine Or.inr ?_
    have hops := roundItems_resolveRuns hrefs hleaf
    have hfold : standard.foldl apply (.group t items) = [conditional, repetition, guardedDivision,
        collapse].foldl apply (.group t (if mixesConditional (replaceAll Call.step? refs) then
          replaceAll Call.step? refs else Operation.resolveRuns (replaceAll Call.step? refs))) := by
      rw [standard, List.foldl_cons, heq, List.foldl_cons, apply_call_group, List.foldl_cons,
        apply_operation_group, List.foldl_cons, apply_of_none rfl]
    generalize (if mixesConditional (replaceAll Call.step? refs) then replaceAll Call.step? refs
      else Operation.resolveRuns (replaceAll Call.step? refs)) = ops at hops hfold
    cases hc : conditional.reduce? (.group t ops) with
    | none =>
      refine ⟨ops, hops, hc, ?_⟩
      rw [hfold, List.foldl_cons, apply_of_none hc]
      rfl
    | some next =>
      obtain ⟨test, yes, no, rfl⟩ : ∃ test yes no, next = .group t [.conditional test yes no] := by
        simp only [conditional, Conditional.reduce?] at hc
        split at hc
        · cases hc
        · obtain ⟨parts, -, rfl⟩ := Option.map_eq_some_iff.1 hc
          exact ⟨_, _, _, rfl⟩
      have hinert : (Expr.conditional test yes no).Inert := rfl
      refine ⟨_, roundItems_single hops hinert, conditional_single t _, ?_⟩
      rw [hfold, List.foldl_cons, apply_of_some hc]
      rfl

/-! ### Rounds at a node -/

theorem Settled.endsWithin {e : Expr} (h : Settled standard e) (rounds levels : Nat) :
    EndsWithin standard (rounds + 1) levels e := by
  induction h generalizing levels with
  | hole => exact endsWithin_hole _ levels
  | @node e hd hc ih =>
    cases levels with
    | zero => exact trivial
    | succ levels =>
      by_cases he : e = .hole
      · rw [he]
        exact endsWithin_hole _ _
      · rw [endsWithin_succ levels he, Settled.mapChildren hc]
        exact ⟨fun c hmem => ih c hmem levels, settleEnds_of_declined hd rounds⟩

theorem token?_mapChildren (f : Expr → Expr) (e : Expr) : (e.mapChildren f).token? = e.token? := by
  cases e with
  | regexMatch s => cases s <;> rfl
  | _ => rfl

theorem inert_mapChildren {e : Expr} (h : e.Inert) (f : Expr → Expr) : (e.mapChildren f).Inert := by
  cases e with
  | regexMatch s => cases s <;> rfl
  | hole | value | group => cases h
  | _ => rfl

theorem Recast.inert {e next : Expr} (h : Recast e next) : next.Inert := by
  cases h <;> rfl

theorem Recast.settled {e next : Expr} (h : Recast e next) (he : ∀ c ∈ e.children, Settled standard c) :
    ∀ c ∈ next.children, Settled standard c := by
  cases h with
  | @bound op subject p fl neg neg' =>
    intro c hc
    have hsubject : c = subject := by cases subject <;> simp_all [children]
    exact he c (by simp [hsubject, children])
  | repeated => exact he
  | @guarded guard n d no op name args h =>
    intro c hc
    cases he (.binary op n d) (by simp [children]) with
    | node _ hparts => exact hparts c (by simpa [children] using h c hc)

/-- An operand stays one. -/
theorem inert_settle {below : Expr → Expr} {n : Nat} {e : Expr} (h : e.Inert) :
    (settle below standard n e).Inert := by
  induction n generalizing e with
  | zero => exact h
  | succ n ih =>
    rw [settle]
    split
    · exact h
    · rename_i next hr
      exact ih (inert_mapChildren (recast_of_round? h.token? hr).inert below)

theorem Ready.face_normalizeWithin {x : Expr} (h : Ready x) (levels : Nat) :
    (normalizeWithin standard levels x).face = x.face := by
  rcases h with h | h
  · rw [normalizeWithin_of_settled h]
  · have hinert : (normalizeWithin standard levels x).Inert := by
      cases levels with
      | zero => exact h
      | succ levels =>
        rw [normalizeWithin_succ levels (by rintro rfl; cases h)]
        exact inert_settle (inert_mapChildren h _)
    rw [h, hinert]

theorem map_face_normalizeWithin {items : List Expr} (h : ∀ x ∈ items, Ready x) (levels : Nat) :
    (items.map (normalizeWithin standard levels)).map face = items.map face := by
  rw [List.map_map]
  exact List.map_congr_left fun x hx => (h x hx).face_normalizeWithin levels

theorem not_settleMeets_succ {below : Expr → Expr} {meets : Expr → Prop} {n : Nat} {e next : Expr}
    (hr : round? standard e = some next) : ¬SettleMeets below meets standard (n + 1) e ↔
      (∀ c ∈ next.children, ¬meets c) ∧ ¬SettleMeets below meets standard n (next.mapChildren below) := by
  rw [SettleMeets, hr]
  simp [not_or]

/-- The rounds in a part end within four, and leave it settled. -/
def Done (levels : Nat) (c : Expr) : Prop :=
  EndsWithin standard 4 levels c ∧ Settled standard (normalizeWithin standard levels c)

section

variable {levels : Nat}

theorem done_of_settled {c : Expr} (h : Settled standard c) : Done levels c :=
  ⟨h.endsWithin 3 levels, by rwa [normalizeWithin_of_settled h]⟩

theorem settled_of_mem_children_mapChildren {e : Expr} (h : ∀ c ∈ e.children, Done levels c) :
    ∀ d ∈ (e.mapChildren (normalizeWithin standard levels)).children, Settled standard d := by
  intro d hd
  obtain ⟨c, hc, rfl⟩ := exists_of_mem_children_mapChildren hd
  exact (h c hc).2

/-- Two rounds for what is no group. -/
theorem settleEnds_of_settled {e : Expr} (he : e.token? = none)
    (hparts : ∀ c ∈ e.children, Settled standard c) :
    SettleEnds (normalizeWithin standard levels) (Done levels) standard 2 e :=
  settleEnds_of_token?_eq_none he fun _ hnext c hc => done_of_settled (hnext.settled hparts c hc)

variable (ih : ∀ c, ¬MeetsLimit standard (fun _ => True) levels c → Done levels c)
include ih

/-- The first of several rounds at a group. What is left to show concerns the group that is there after
it, for all else is settled in two more. -/
theorem settleEnds_group {t : Token} {items : List Expr} (hitems : ∀ x ∈ items, Settled standard x)
    {n k : Nat} (hk : 2 ≤ k) (hlimit : ¬SettleMeets (normalizeWithin standard levels)
      (MeetsLimit standard (fun _ => True) levels) standard (n + 1) (.group t items))
    (hgroup : ∀ left, RoundItems t items left → conditional.reduce? (.group t left) = none →
      collapse.reduce? (.group t left) = none → (∀ c ∈ left, Done levels c) →
      ¬SettleMeets (normalizeWithin standard levels) (MeetsLimit standard (fun _ => True) levels) standard
        n (.group t (left.map (normalizeWithin standard levels))) →
      SettleEnds (normalizeWithin standard levels) (Done levels) standard k
        (.group t (left.map (normalizeWithin standard levels)))) :
    SettleEnds (normalizeWithin standard levels) (Done levels) standard (k + 1) (.group t items) := by
  cases hr : round? standard (.group t items) with
  | none => exact settleEnds_of_declined (round?_eq_none_iff.1 hr) k
  | some next =>
    rw [not_settleMeets_succ hr] at hlimit
    have hparts : ∀ c ∈ next.children, Done levels c := fun c hc => ih c (hlimit.1 c hc)
    have hnext := round?_getD standard (.group t items)
    rw [hr, Option.getD_some] at hnext
    rw [settleEnds_succ hr]
    refine ⟨hparts, ?_⟩
    have hwhole : next.token? = none → SettleEnds (normalizeWithin standard levels) (Done levels) standard
        k (next.mapChildren (normalizeWithin standard levels)) := by
      intro htoken
      rw [← token?_mapChildren (normalizeWithin standard levels)] at htoken
      exact (settleEnds_of_settled htoken (settled_of_mem_children_mapChildren hparts)).mono
        (fun _ h => h) hk
    rcases foldl_standard_group t items with ⟨x, hx, -, heq⟩ | ⟨left, hleft, hconditional, heq⟩
    · exact hwhole (by rw [hnext, heq, hx])
    · cases hc : collapse.reduce? (.group t left) with
      | none =>
        obtain rfl : next = .group t left := by rw [hnext, heq, apply_of_none hc]
        exact hgroup left hleft hconditional hc hparts hlimit.2
      | some x =>
        obtain rfl : next = x := by rw [hnext, heq, apply_of_some hc]
        obtain rfl := eq_single_of_collapse hc
        rcases (hleft.ready hitems next (by simp)).1 with hsettled | hinert
        · cases hsettled with
          | hole => exact hwhole rfl
          | node hd hsettled =>
            rw [Settled.mapChildren hsettled]
            exact (settleEnds_of_declined hd 1).mono (fun _ h => h) hk
        · exact hwhole hinert.token?

/-- Three rounds for a group without parentheses: one over its items, and two for what is left if that
is no group. -/
theorem settleEnds_of_ungrouped {t : Token} {items : List Expr}
    (hitems : ∀ x ∈ items, Settled standard x) (hungrouped : Ungrouped items) {n : Nat}
    (hlimit : ¬SettleMeets (normalizeWithin standard levels)
      (MeetsLimit standard (fun _ => True) levels) standard (n + 1) (.group t items)) :
    SettleEnds (normalizeWithin standard levels) (Done levels) standard 3 (.group t items) := by
  refine settleEnds_group ih hitems (Nat.le_refl 2) hlimit ?_
  intro left hleft hconditional hcollapse _ _
  have hdeclined := declined_group (hleft.quiet hungrouped) hconditional hcollapse
  refine settleEnds_of_declined (declined_of_faces ?_ hdeclined) 1
  exact map_face_normalizeWithin (fun x hx => (hleft.ready hitems x hx).1) levels

/-- Four rounds for any group: after the first, nothing is in parentheses. -/
theorem settleEnds_of_group {t : Token} {items : List Expr}
    (hitems : ∀ x ∈ items, Settled standard x) {n : Nat}
    (hlimit : ¬SettleMeets (normalizeWithin standard levels)
      (MeetsLimit standard (fun _ => True) levels) standard (n + 2) (.group t items)) :
    SettleEnds (normalizeWithin standard levels) (Done levels) standard 4 (.group t items) := by
  refine settleEnds_group ih hitems (by omega) hlimit ?_
  intro left hleft _ _ hdone hlimit
  refine settleEnds_of_ungrouped ih ?_ ?_ hlimit
  · intro y hy
    obtain ⟨x, hx, rfl⟩ := List.mem_map.1 hy
    exact (hdone x hx).2
  · intro y hy
    obtain ⟨x, hx, rfl⟩ := List.mem_map.1 hy
    obtain ⟨hready, hgrouped⟩ := hleft.ready hitems x hx
    rwa [← Call.grouped?_face, hready.face_normalizeWithin, Call.grouped?_face]

end

/-- Unless the limit on the depth is met, the rounds at every node end within four, and leave the
expression settled. -/
theorem done_of_not_meetsLimit {levels : Nat} {e : Expr}
    (h : ¬MeetsLimit standard (fun _ => True) levels e) : Done levels e := by
  induction levels generalizing e with
  | zero => exact absurd trivial h
  | succ levels ih =>
    by_cases he : e = .hole
    · rw [he]
      exact done_of_settled .hole
    · rw [meetsLimit_succ levels he, not_or] at h
      have hparts : ∀ c ∈ e.children, Done levels c := fun c hc => ih fun hm => h.1 ⟨c, hc, hm⟩
      have hsettled := settled_of_mem_children_mapChildren hparts
      have hends : SettleEnds (normalizeWithin standard levels) (Done levels) standard 4
          (e.mapChildren (normalizeWithin standard levels)) := by
        cases htoken : e.token? with
        | none =>
          rw [← token?_mapChildren (normalizeWithin standard levels)] at htoken
          exact (settleEnds_of_settled htoken hsettled).mono (fun _ h => h) (by omega)
        | some t =>
          cases e with
          | group t' items => exact settleEnds_of_group (fun _ => ih) hsettled (n := 62) h.2
          | _ => cases htoken
      obtain ⟨hdeclined, hchildren⟩ := hends.declined_settle (P := Settled standard) (fun _ hc => hc.2)
        (m := maxRounds) (by decide) hsettled
      rw [Done, endsWithin_succ levels he, normalizeWithin_succ levels he]
      exact ⟨⟨fun c hc => (hparts c hc).1, hends.mono (fun _ hc => hc.1) (Nat.le_refl 4)⟩,
        .node hdeclined hchildren⟩

/-- The rounds end before their limit: within four where the limit on the depth is never met, and within
two in a canonical expression of any depth. -/
theorem endsWithin_standard (e : Expr) :
    (¬MeetsLimit standard (fun _ => True) (maxDepth + 1) e → EndsWithin standard 4 (maxDepth + 1) e) ∧
    (e.isCanonical → EndsWithin standard 2 (maxDepth + 1) e) ∧ 4 < maxRounds :=
  ⟨fun h => (done_of_not_meetsLimit h).1, endsWithin_of_isCanonical, by decide⟩

/-- Tokens as deep as the limit allows, and a canonical tree that is deeper. -/
theorem endsWithin_standard_nested :
    let tokens := ofTokenTree (comparison.nested 503)
    let deep := negated (.binary (ascii "x") .value (.integer 2)) 600
    ¬MeetsLimit standard (fun _ => True) (maxDepth + 1) tokens ∧
      EndsWithin standard 4 (maxDepth + 1) tokens ∧
      deep.isCanonical ∧ EndsWithin standard 2 (maxDepth + 1) deep ∧ 4 < maxRounds := by
  intro tokens deep
  have hweight : tokens.weight ≤ maxDepth + 1 := by
    rw [weight_nested isIgnorable_comparison, weight_comparison, maxDepth]
  have hlimit : ¬MeetsLimit standard (fun _ => True) (maxDepth + 1) tokens :=
    not_meetsLimit_of_weight_le (fun _ => lightens_of_mem_standard) hweight
  have hdeep : deep.isCanonical := isCanonical_negated rfl 600
  exact ⟨hlimit, (endsWithin_standard tokens).1 hlimit, hdeep, (endsWithin_standard deep).2.1 hdeep,
    (endsWithin_standard deep).2.2⟩

end Rule

end TagFormula

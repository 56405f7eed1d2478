import TagFormula.Proofs.ReadingBack

/-!
What the rules for groups see of an item, and how they put items together. Apart from tokens, the value and
missing parts, all items look alike; and each of references, calls and operations puts one such item in the
place of a stretch of items. Main statement: where no reference and no call starts, none starts after items
have been put together.
-/

namespace TagFormula

namespace Expr

/-! ### Items as rules see them -/

/-- An item as the rules for groups see it. -/
def face : Expr → Expr
  | .hole => .hole
  | .value => .value
  | .group t parts => .group t parts
  | _ => .integer 0

/-- An item that looks like any other operand. -/
def Inert (e : Expr) : Prop := e.face = .integer 0

@[simp] theorem token?_face (e : Expr) : e.face.token? = e.token? := by cases e <;> rfl

@[simp] theorem isHole_face (e : Expr) : e.face.isHole = e.isHole := by cases e <;> rfl

@[simp] theorem isOperand_face (e : Expr) : e.face.isOperand = e.isOperand := by cases e <;> rfl

@[simp] theorem isSymbol_face (e : Expr) (s : String) : e.face.isSymbol s = e.isSymbol s := by
  cases e <;> rfl

@[simp] theorem isComma_face (e : Expr) : e.face.isComma = e.isComma := by cases e <;> rfl

@[simp] theorem isBarrier_face (e : Expr) : e.face.isBarrier = e.isBarrier := by cases e <;> rfl

@[simp] theorem bindsBelowConditional_face (e : Expr) :
    e.face.bindsBelowConditional = e.bindsBelowConditional := by cases e <;> rfl

/-- Tokens are seen as they are. -/
theorem eq_of_face_eq_group {e : Expr} {t : Token} {parts : List Expr} (h : e.face = .group t parts) :
    e = .group t parts := by
  cases e <;> first | exact h | cases h

theorem Inert.isOperand {e : Expr} (h : e.Inert) : e.isOperand := by
  rw [← isOperand_face, h]
  rfl

theorem Inert.token? {e : Expr} (h : e.Inert) : e.token? = none := by
  rw [← token?_face, h]
  rfl

theorem Inert.isHole {e : Expr} (h : e.Inert) : e.isHole = false := by
  rw [← isHole_face, h]
  rfl

theorem Inert.isResolved {e : Expr} (h : e.Inert) : e.IsResolved := ⟨h.token?, h.isHole⟩

end Expr

open Expr

namespace Leaf

@[simp] theorem isValue_face (e : Expr) : isValue e.face = isValue e := by cases e <;> rfl

@[simp] theorem isToken_face (e : Expr) (kind : TokenKind) (content : String) :
    isToken kind content e.face = isToken kind content e := by cases e <;> rfl

@[simp] theorem index?_face (e : Expr) : index? e.face = index? e := by cases e <;> rfl

@[simp] theorem fieldOfSubscript?_face (e : Expr) : fieldOfSubscript? e.face = fieldOfSubscript? e := by
  cases e <;> rfl

/-- A reference is read off the faces. -/
theorem reference?_face (item : Expr) (rest : List Expr) :
    reference? item.face (rest.map face) = reference? item rest := by
  cases rest with
  | nil => rfl
  | cons next after =>
    cases after <;> simp [reference?]

theorem reference?_of_inert {e : Expr} (h : e.Inert) (rest : List Expr) : reference? e rest = none := by
  rw [← reference?_face, h]
  cases rest <;> rfl

/-- No reference goes on with an inert item. -/
theorem reference?_inert_cons {e : Expr} (h : e.Inert) (item : Expr) (rest : List Expr) :
    reference? item (e :: rest) = none := by
  have hindex : index? e = none := by rw [← index?_face, h]; rfl
  have hfield : fieldOfSubscript? e = none := by rw [← fieldOfSubscript?_face, h]; rfl
  have hself : isToken .symbol "$self" e = false := by rw [← isToken_face, h]; rfl
  have harrow : e.isSymbol "->" = false := isSymbol_of_isOperand h.isOperand "->"
  simp [reference?, hindex, hfield, hself, harrow]

/-- A reference looks at no more than two items. -/
theorem reference?_cons_inert_cons {e : Expr} (h : e.Inert) {item next : Expr} {after : List Expr}
    (rest : List Expr) (hnone : reference? item (next :: after) = none) :
    reference? item (next :: e :: rest) = none := by
  have hfield : fieldOfSubscript? e = none := by rw [← fieldOfSubscript?_face, h]; rfl
  simp only [reference?, List.head?_cons, Option.bind_some, hfield, Option.map_none] at hnone ⊢
  split at hnone
  · rename_i hvalue
    rw [if_pos hvalue, hnone]
  · rename_i hvalue
    rw [if_neg hvalue]
    split
    · rfl
    · rename_i hself
      rw [if_neg hself] at hnone
      exact hnone

theorem reference?_cons_cons_congr {item next x : Expr} (after after' : List Expr) :
    reference? item (next :: x :: after) = reference? item (next :: x :: after') := by
  simp [reference?]

end Leaf

/-! ### Where a call starts -/

namespace Call

/-- Whether a word takes an item behind it into a call. -/
def takes (word : Text) (next : Expr) : Bool :=
  isList next || (isListOperator word && !endsArguments next)
    || (isNamedUnary word && !next.isBarrier
      && next.operatorSymbol?.all fun s => Operator.isPrefix s || (Operator.precedence? s).any (100 < ·))

theorem isEmpty_bare (rest : List Expr) :
    (rest.takeWhile fun e => !endsArguments e).isEmpty = !rest.head?.any (!endsArguments ·) := by
  cases rest with
  | nil => rfl
  | cons next rest => cases h : endsArguments next <;> simp [h]

theorem isEmpty_unaryOperand (rest : List Expr) : (unaryOperand rest).isEmpty
    = !rest.head?.any fun next => !next.isBarrier
      && next.operatorSymbol?.all fun s => Operator.isPrefix s || (Operator.precedence? s).any (100 < ·) := by
  cases rest with
  | nil => rfl
  | cons next rest =>
    rw [unaryOperand, unaryOperand.go]
    cases hb : next.isBarrier with
    | true => simp [hb]
    | false =>
      cases ho : next.operatorSymbol? with
      | none => simp [hb, ho]
      | some s =>
        cases hp : Operator.isPrefix s <;> cases hany : (Operator.precedence? s).any (100 < ·) <;>
          simp [hb, ho, hp, hany]

/-- The call of a word in front of parentheses. -/
theorem ofWord?_list (word : Text) {next : Expr} (h : isList next) (rest : List Expr) :
    (ofWord? word (next :: rest)).isSome := by
  cases next with
  | group t items =>
    have hk : t.kind = .list := by simpa [isList, isKind, token?] using h
    simp [ofWord?, hk]
  | _ => cases h

/-- Without parentheses behind it, a word starts a call as an operator. -/
theorem ofWord?_of_not_list {word : Text} {rest : List Expr} (h : rest.head?.any isList = false) :
    ofWord? word rest =
      if isListOperator word && !(rest.takeWhile fun e => !endsArguments e).isEmpty then
        some (.call word (arguments (rest.takeWhile fun e => !endsArguments e)),
          (rest.takeWhile fun e => !endsArguments e).length)
      else if isNamedUnary word && !(unaryOperand rest).isEmpty then
        some (.call word [collapseOrWrap (unaryOperand rest)], (unaryOperand rest).length)
      else none := by
  unfold ofWord?
  dsimp only
  split
  · rename_i r hr
    split at hr
    · rename_i t items _
      split at hr
      · rename_i hk
        simp [isList, isKind, token?, hk] at h
      · cases hr
    · cases hr
  · rfl

/-- Whether a call starts at a word depends on the next item alone. -/
theorem ofWord?_eq_none_iff {word : Text} {rest : List Expr} :
    ofWord? word rest = none ↔ rest.head?.any (takes word) = false := by
  cases hl : rest.head?.any isList with
  | true =>
    cases rest with
    | nil => cases hl
    | cons next rest =>
      have hsome := ofWord?_list word hl rest
      have htakes : takes word next = true := by
        rw [List.head?_cons, Option.any_some] at hl
        simp [takes, hl]
      rw [List.head?_cons, Option.any_some, htakes]
      cases hcall : ofWord? word (next :: rest) <;> simp_all
  | false =>
    rw [ofWord?_of_not_list hl, isEmpty_bare, isEmpty_unaryOperand]
    cases rest with
    | nil => simp
    | cons next rest =>
      simp only [List.head?_cons, Option.any_some, Bool.not_not] at hl ⊢
      rw [takes, hl, Bool.false_or]
      split
      · simp_all
      · split <;> simp_all

theorem step?_eq_none_iff {item : Expr} {rest : List Expr} : step? item rest = none ↔
    (∀ word ∈ word? item, rest.head?.any (takes word) = false) ∧ grouped? item = none := by
  cases hw : word? item with
  | none => simp [step?, hw]
  | some word =>
    cases hcall : ofWord? word rest with
    | none => simp [step?, hw, hcall, ofWord?_eq_none_iff.1 hcall]
    | some r =>
      have htakes : rest.head?.any (takes word) ≠ false := by
        rw [Ne, ← ofWord?_eq_none_iff, hcall]
        simp
      simp [step?, hw, hcall, htakes]

theorem step?_of_inert {e : Expr} (h : e.Inert) (rest : List Expr) : step? e rest = none :=
  step?_resolved h.isResolved rest

end Call

/-! ### Items put together -/

namespace Expr

/-- An operand may start with this item: it is no operator, or one that stands in front of operands. -/
def opensOperand (e : Expr) : Bool := e.operatorSymbol?.all Operator.isPrefix

theorem isPrefix_of_isSymbol {e : Expr} {s : String} (he : e.opensOperand) (h : e.isSymbol s) :
    Operator.isPrefix (ascii s) := by
  cases e with
  | group t parts =>
    simp only [isSymbol, Expr.token?, Option.any_some, Bool.and_eq_true, decide_eq_true_eq,
      beq_iff_eq] at h
    simpa [opensOperand, operatorSymbol?, h.1, h.2] using he
  | _ => cases h

theorem opensOperand_of_isOperand {e : Expr} (h : e.isOperand) : e.opensOperand := by
  rw [opensOperand, operatorSymbol?_of_isOperand h]
  rfl

theorem opensOperand_of_isSign {p : Expr} {symbol : Text} (h : p.IsSign symbol) : p.opensOperand := by
  obtain ⟨t, parts, rfl, hk, rfl, hp⟩ := h
  simp [opensOperand, operatorSymbol?, hk, hp]

/-- A word that does not take the start of an operand takes no operand at all. -/
theorem takes_of_inert {word : Text} {x e : Expr} (hx : x.opensOperand) (he : e.Inert)
    (h : Call.takes word x = false) : Call.takes word e = false := by
  have hends : Call.endsArguments x = false := by
    have hsymbol : ∀ s ∈ ["and", "or", "xor", "not"], ¬x.isSymbol s := by
      intro s hs hsym
      have hsign := isPrefix_of_isSymbol hx hsym
      simp only [List.mem_cons, List.not_mem_nil, or_false] at hs
      rcases hs with rfl | rfl | rfl | rfl <;> exact absurd hsign (by decide)
    simpa [Call.endsArguments] using hsymbol
  have hbarrier : x.isBarrier = false := by
    have hsymbol : ∀ s ∈ [",", "=>", "?", ":"], ¬x.isSymbol s := by
      intro s hs hsym
      have hsign := isPrefix_of_isSymbol hx hsym
      simp only [List.mem_cons, List.not_mem_nil, or_false] at hs
      rcases hs with rfl | rfl | rfl | rfl <;> exact absurd hsign (by decide)
    simpa [isBarrier, isComma, and_assoc] using hsymbol
  have hoperator : (x.operatorSymbol?.all fun s =>
      Operator.isPrefix s || (Operator.precedence? s).any (100 < ·)) = true := by
    cases ho : x.operatorSymbol? with
    | none => rfl
    | some s =>
      rw [opensOperand, ho] at hx
      have hsign : Operator.isPrefix s = true := hx
      simp [hsign]
  have hlist : Call.isList e = false := by simp [Call.isList, isKind, he.token?]
  simp only [Call.takes, hends, hbarrier, hoperator, Bool.not_false, Bool.and_true, Bool.or_eq_false_iff]
    at h
  simp [Call.takes, hlist, h.1.2, h.2]

/-- Stretches of items are put together to inert ones. -/
inductive Merges : List Expr → List Expr → Prop
  | nil : Merges [] []
  | keep {x : Expr} {items items' : List Expr} (h : Merges items items') :
      Merges (x :: items) (x :: items')
  | merge {x e : Expr} {more rest rest' : List Expr} (hx : x.opensOperand) (he : e.Inert)
      (h : Merges rest rest') : Merges (x :: (more ++ rest)) (e :: rest')

theorem Merges.refl (items : List Expr) : Merges items items := by
  induction items with
  | nil => exact .nil
  | cons x items ih => exact .keep ih

theorem Merges.append_left (front : List Expr) {rest rest' : List Expr} (h : Merges rest rest') :
    Merges (front ++ rest) (front ++ rest') := by
  induction front with
  | nil => exact h
  | cons x front ih => exact .keep ih

/-- Items afterwards are items from before, or inert. -/
theorem Merges.mem {items items' : List Expr} (h : Merges items items') {x : Expr} (hx : x ∈ items') :
    x ∈ items ∨ x.Inert := by
  induction h with
  | nil => cases hx
  | keep _ ih =>
    rcases List.mem_cons.1 hx with rfl | hx
    · exact Or.inl (List.mem_cons_self ..)
    · exact (ih hx).imp_left (List.mem_cons_of_mem _)
  | merge _ he _ ih =>
    rcases List.mem_cons.1 hx with rfl | hx
    · exact Or.inr he
    · exact (ih hx).imp_left fun h => List.mem_cons_of_mem _ (List.mem_append_right _ h)

/-- A word that starts no call starts none afterwards. -/
theorem Merges.step?_eq_none {items items' : List Expr} (h : Merges items items') {x : Expr}
    (hx : Call.step? x items = none) : Call.step? x items' = none := by
  rw [Call.step?_eq_none_iff] at hx ⊢
  refine ⟨fun word hword => ?_, hx.2⟩
  have hnext := hx.1 word hword
  cases h with
  | nil => rfl
  | keep => exact hnext
  | merge hopens he => exact takes_of_inert hopens he hnext

/-- Where no reference starts, none starts afterwards. -/
theorem Merges.reference?_eq_none {items items' : List Expr} (h : Merges items items') {x : Expr}
    (hx : Leaf.reference? x items = none) : Leaf.reference? x items' = none := by
  cases h with
  | nil => exact hx
  | merge _ he => exact Leaf.reference?_inert_cons he x _
  | keep h =>
    cases h with
    | nil => exact hx
    | keep => rwa [Leaf.reference?_cons_cons_congr]
    | merge _ he => exact Leaf.reference?_cons_inert_cons he _ hx

end Expr

/-! ### The rules put items together -/

theorem merges_replaceAll {step : Expr → List Expr → Option (Expr × Nat)} {P : Expr → Prop}
    (hstep : ∀ item rest e n, P item → step item rest = some (e, n) → item.opensOperand ∧ e.Inert)
    {items : List Expr} (hitems : ∀ x ∈ items, P x) : Merges items (replaceAll step items) := by
  revert hitems
  refine replaceAll_induct (P := fun items items' => (∀ x ∈ items, P x) → Merges items items') ?_ ?_ ?_
    items
  · exact fun _ => .nil
  · exact fun item rest _ ih hitems => .keep (ih fun x hx => hitems x (List.mem_cons_of_mem _ hx))
  · intro item rest e n hs ih hitems
    obtain ⟨hopens, he⟩ := hstep item rest e n (hitems item (List.mem_cons_self ..)) hs
    have hdrop := ih fun x hx => hitems x (List.mem_cons_of_mem _ (List.mem_of_mem_drop hx))
    have hmerge : Merges (item :: (rest.take n ++ rest.drop n)) (e :: replaceAll step (rest.drop n)) :=
      .merge hopens he hdrop
    rwa [List.take_append_drop] at hmerge

/-- A reference is inert, and starts at no operator. -/
theorem opensOperand_of_reference? {item e : Expr} {rest : List Expr} {n : Nat}
    (h : Leaf.reference? item rest = some (e, n)) : item.opensOperand ∧ e.Inert := by
  have hitem : item.operatorSymbol? = none := by
    cases ho : item.isOperator with
    | true =>
      rw [reference?_operator ho] at h
      cases h
    | false => cases item <;> simp_all [isOperator, isKind, Expr.token?, operatorSymbol?]
  refine ⟨by simp [opensOperand, hitem], ?_⟩
  rcases Leaf.reference?_cases h with ⟨i, rfl⟩ | ⟨name, rfl⟩ <;> rfl

theorem merges_references (items : List Expr) : Merges items (replaceAll Leaf.reference? items) :=
  merges_replaceAll (P := fun _ => True) (fun _ _ _ _ _ => opensOperand_of_reference?) fun _ _ => trivial

/-- A call is inert, and starts at a word; else parentheses give way to the item they hold. -/
theorem Call.step?_eq_some {item e : Expr} {rest : List Expr} {n : Nat}
    (h : Call.step? item rest = some (e, n)) :
    (item.opensOperand ∧ e.Inert) ∨ Call.grouped? item = some e := by
  unfold Call.step? at h
  split at h
  · rename_i r hr
    cases h
    obtain ⟨word, hword, hcall⟩ := Option.bind_eq_some_iff.1 hr
    refine Or.inl ⟨?_, ?_⟩
    · cases item with
      | group t parts =>
        have hk : t.kind = .word := by
          rw [Call.word?] at hword
          split at hword
          · assumption
          · cases hword
        simp [opensOperand, operatorSymbol?, hk]
      | _ => cases hword
    · rcases Call.ofWord?_cases hcall with ⟨t, items, after, -, -, rfl, -⟩ | ⟨bare, -, -, rfl, -⟩ |
        ⟨-, rfl, -⟩ <;> rfl
  · obtain ⟨inner, hinner, hpair⟩ := Option.map_eq_some_iff.1 h
    cases hpair
    exact Or.inr hinner

/-- No item is in parentheses that only group. -/
def Ungrouped (items : List Expr) : Prop := ∀ x ∈ items, Call.grouped? x = none

theorem Expr.Inert.grouped? {e : Expr} (h : e.Inert) : Call.grouped? e = none :=
  (Call.step?_eq_none_iff.1 (Call.step?_of_inert h [])).2

theorem Expr.Merges.ungrouped {items items' : List Expr} (h : Merges items items')
    (hitems : Ungrouped items) : Ungrouped items' := by
  intro x hx
  rcases h.mem hx with hx | hx
  · exact hitems x hx
  · exact hx.grouped?

theorem opensOperand_of_step? {item e : Expr} {rest : List Expr} {n : Nat}
    (hitem : Call.grouped? item = none) (h : Call.step? item rest = some (e, n)) :
    item.opensOperand ∧ e.Inert := by
  rcases Call.step?_eq_some h with hcall | hgrouped
  · exact hcall
  · rw [hitem] at hgrouped
    cases hgrouped

theorem merges_calls {items : List Expr} (h : Ungrouped items) :
    Merges items (replaceAll Call.step? items) :=
  merges_replaceAll (fun _ _ _ _ => opensOperand_of_step?) h

/-- An operation of several items is inert, and they start as an operand does. -/
theorem inert_of_operationOf {run : List Expr} {e : Expr} (hlength : 2 ≤ run.length)
    (h : OperationOf run e) : e.Inert ∧ ∃ x more, run = x :: more ∧ x.opensOperand := by
  obtain ⟨items, t, hsigned, hspells, -, rfl⟩ := h
  have hcollapses := collapses_iff_signedRun.2 hsigned
  have hinert : t.toExpr.Inert := by
    cases hspells with
    | node => rfl
    | leaf =>
      cases hcollapses with
      | last => simp at hlength
      | sign => rfl
  refine ⟨hinert, ?_⟩
  cases hcollapses with
  | last => simp at hlength
  | operator hx => exact ⟨_, _, rfl, opensOperand_of_isOperand hx⟩
  | sign hp => exact ⟨_, _, rfl, opensOperand_of_isSign hp⟩

theorem merges_resolveRuns (items : List Expr) : Merges items (Operation.resolveRuns items) := by
  have hrun : ∀ run rest rest', Merges rest rest' →
      Merges (run ++ rest) (Operation.resolved run ++ rest') := by
    intro run rest rest' h
    rcases Operation.resolved_cases run with ⟨e, hlength, hop, heq⟩ | ⟨-, heq⟩
    · obtain ⟨he, x, more, rfl, hx⟩ := inert_of_operationOf hlength hop
      rw [heq]
      exact .merge hx he h
    · rw [heq]
      exact h.append_left run
  induction items using Operation.runInduction with
  | run run h =>
    rw [Operation.resolveRuns_run h]
    simpa using hrun run [] [] .nil
  | barrier run b rest h hb ih =>
    rw [Operation.resolveRuns_run_append h hb]
    exact hrun run _ _ (.keep ih)

/-! ### Items at which nothing starts -/

/-- No replacement starts at any of the items. -/
def Idle (step : Expr → List Expr → Option (Expr × Nat)) : List Expr → Prop
  | [] => True
  | item :: rest => step item rest = none ∧ Idle step rest

/-- Items that are put together let nothing start: neither at the item they become, nor in front of it. -/
structure Steady (step : Expr → List Expr → Option (Expr × Nat)) : Prop where
  inert {e : Expr} (he : e.Inert) (rest : List Expr) : step e rest = none
  merges {items items' : List Expr} (h : Merges items items') {x : Expr} (hx : step x items = none) :
    step x items' = none

theorem steady_reference? : Steady Leaf.reference? :=
  ⟨Leaf.reference?_of_inert, Merges.reference?_eq_none⟩

theorem steady_step? : Steady Call.step? := ⟨Call.step?_of_inert, Merges.step?_eq_none⟩

section

variable {step : Expr → List Expr → Option (Expr × Nat)}

theorem replaceItems?_eq_none_iff {items : List Expr} :
    replaceItems? step 0 items = none ↔ Idle step items := by
  induction items with
  | nil => simp [replaceItems?, Idle]
  | cons item rest ih =>
    cases hs : step item rest with
    | none => simp [replaceItems?, Idle, hs, ih]
    | some r => simp [replaceItems?, Idle, hs]

theorem Idle.of_append (front : List Expr) {rest : List Expr} (h : Idle step (front ++ rest)) :
    Idle step rest := by
  induction front with
  | nil => exact h
  | cons x front ih => exact ih h.2

theorem Idle.merges (hstep : Steady step) {items items' : List Expr} (h : Idle step items)
    (hm : Merges items items') : Idle step items' := by
  induction hm with
  | nil => exact h
  | keep hm ih => exact ⟨hstep.merges hm h.1, ih h.2⟩
  | @merge x e more _ _ _ he _ ih => exact ⟨hstep.inert he _, ih (Idle.of_append (x :: more) h)⟩

/-- After all replacements nothing starts any more. -/
theorem idle_replaceAll (hsteady : Steady step) {P : Expr → Prop}
    (hstep : ∀ item rest e n, P item → step item rest = some (e, n) → item.opensOperand ∧ e.Inert)
    {items : List Expr} (hitems : ∀ x ∈ items, P x) : Idle step (replaceAll step items) := by
  revert hitems
  refine replaceAll_induct (P := fun items items' => (∀ x ∈ items, P x) → Idle step items') ?_ ?_ ?_ items
  · exact fun _ => trivial
  · intro item rest hs ih hitems
    have hrest : ∀ x ∈ rest, P x := fun x hx => hitems x (List.mem_cons_of_mem _ hx)
    exact ⟨hsteady.merges (merges_replaceAll hstep hrest) hs, ih hrest⟩
  · intro item rest e n hs ih hitems
    obtain ⟨-, he⟩ := hstep item rest e n (hitems item (List.mem_cons_self ..)) hs
    exact ⟨hsteady.inert he _, ih fun x hx => hitems x (List.mem_cons_of_mem _ (List.mem_of_mem_drop hx))⟩

end

theorem idle_references (items : List Expr) :
    Idle Leaf.reference? (replaceAll Leaf.reference? items) :=
  idle_replaceAll (P := fun _ => True) steady_reference? (fun _ _ _ _ _ => opensOperand_of_reference?)
    fun _ _ => trivial

theorem idle_calls {items : List Expr} (h : Ungrouped items) :
    Idle Call.step? (replaceAll Call.step? items) :=
  idle_replaceAll steady_step? (fun _ _ _ _ => opensOperand_of_step?) h

end TagFormula

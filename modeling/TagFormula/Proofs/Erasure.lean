import TagFormula.Proofs.Relabelling
import TagFormula.Proofs.RoundLimit

/-!
What is erased from an expression, no rule sees. Each rule applies to the erased expression as it does to the
expression, and what it leaves is the same but for erased parts. Main statement: the normal form of an erased
expression is the normal form, up to erasure.
-/

namespace TagFormula

namespace Expr

/-! ### What the rules ask about an item -/

section

variable (e : Expr)

@[simp] theorem token?_erase : e.erase.token? = e.token?.map Token.erase := by cases e <;> rfl

@[simp] theorem isHole_erase : e.erase.isHole = e.isHole := by cases e <;> rfl

theorem erase_eq_hole_iff : e.erase = .hole ↔ e = .hole := by cases e <;> simp

@[simp] theorem isKind_erase (kind : TokenKind) : e.erase.isKind kind = e.isKind kind := by cases e <;> rfl

@[simp] theorem isOperator_erase : e.erase.isOperator = e.isOperator := isKind_erase e _

@[simp] theorem isSymbol_erase (symbol : String) : e.erase.isSymbol symbol = e.isSymbol symbol := by cases e <;> rfl

@[simp] theorem isComma_erase : e.erase.isComma = e.isComma := by simp [isComma]

@[simp] theorem isBarrier_erase : e.erase.isBarrier = e.isBarrier := by simp [isBarrier]

@[simp] theorem isOperand_erase : e.erase.isOperand = e.isOperand := by cases e <;> rfl

@[simp] theorem operatorSymbol?_erase : e.erase.operatorSymbol? = e.operatorSymbol? := by cases e <;> rfl

@[simp] theorem bindsBelowConditional_erase : e.erase.bindsBelowConditional = e.bindsBelowConditional := by
  simp [bindsBelowConditional]

@[simp] theorem isLiteralZero_erase : e.erase.isLiteralZero = e.isLiteralZero := by
  cases e with
  | literal l =>
    cases l with
    | float d => exact Double.isZero_erase d
    | _ => rfl
  | _ => rfl

@[simp] theorem isLiteralOne_erase : e.erase.isLiteralOne = e.isLiteralOne := by
  cases e with
  | literal l =>
    cases l with
    | float d => exact Double.eq_erase d _
    | _ => rfl
  | _ => rfl

end

@[simp] theorem mixesConditional_erase (items : List Expr) :
    mixesConditional (items.map erase) = mixesConditional items := by
  simp [mixesConditional, List.any_map, Function.comp_def]

@[simp] theorem erase_wrap (items : List Expr) : (wrap items).erase = wrap (items.map erase) := by
  rw [wrap, erase_group]
  rfl

theorem erase_collapseOrWrap (items : List Expr) :
    (collapseOrWrap items).erase = collapseOrWrap (items.map erase) := by
  rcases items with - | ⟨x, - | ⟨y, rest⟩⟩
  · exact erase_wrap []
  · rfl
  · exact erase_wrap (x :: y :: rest)

theorem erase_mapChildren {f : Expr → Expr} (hf : ∀ e, (f e.erase).erase = (f e).erase) (e : Expr) :
    (e.erase.mapChildren f).erase = (e.mapChildren f).erase := by
  have hall : ∀ es : List Expr, ((es.map erase).map f).map erase = (es.map f).map erase := by
    intro es
    simp only [List.map_map]
    exact List.map_congr_left fun e _ => hf e
  cases e with
  | literal l => simp only [mapChildren, erase_literal, Literal.erase_erase]
  | call name args => simp only [mapChildren, erase_call, hall]
  | group t parts => simp only [mapChildren, erase_group, Token.erase_erase, hall]
  | regexMatch s p fl neg =>
    by_cases hs : s = .hole
    · rw [hs]
      rfl
    · have hs' : s.erase ≠ .hole := mt (erase_eq_hole_iff s).1 hs
      rw [erase_regexMatch, mapChildren, mapChildren, erase_regexMatch, erase_regexMatch, hf] <;> assumption
  | _ => simp [mapChildren, hf]

end Expr

/-! ### Replacing items -/

/-- A replacement with its expression erased. -/
def eraseStep (r : Expr × Nat) : Expr × Nat := (r.1.erase, r.2)

theorem replaceItems?_erase {step : Expr → List Expr → Option (Expr × Nat)}
    (hstep : ∀ item rest, step item.erase (rest.map Expr.erase) = (step item rest).map eraseStep)
    (covered : Nat) (items : List Expr) :
    replaceItems? step covered (items.map Expr.erase)
      = (replaceItems? step covered items).map (List.map Expr.erase) := by
  induction items generalizing covered with
  | nil => cases covered <;> rfl
  | cons item rest ih =>
    cases covered with
    | succ covered => exact ih covered
    | zero =>
      rw [List.map_cons, replaceItems?, replaceItems?, hstep]
      cases step item rest with
      | none =>
        simp only [Option.map_none, ih, Option.map_map]
        rfl
      | some r =>
        obtain ⟨e, n⟩ := r
        simp only [Option.map_some, eraseStep, ih, List.map_cons]
        cases replaceItems? step n rest <;> simp

/-- A rule that does not see what is erased. -/
def Rule.Blind (rule : Rule) : Prop :=
  ∀ e : Expr, (rule.reduce? e.erase).map Expr.erase = (rule.reduce? e).map Expr.erase

/-- Most rules give the same with the erased parts, as they make no literals. -/
theorem Rule.Blind.of_eq {rule : Rule} (h : ∀ e : Expr, rule.reduce? e.erase = (rule.reduce? e).map Expr.erase) :
    rule.Blind := by
  intro e
  rw [h, Option.map_map]
  simp only [Function.comp_def, Expr.erase_erase]

namespace Leaf

@[simp] theorem isValue_erase (e : Expr) : isValue e.erase = isValue e := by cases e <;> rfl

@[simp] theorem isToken_erase (kind : TokenKind) (content : String) (e : Expr) :
    isToken kind content e.erase = isToken kind content e := by cases e <;> rfl

theorem index?_erase (e : Expr) : index? e.erase = index? e := by
  cases e with
  | group t parts =>
    rcases parts with - | ⟨x, - | ⟨y, rest⟩⟩
    · rfl
    · by_cases hk : t.kind = .subscript
      · have hopener : (opener t.erase != ch '\x7b') = (opener t != ch '\x7b') := by
          rw [Bool.eq_iff_iff, bne_iff_ne, bne_iff_ne, Ne, Token.opener_erase_eq_iff hk (Or.inr rfl)]
        simp only [Expr.erase_group, List.map_cons, List.map_nil, index?, Token.kind_erase, hopener]
        cases x with
        | literal l => cases l <;> rfl
        | unary op y =>
          cases y with
          | literal l => cases l <;> rfl
          | _ => rfl
        | _ => rfl
      · simp [index?, hk]
    · rfl
  | _ => rfl

theorem fieldOfSubscript?_erase (e : Expr) : fieldOfSubscript? e.erase = fieldOfSubscript? e := by
  cases e with
  | group t parts =>
    rcases parts with - | ⟨x, - | ⟨y, rest⟩⟩
    · rfl
    · by_cases hk : t.kind = .subscript
      · have hopener : (opener t.erase != ch '[') = (opener t != ch '[') := by
          rw [Bool.eq_iff_iff, bne_iff_ne, bne_iff_ne, Ne, Token.opener_erase_eq_iff hk (Or.inl rfl)]
        simp only [Expr.erase_group, List.map_cons, List.map_nil, fieldOfSubscript?,
          Token.kind_erase, hopener]
        cases x with
        | literal l => cases l <;> rfl
        | _ => rfl
      · simp [fieldOfSubscript?, hk]
    · rfl
  | _ => rfl

theorem reference?_erase (item : Expr) (rest : List Expr) :
    reference? item.erase (rest.map Expr.erase) = (reference? item rest).map eraseStep := by
  rcases rest with - | ⟨next, after⟩
  · rfl
  · have hhead : (after.map Expr.erase).head?.bind fieldOfSubscript? = after.head?.bind fieldOfSubscript? := by
      cases after <;> simp [fieldOfSubscript?_erase]
    simp only [List.map_cons, reference?, isValue_erase, isToken_erase, Expr.isSymbol_erase, index?_erase,
      fieldOfSubscript?_erase, hhead]
    split
    · simp [eraseStep, Function.comp_def]
    · split
      · simp [eraseStep, Function.comp_def]
      · split
        · simp [eraseStep, Function.comp_def]
        · rfl

end Leaf

namespace Rule

theorem blind_leaf : leaf.Blind := by
  intro e
  cases e with
  | group t parts =>
    have hkind := t.kind_erase
    simp only [Expr.erase_group]
    cases hk : t.kind with
    | number => rw [leaf_number (hkind.trans hk), leaf_number hk, Token.content_erase]
    | quote => rw [leaf_quote (hkind.trans hk), leaf_quote hk, Token.quotedText?_erase hk]
    | symbol => rw [leaf_symbol (hkind.trans hk), leaf_symbol hk, Token.content_erase]
    | regexp => simp only [leaf, Leaf.reduce?, hkind, hk, Token.content_erase]
    | _ =>
      simp only [leaf, Leaf.reduce?, hkind, hk, replaceItems?_erase Leaf.reference?_erase]
      cases replaceItems? Leaf.reference? 0 parts <;> simp [Token.erase_erase]
  | literal l => rfl
  | _ => rfl

end Rule

/-! ### Calls -/

namespace Call

section

variable (e : Expr)

@[simp] theorem word?_erase : word? e.erase = word? e := by cases e <;> rfl

@[simp] theorem isList_erase : isList e.erase = isList e := e.isKind_erase _

@[simp] theorem endsArguments_erase : endsArguments e.erase = endsArguments e := by simp [endsArguments]

end

@[simp] theorem isBareListOperator_erase (item : Expr) (rest : List Expr) :
    isBareListOperator item.erase (rest.map Expr.erase) = isBareListOperator item rest := by
  cases rest <;> simp [isBareListOperator]

theorem flush_erase (current args : List Expr) :
    flush (current.map Expr.erase) (args.map Expr.erase) = (flush current args).map Expr.erase := by
  unfold flush
  rw [List.isEmpty_map]
  split
  · rfl
  · rw [List.map_cons, Expr.erase_collapseOrWrap, List.map_reverse]

theorem arguments_erase (items : List Expr) :
    arguments (items.map Expr.erase) = (arguments items).map Expr.erase := by
  have hgo : ∀ current, arguments.go (current.map Expr.erase) (items.map Expr.erase)
      = (arguments.go current items).map Expr.erase := by
    induction items with
    | nil => exact fun current => flush_erase current []
    | cons item rest ih =>
      intro current
      simp only [List.map_cons, arguments.go, Expr.isComma_erase, isBareListOperator_erase, List.isEmpty_map]
      split
      · rw [← flush_erase, ← ih []]
        rfl
      · split
        · rw [List.map_singleton, Expr.erase_collapseOrWrap, List.map_cons]
        · exact ih (item :: current)
  exact hgo []

theorem listItems_erase (items : List Expr) :
    listItems (items.map Expr.erase) = (listItems items).map Expr.erase := by
  rcases items with - | ⟨x, - | ⟨y, rest⟩⟩
  · rfl
  · cases x with
    | group t parts =>
      simp only [List.map_cons, List.map_nil, Expr.erase_group, listItems, Token.kind_erase,
        apply_ite (List.map Expr.erase)]
    | _ => rfl
  · cases x <;> rfl

theorem unaryOperand_erase (items : List Expr) :
    unaryOperand (items.map Expr.erase) = (unaryOperand items).map Expr.erase := by
  have hgo : ∀ ready, unaryOperand.go ready (items.map Expr.erase)
      = (unaryOperand.go ready items).map Expr.erase := by
    induction items with
    | nil => exact fun _ => rfl
    | cons item rest ih =>
      intro ready
      simp only [List.map_cons, unaryOperand.go, Expr.isBarrier_erase, Expr.operatorSymbol?_erase, ih]
      split
      · rfl
      · split
        · rfl
        · split <;> rfl
  exact hgo true

theorem ofWord?_erase (word : Text) (rest : List Expr) :
    ofWord? word (rest.map Expr.erase) = (ofWord? word rest).map eraseStep := by
  have htakeWhile : (rest.map Expr.erase).takeWhile (fun e => !endsArguments e)
      = (rest.takeWhile fun e => !endsArguments e).map Expr.erase := by
    rw [List.takeWhile_map]
    simp only [Function.comp_def, endsArguments_erase]
  cases hlist : rest.head?.any isList with
  | true =>
    rcases rest with - | ⟨next, after⟩
    · cases hlist
    · cases next with
      | group t items =>
        have hk : t.kind = .list := by simpa [isList, Expr.isKind, Expr.token?] using hlist
        simp [ofWord?, hk, eraseStep, listItems_erase, arguments_erase]
      | _ => cases hlist
  | false =>
    have hlist' : (rest.map Expr.erase).head?.any isList = false := by
      rw [← hlist]
      cases rest <;> simp
    rw [ofWord?_of_not_list hlist, ofWord?_of_not_list hlist', htakeWhile, unaryOperand_erase]
    simp only [List.isEmpty_map, List.length_map, arguments_erase, ← Expr.erase_collapseOrWrap,
      apply_ite (Option.map eraseStep), Option.map_some, Option.map_none, eraseStep, Expr.erase_call,
      List.map_cons, List.map_nil]

theorem grouped?_erase (e : Expr) : grouped? e.erase = (grouped? e).map Expr.erase := by
  cases e with
  | group t parts =>
    rcases parts with - | ⟨x, - | ⟨y, rest⟩⟩
    · rfl
    · simp only [Expr.erase_group, List.map_cons, List.map_nil, grouped?, Token.kind_erase,
        Expr.isComma_erase]
      by_cases hlist : (decide (t.kind = .list) && !x.isComma) = true
      · rw [if_pos hlist, if_pos hlist]
        cases x with
        | group u items =>
          simp only [Expr.erase_group, Token.kind_erase, List.any_map, Function.comp_def,
            Expr.isComma_erase, apply_ite (Option.map Expr.erase), Option.map_none, Option.map_some]
        | _ => rfl
      · rw [if_neg hlist, if_neg hlist]
        rfl
    · rfl
  | _ => rfl

theorem step?_erase (item : Expr) (rest : List Expr) :
    step? item.erase (rest.map Expr.erase) = (step? item rest).map eraseStep := by
  rw [step?, step?, word?_erase, grouped?_erase]
  cases word? item with
  | none => cases grouped? item <;> rfl
  | some word =>
    simp only [Option.bind_some, ofWord?_erase]
    cases ofWord? word rest with
    | none => cases grouped? item <;> rfl
    | some r => rfl

end Call

theorem Rule.blind_call : call.Blind := by
  refine .of_eq fun e => ?_
  cases e with
  | group t parts =>
    simp only [Expr.erase_group, call, Call.reduce?, replaceItems?_erase Call.step?_erase]
    cases replaceItems? Call.step? 0 parts <;> simp
  | _ => rfl

/-! ### Operations -/

namespace OperatorTree

/-- A tree with its operands erased. -/
def erase : OperatorTree → OperatorTree
  | .leaf e => .leaf e.erase
  | .node op l r => .node op (erase l) (erase r)

theorem erase_push (op : Operator) (x : Expr) (t : OperatorTree) :
    (push op x t).erase = push op x.erase t.erase := by
  induction t with
  | leaf e => rfl
  | node p l r _ ih =>
    simp only [push, erase]
    split
    · rw [erase, ih]
    · rfl

theorem toExpr_erase (t : OperatorTree) : t.erase.toExpr = t.toExpr.erase := by
  induction t with
  | leaf e => rfl
  | node op l r ihl ihr => rw [erase, toExpr, ihl, ihr, toExpr, Expr.erase_binary]

end OperatorTree

namespace Chain

/-- A chain with its operands erased. -/
def erase (c : Chain) : Chain := ⟨c.first.erase, c.rest.map fun link => (link.1, link.2.erase)⟩

theorem ofChain_erase (c : Chain) : OperatorTree.ofChain c.erase = (OperatorTree.ofChain c).erase := by
  obtain ⟨first, rest⟩ := c
  have hfold : ∀ t : OperatorTree,
      (rest.map fun link => (link.1, link.2.erase)).foldl (fun t link => OperatorTree.push link.1 link.2 t) t.erase
        = (rest.foldl (fun t link => OperatorTree.push link.1 link.2 t) t).erase := by
    induction rest with
    | nil => exact fun _ => rfl
    | cons link rest ih =>
      intro t
      rw [List.map_cons, List.foldl_cons, List.foldl_cons, ← OperatorTree.erase_push, ih]
  exact hfold (.leaf first)

theorem operand?_erase (e : Expr) : operand? e.erase = (operand? e).map Expr.erase := by
  simp only [operand?, Expr.isOperand_erase, apply_ite (Option.map Expr.erase), Option.map_some, Option.map_none]

theorem binaryOperator?_erase (e : Expr) : e.erase.binaryOperator? = e.binaryOperator? := by
  simp only [Expr.binaryOperator?, Expr.operatorSymbol?_erase]

theorem pairs?_erase (items : List Expr) : pairs? (items.map Expr.erase)
    = (pairs? items).map (List.map fun link => (link.1, link.2.erase)) := by
  fun_induction pairs? items with
  | case1 => rfl
  | case2 => rfl
  | case3 o e rest ih =>
    simp only [List.map_cons, pairs?, binaryOperator?_erase, operand?_erase, ih]
    cases o.binaryOperator? <;> cases operand? e <;> cases pairs? rest <;> rfl

theorem ofItems?_erase (items : List Expr) : ofItems? (items.map Expr.erase) = (ofItems? items).map erase := by
  cases items with
  | nil => rfl
  | cons e rest =>
    simp only [List.map_cons, ofItems?, operand?_erase, pairs?_erase]
    cases operand? e <;> cases pairs? rest <;> rfl

end Chain

theorem Expr.ofRun?_erase (items : List Expr) : ofRun? (items.map erase) = (ofRun? items).map erase := by
  rw [ofRun?_eq_map_ofChain, ofRun?_eq_map_ofChain, Chain.ofItems?_erase]
  cases Chain.ofItems? items with
  | none => rfl
  | some c =>
    simp only [Option.map_some, Chain.ofChain_erase, OperatorTree.toExpr_erase]

namespace Operation

theorem applyPrefixes_erase (ready : Bool) (items : List Expr) :
    applyPrefixes ready (items.map Expr.erase) = (applyPrefixes ready items).map Expr.erase := by
  have hpower : ∀ rest : List Expr, (rest.map Expr.erase).head?.any (·.isSymbol "**")
      = rest.head?.any (·.isSymbol "**") := by
    intro rest
    cases rest <;> simp
  have hprefix : ∀ e : Expr, prefixSymbol? e.erase = prefixSymbol? e := by
    intro e
    rw [prefixSymbol?, prefixSymbol?, Expr.operatorSymbol?_erase]
  fun_induction applyPrefixes ready items with
  | case1 ready p x rest symbol hsymbol h ih =>
    simp only [List.map_cons, applyPrefixes, hprefix, hsymbol, Expr.isOperand_erase, hpower, if_pos h, ih,
      Expr.erase_unary]
  | case2 ready p x rest symbol hsymbol h ih =>
    simp only [List.map_cons] at ih
    simp only [List.map_cons, applyPrefixes, hprefix, hsymbol, Expr.isOperand_erase, hpower, if_neg h, ih,
      Expr.isOperator_erase]
  | case3 ready p x rest hsymbol ih =>
    simp only [List.map_cons] at ih
    simp only [List.map_cons, applyPrefixes, hprefix, hsymbol, ih, Expr.isOperator_erase]
  | case4 ready items h =>
    rcases items with - | ⟨x, - | ⟨y, rest⟩⟩
    · rfl
    · rfl
    · exact absurd rfl (h x y rest)

theorem collapsePrefixes_erase (items : List Expr) :
    collapsePrefixes (items.map Expr.erase) = (collapsePrefixes items).map Expr.erase := by
  fun_induction collapsePrefixes items with
  | case1 items next h ih =>
    rw [collapsePrefixes, applyPrefixes_erase, List.length_map, List.length_map, if_pos h, ih]
  | case2 items next h =>
    rw [collapsePrefixes, applyPrefixes_erase, List.length_map, List.length_map, if_neg h]

theorem resolve?_erase (run : List Expr) : resolve? (run.map Expr.erase) = (resolve? run).map Expr.erase := by
  rw [resolve?, resolve?, collapsePrefixes_erase, List.length_map]
  split
  · rfl
  · rcases collapsePrefixes run with - | ⟨x, - | ⟨y, rest⟩⟩
    · exact Expr.ofRun?_erase []
    · rfl
    · exact Expr.ofRun?_erase (x :: y :: rest)

theorem resolved_erase (run : List Expr) : resolved (run.map Expr.erase) = (resolved run).map Expr.erase := by
  rw [resolved, resolved, resolve?_erase]
  cases resolve? run <;> rfl

end Operation

theorem Rule.blind_operation : operation.Blind := by
  refine .of_eq fun e => ?_
  cases e with
  | group t parts =>
    simp only [Expr.erase_group, operation, Operation.reduce?, Operation.splitAtBarriers_map Expr.isBarrier_erase,
      List.length_map, Expr.mixesConditional_erase, apply_ite (Option.map Expr.erase), Option.map_none,
      Option.map_some, List.map_append, Operation.resolved_erase]
    obtain ⟨first, more⟩ := Operation.splitAtBarriers parts
    have hany : (first.map Expr.erase :: (more.map fun b => (b.1.erase, b.2.map Expr.erase)).map (·.2)).any
        (fun run => (Operation.resolve? run).isSome)
          = (first :: more.map (·.2)).any fun run => (Operation.resolve? run).isSome := by
      simp [Operation.resolve?_erase, List.any_map, Function.comp_def]
    have hmore : (more.map fun b => (b.1.erase, b.2.map Expr.erase)).flatMap
        (fun b => b.1 :: Operation.resolved b.2)
          = (more.flatMap fun b => b.1 :: Operation.resolved b.2).map Expr.erase := by
      simp [List.flatMap_map, List.map_flatMap, Operation.resolved_erase]
    rw [hany, hmore]
  | _ => rfl

/-! ### Conditionals and single shapes -/

theorem Rule.blind_conditional : conditional.Blind := by
  refine .of_eq fun e => ?_
  cases e with
  | group t parts =>
    have hcomma : (parts.map Expr.erase).any Expr.isComma = parts.any Expr.isComma := by
      simp [List.any_map, Function.comp_def]
    simp only [Expr.erase_group, conditional, Conditional.reduce?, Expr.mixesConditional_erase, hcomma,
      apply_ite (Option.map Expr.erase), Option.map_none, Conditional.parts?_map Expr.isSymbol_erase]
    cases Conditional.parts? parts with
    | none => rfl
    | some r => simp [Expr.erase_collapseOrWrap]
  | _ => rfl

namespace Rule

theorem blind_bindMatch : bindMatch.Blind := by
  refine .of_eq fun e => ?_
  cases e with
  | binary op l r =>
    cases r with
    | regexMatch s p fl neg =>
      cases s with
      | hole =>
        simp only [Expr.erase_binary, Expr.erase_regexMatch, Expr.erase_hole, bindMatch, Shape.bindMatch,
          apply_ite (Option.map Expr.erase), Option.map_some, Option.map_none]
      | _ => rfl
    | _ => rfl
  | _ => rfl

theorem blind_repetition : repetition.Blind := by
  refine .of_eq fun e => ?_
  cases e with
  | binary op l r =>
    simp only [Expr.erase_binary, Expr.erase_repeated, repetition, Shape.repetition,
      apply_ite (Option.map Expr.erase), Option.map_some, Option.map_none]
  | _ => rfl

theorem blind_guardedDivision : guardedDivision.Blind := by
  refine .of_eq fun e => ?_
  cases e with
  | conditional guard yes no =>
    cases yes with
    | binary op n d =>
      simp only [Expr.erase_conditional, Expr.erase_binary, Expr.erase_call, guardedDivision,
        Shape.guardedDivision, Expr.isLiteralZero_erase, Expr.isLiteralOne_erase, Expr.same_erase,
        apply_ite (Option.map Expr.erase), Option.map_some, Option.map_none, List.map_cons, List.map_nil]
    | _ => rfl
  | _ => rfl

theorem blind_collapse : collapse.Blind := by
  refine .of_eq fun e => ?_
  cases e with
  | group t parts =>
    rcases parts with - | ⟨x, - | ⟨y, rest⟩⟩
    · rfl
    · simp only [Expr.erase_group, List.map_cons, List.map_nil, collapse, Shape.collapse,
        Token.kind_erase, Expr.isHole_erase, apply_ite (Option.map Expr.erase), Option.map_some, Option.map_none]
    · rfl
  | _ => rfl

theorem blind_of_mem_standard {rule : Rule} (h : rule ∈ standard) : rule.Blind := by
  simp only [standard, List.mem_cons, List.not_mem_nil, or_false] at h
  rcases h with rfl | rfl | rfl | rfl | rfl | rfl | rfl | rfl
  · exact blind_leaf
  · exact blind_call
  · exact blind_operation
  · exact blind_bindMatch
  · exact blind_conditional
  · exact blind_repetition
  · exact blind_guardedDivision
  · exact blind_collapse

/-! ### Normal forms -/

theorem Blind.map_erase_eq {rule : Rule} (hrule : rule.Blind) {a b : Expr} (h : a.erase = b.erase) :
    (rule.reduce? a).map Expr.erase = (rule.reduce? b).map Expr.erase := by
  rw [← hrule a, h, hrule b]

variable {rules : List Rule}

theorem round?_erase (hrules : ∀ rule ∈ rules, rule.Blind) {a b : Expr} (h : a.erase = b.erase) :
    (round? rules a).map Expr.erase = (round? rules b).map Expr.erase := by
  induction rules generalizing a b with
  | nil => rfl
  | cons rule rest ih =>
    have hrest : ∀ {a b : Expr}, a.erase = b.erase → (round? rest a).map Expr.erase = (round? rest b).map Expr.erase :=
      ih fun r hr => hrules r (List.mem_cons_of_mem _ hr)
    have hstep := (hrules rule (List.mem_cons_self ..)).map_erase_eq h
    rw [round?, round?]
    cases ha : rule.reduce? a with
    | none =>
      cases hb : rule.reduce? b with
      | none => exact hrest h
      | some y => simp [ha, hb] at hstep
    | some x =>
      cases hb : rule.reduce? b with
      | none => simp [ha, hb] at hstep
      | some y =>
        have hxy : x.erase = y.erase := by simpa [ha, hb] using hstep
        have hnext := hrest hxy
        cases hx : round? rest x <;> cases hy : round? rest y <;> simp_all

theorem settle_erase (hrules : ∀ rule ∈ rules, rule.Blind) {below : Expr → Expr}
    (hbelow : ∀ e, (below e.erase).erase = (below e).erase) (n : Nat) {a b : Expr} (h : a.erase = b.erase) :
    (settle below rules n a).erase = (settle below rules n b).erase := by
  induction n generalizing a b with
  | zero => exact h
  | succ n ih =>
    have hround := round?_erase hrules h
    rw [settle, settle]
    cases ha : round? rules a with
    | none =>
      cases hb : round? rules b with
      | none => exact h
      | some y => simp [ha, hb] at hround
    | some x =>
      cases hb : round? rules b with
      | none => simp [ha, hb] at hround
      | some y =>
        have hxy : x.erase = y.erase := by simpa [ha, hb] using hround
        refine ih ?_
        rw [← Expr.erase_mapChildren hbelow x, hxy, Expr.erase_mapChildren hbelow y]

theorem normalizeWithin_erase (hrules : ∀ rule ∈ rules, rule.Blind) (levels : Nat) (e : Expr) :
    (normalizeWithin rules levels e.erase).erase = (normalizeWithin rules levels e).erase := by
  induction levels generalizing e with
  | zero => exact e.erase_erase
  | succ levels ih =>
    by_cases he : e = .hole
    · rw [he]
      rfl
    · rw [normalizeWithin_succ levels he, normalizeWithin_succ levels (mt (Expr.erase_eq_hole_iff e).1 he)]
      exact settle_erase hrules ih maxRounds (Expr.erase_mapChildren ih e)

end Rule
end TagFormula

import TagFormula.Proofs.ArgumentLists

/-!
List operators with and without parentheses around their arguments. Without parentheses the items are split
at their commas first, and calls and operations are found in each argument; in parentheses they are found
in all items first. Main statement: where calls keep to their arguments, both give the same call.
-/

namespace TagFormula

open Expr Rule

/-! ### The items of a group -/

/-- The items of a group in normal form, with references in place of their tokens. -/
def Rule.referenced (items : List Expr) : List Expr := replaceAll Leaf.reference? (items.map normalForm)

theorem settled_references {items : List Expr} (h : ∀ x ∈ items, Settled standard x) :
    ∀ x ∈ replaceAll Leaf.reference? items, Settled standard x := by
  revert h
  refine replaceAll_induct (P := fun items items' => (∀ x ∈ items, Settled standard x) →
    ∀ x ∈ items', Settled standard x) ?_ ?_ ?_ items
  · exact fun h => h
  · intro item rest _ ih h x hx
    rcases List.mem_cons.1 hx with rfl | hx
    · exact h x (by simp)
    · exact ih (fun y hy => h y (by simp [hy])) x hx
  · intro item rest e n hs ih h x hx
    rcases List.mem_cons.1 hx with rfl | hx
    · rcases Leaf.reference?_cases hs with ⟨i, rfl⟩ | ⟨name, rfl⟩
      · exact .node (declined_of_children_eq_nil rfl rfl) (by simp [children])
      · exact .node (declined_of_children_eq_nil rfl rfl) (by simp [children])
    · exact ih (fun y hy => h y (List.mem_cons_of_mem _ (List.mem_of_mem_drop hy))) x hx

namespace Rule

theorem settled_referenced (items : List Expr) : ∀ x ∈ referenced items, Settled standard x :=
  settled_references (settled_map_normalForm items)

theorem referenced_ne_nil {items : List Expr} (h : items ≠ []) : referenced items ≠ [] :=
  replaceAll_ne_nil (by simpa using h)

theorem normalForm_referenced {t : Token} (ht : t.kind.isContainer) (items : List Expr) :
    normalForm (.group t items)
      = normalForm (finished t (operated (replaceAll Call.step? (referenced items)))) := by
  rw [← normalForm_mapChildren, mapChildren_group, normalForm_container ht (settled_map_normalForm items)]
  rfl

theorem merges_operated (items : List Expr) : Merges items (operated items) := by
  unfold operated
  split
  · exact .refl items
  · exact merges_resolveRuns items

theorem operated_operated (items : List Expr) : operated (operated items) = operated items := by
  unfold operated
  split
  · rfl
  · exact operated_resolveRuns items

/-- No operation is left. -/
theorem operation_operated (t : Token) (items : List Expr) :
    operation.reduce? (.group t (operated items)) = none := by
  rw [operation_eq_none_iff, operated]
  split
  · rename_i hmixes
    exact Or.inr (Or.inl hmixes)
  · exact Or.inr (Or.inr Operation.resolve?_of_mem_runs)

end Rule

theorem Expr.Inert.normalForm {x : Expr} (h : x.Inert) : (normalForm x).Inert := by
  rw [Inert, Ready.face_normalForm (Or.inr h)]
  exact h

theorem ungrouped_calls {items : List Expr} (h : ∀ x ∈ items, Settled standard x) :
    Ungrouped (replaceAll Call.step? items) := by
  intro x hx
  rcases mem_calls hx with ⟨-, hgrouped⟩ | hx | ⟨y, hy, hgrouped⟩
  · exact hgrouped
  · exact hx.grouped?
  · exact ((h y hy).of_grouped? hgrouped).2

namespace Call

/-! ### Arguments in parentheses -/

theorem grouped?_of_not_list {t : Token} (ht : t.kind ≠ .list) (parts : List Expr) :
    grouped? (.group t parts) = none := by
  by_contra hsome
  obtain ⟨inner, hinner⟩ := Option.ne_none_iff_exists'.1 hsome
  obtain ⟨u, hu, heq⟩ := grouped?_eq_some hinner
  obtain ⟨rfl, -⟩ := Expr.group.inj heq
  exact ht hu

theorem ungrouped_flush {current args : List Expr} (hcurrent : Ungrouped current) (hargs : Ungrouped args) :
    Ungrouped (flush current args) := by
  have hwrap : ∀ items, Ungrouped items → grouped? (collapseOrWrap items) = none := by
    intro items h
    unfold collapseOrWrap
    split
    · exact h _ (by simp)
    · exact grouped?_of_not_list (by simp) _
  unfold flush
  split
  · exact hargs
  · exact List.forall_mem_cons.2 ⟨hwrap _ fun x hx => hcurrent x (by simpa using hx), hargs⟩

/-- If no item stands in parentheses, no argument does. -/
theorem ungrouped_arguments {items : List Expr} (h : Ungrouped items) : Ungrouped (arguments items) := by
  have hnil : Ungrouped [] := fun x hx => by cases hx
  induction items using argumentInduction with
  | last items hitems =>
    rw [arguments_of_isArgument hitems]
    exact ungrouped_flush (fun x hx => h x (by simpa using hx)) hnil
  | next items c rest hcomma hleads hc ih =>
    rw [arguments_append hcomma hleads hc]
    exact ungrouped_flush (fun x hx => h x (by simp_all)) (ih fun x hx => h x (by simp [hx]))

/-- Arguments of a list operator that may be put into parentheses. -/
structure Enclosable (items : List Expr) : Prop where
  /-- No parentheses stand first. -/
  head : items.head?.any isList = false
  /-- No operator ends the arguments. -/
  ends : ∀ x ∈ items, endsArguments x = false
  /-- No call takes in a comma, unless its word starts an argument. -/
  commas : commasKept false 0 items
  /-- No argument has parentheses of its own around it. -/
  lone : Ungrouped (arguments items)
  /-- The items are not one group alone, which parentheses would be seen through to. -/
  whole : listItems items = items
  /-- What stood in parentheses starts no reference and no call with the items behind it. -/
  quiet : Quiet (replaceAll step? items)

/-- Where no parentheses give way to what they hold, only the commas matter. -/
theorem Enclosable.of_ungrouped {items : List Expr} (h : Ungrouped items) (hbefore : Idle Leaf.reference? items)
    (hhead : items.head?.any isList = false) (hends : ∀ x ∈ items, endsArguments x = false)
    (hcommas : commasKept false 0 items) (hwhole : listItems items = items) : Enclosable items where
  head := hhead
  ends := hends
  commas := hcommas
  lone := ungrouped_arguments h
  whole := hwhole
  quiet := by
    have hmerges := merges_calls h
    exact ⟨hbefore.merges steady_reference? hmerges, idle_calls h,
      fun x hx => (hmerges.mem hx).elim (hends x) Inert.endsArguments⟩

/-- Calls and operations may be found before the items are split. -/
theorem Enclosable.argumentForms_operated {items : List Expr} (h : Enclosable items)
    (hsettled : ∀ x ∈ items, Settled standard x) (hbefore : Idle Leaf.reference? items) :
    argumentForms (operated (replaceAll step? items)) = argumentForms items := by
  have hcalls := argumentForms_calls hsettled hbefore h.ends h.lone h.commas h.quiet
  unfold operated
  split
  · exact hcalls
  · rename_i hmixes
    rw [argumentForms_resolveRuns (ready_calls hsettled) h.quiet (Bool.not_eq_true _ ▸ hmixes), hcalls]

theorem listItems_of_inert {x : Expr} (h : x.Inert) : listItems [x] = [x] := by
  cases x with
  | group t parts => cases h
  | _ => rfl

/-- A single item behind the operator has no parentheses around it. -/
theorem Enclosable.calls_single {y : Expr} (h : Enclosable [y]) : replaceAll step? [y] = [y] := by
  have hgrouped : grouped? y = none := by
    by_contra hsome
    obtain ⟨inner, hinner⟩ := Option.ne_none_iff_exists'.1 hsome
    obtain ⟨t, ht, rfl⟩ := grouped?_eq_some hinner
    have hargument : IsArgument [group t [inner]] := Or.inr (by simp [isComma, isSymbol, token?, ht])
    exact hsome (h.lone _ (by simp [arguments_of_isArgument hargument, flush, collapseOrWrap]))
  exact replaceAll_of_idle ⟨step?_eq_none_iff.2 ⟨fun _ _ => rfl, hgrouped⟩, trivial⟩

/-- If one item is left in parentheses, it is no group that would be seen through. -/
theorem Enclosable.listItems_single {items : List Expr} (h : Enclosable items)
    (hsettled : ∀ x ∈ items, Settled standard x) {x : Expr}
    (hx : operated (replaceAll step? items) = [x]) : listItems [normalForm x] = [normalForm x] := by
  have hmerges := merges_operated (replaceAll step? items)
  rw [hx] at hmerges
  generalize hcalls : replaceAll step? items = calls at hmerges
  cases hmerges with
  | merge _ hinert => exact listItems_of_inert hinert.normalForm
  | keep hnil =>
    cases hnil
    by_cases hlength : 2 ≤ items.length
    · exact listItems_of_inert (inert_of_calls_eq_single hlength hcalls).normalForm
    · cases items with
      | nil => cases hcalls
      | cons y rest =>
        obtain rfl : rest = [] := by simpa using hlength
        rw [h.calls_single] at hcalls
        obtain rfl := (List.cons.inj hcalls).1
        rw [normalForm_of_settled (hsettled y (by simp)), h.whole]

/-- Items in which references, calls and operations have been found. -/
structure Reduced (items : List Expr) : Prop where
  ready : ∀ x ∈ items, Ready x
  ungrouped : Ungrouped items
  quiet : Quiet items
  operated : operated items = items

theorem Enclosable.reduced {items : List Expr} (h : Enclosable items)
    (hsettled : ∀ x ∈ items, Settled standard x) : Reduced (operated (replaceAll step? items)) :=
  have hmerges := merges_operated (replaceAll step? items)
  { ready := fun x hx => (hmerges.mem hx).elim (ready_calls hsettled x) Or.inr
    ungrouped := hmerges.ungrouped (ungrouped_calls hsettled)
    quiet := h.quiet.merges hmerges
    operated := operated_operated _ }

/-- A group of such items stays as it is, if it becomes no conditional and is no single item. -/
theorem Reduced.normalForm_group {items : List Expr} (h : Reduced items) {t : Token} (ht : t.kind = .expression)
    (hconditional : conditional.reduce? (.group t items) = none)
    (hcollapse : collapse.reduce? (.group t items) = none) :
    normalForm (.group t items) = .group t (items.map normalForm) := by
  have hleaf : leaf.reduce? (.group t items) = none := by
    have hnil : leaf.reduce? (.group t []) = none := by simp [leaf, Leaf.reduce?, ht, replaceItems?]
    exact leaf_of_idle hnil fun _ => h.quiet.reference
  have hoperation : operation.reduce? (.group t items) = none := by
    rw [← h.operated]
    exact operation_operated t items
  have hdeclined := declined_group (by simpa using ⟨hleaf, call_eq_none_iff.2 h.quiet.step, hoperation⟩)
    hconditional hcollapse
  have hfaces := (agreeAll_map_normalForm h.ready).map_face
  rw [← normalForm_mapChildren, mapChildren_group]
  exact normalForm_of_settled (.node (declined_of_faces hfaces hdeclined) (settled_map_normalForm items))

/-- Items that become a conditional are a single argument. -/
theorem Reduced.argumentForms_conditional {items test yes no : List Expr} (h : Reduced items)
    (hcomma : items.any isComma = false) (hmixes : mixesConditional items = false)
    (hparts : Conditional.parts? items = some (test, yes, no)) : argumentForms items
      = [normalForm (.conditional (collapseOrWrap test) (collapseOrWrap yes) (collapseOrWrap no))] := by
  have hne : items ≠ [] := by
    rintro rfl
    cases hparts
  have hsingle : ∀ x, items = [x] → x.isHole = false := by
    rintro x rfl
    rw [parts?_single] at hparts
    cases hparts
  rw [argumentForms_of_isArgument (Or.inr (by simpa using hcomma)) hne,
    normalForm_collapseOrWrap_of_idle h.ready h.quiet.reference h.quiet.step hne hsingle, h.operated,
    finished_conditional rfl hcomma hmixes hparts]

/-- What becomes of a group of such items has no parentheses around it, and holds the same arguments. -/
theorem Reduced.argumentForms_finished {items : List Expr} (h : Reduced items) {t : Token}
    (ht : t.kind = .expression)
    (hsingle : ∀ x, items = [x] → listItems [normalForm x] = [normalForm x]) :
    grouped? (normalForm (finished t items)) = none ∧
      argumentForms (listItems [normalForm (finished t items)]) = argumentForms items := by
  have hwrapper : t.kind.isWrapper := by rw [ht]; rfl
  rcases finished_cases (t := t) items with ⟨test, yes, no, hcomma, hmixes, hparts⟩ |
    ⟨hconditional, ⟨x, rfl, hx⟩ | ⟨hcollapse, hgroup⟩⟩
  · rw [finished_conditional hwrapper hcomma hmixes hparts,
      h.argumentForms_conditional hcomma hmixes hparts]
    have hinert : (normalForm (.conditional (collapseOrWrap test) (collapseOrWrap yes)
        (collapseOrWrap no))).Inert := Inert.normalForm rfl
    refine ⟨hinert.grouped?, ?_⟩
    rw [listItems_of_inert hinert, argumentForms_of_isArgument (Or.inr (by simp [isComma_of_inert hinert]))
      (by simp), collapseOrWrap, normalForm_normalForm]
  · have hface : (normalForm x).face = x.face := (h.ready x (by simp)).face_normalForm
    rw [finished_single hwrapper hx, hsingle x rfl]
    refine ⟨?_, argumentForms_map_normalForm h.ready⟩
    rw [← grouped?_face, hface, grouped?_face]
    exact h.ungrouped x (by simp)
  · rw [hgroup, h.normalForm_group ht hconditional hcollapse]
    refine ⟨grouped?_of_not_list (by simp [ht]) _, ?_⟩
    simp only [listItems, ht]
    exact argumentForms_map_normalForm h.ready

/-- The arguments in a group of the items, as the group stands in parentheses, are those of the items. -/
theorem Enclosable.argumentForms_expression {t : Token} (ht : t.kind = .expression) {items : List Expr}
    (h : Enclosable (referenced items)) :
    grouped? (normalForm (.group t items)) = none ∧
      argumentForms (listItems [normalForm (.group t items)]) = argumentForms (referenced items) := by
  have hsettled := settled_referenced items
  have hwrapper : t.kind.isWrapper := by rw [ht]; rfl
  rw [normalForm_referenced (TokenKind.isContainer_of_isWrapper hwrapper),
    ← h.argumentForms_operated hsettled (idle_references _)]
  exact (h.reduced hsettled).argumentForms_finished ht fun _ hx => h.listItems_single hsettled hx

end Call

/-! ### Calls as statements -/

namespace Rule

theorem normalForm_call (name : Text) (args : List Expr) :
    normalForm (.call name args) = .call name (args.map normalForm) := by
  rw [← normalForm_mapChildren]
  refine normalForm_of_settled (.node (declined_of_token?_eq_none rfl rfl rfl rfl) ?_)
  exact settled_map_normalForm args

/-- A wrapper around a single item that is no call. -/
theorem normalForm_lone {t : Token} (ht : t.kind.isWrapper) {e : Expr} (hhole : (normalForm e).isHole = false)
    (hstep : Call.step? (normalForm e) [] = none) : normalForm (.group t [e]) = normalForm e := by
  have hreferences : replaceAll Leaf.reference? [normalForm e] = [normalForm e] := replaceAll_of_none rfl
  have hcalls : replaceAll Call.step? [normalForm e] = [normalForm e] := replaceAll_of_none hstep
  rw [normalForm_referenced (TokenKind.isContainer_of_isWrapper ht), referenced, List.map_singleton,
    hreferences, hcalls, operated_single, finished_single ht hhole, normalForm_normalForm]

theorem normalForm_single {t : Token} (ht : t.kind.isWrapper) {e x : Expr} (he : normalForm e = x)
    (hx : x.Inert) : normalForm (.group t [e]) = x := by
  subst he
  exact normalForm_lone ht hx.isHole (Call.step?_of_inert hx [])

theorem referenced_cons_word {word : Token} (hword : word.kind = .word) (rest : List Expr) :
    referenced (.group word [] :: rest) = .group word [] :: referenced rest := by
  rw [referenced, List.map_cons, normalForm_of_settled (settled_token (Or.inr hword)),
    replaceAll_of_none (Leaf.reference?_group (by simp [hword]) (by simp [hword]) _ _)]
  rfl

section

variable {statement word : Token} (hstatement : statement.kind.isWrapper) (hword : word.kind = .word)
  {items : List Expr}
include hstatement hword

/-- A list operator in front of its arguments. -/
theorem normalForm_bare (hoperator : Call.isListOperator word.content) (hne : items ≠ [])
    (hhead : (referenced items).head?.any Call.isList = false)
    (hends : ∀ x ∈ referenced items, Call.endsArguments x = false) :
    normalForm (.group statement (.group word [] :: items))
      = .call word.content (Call.argumentForms (referenced items)) := by
  rw [normalForm_referenced (TokenKind.isContainer_of_isWrapper hstatement), referenced_cons_word hword,
    Call.calls_of_listOperator (by simp [Call.word?, hword]) hoperator hhead (referenced_ne_nil hne) hends,
    operated_single, finished_single hstatement rfl, normalForm_call]
  rfl

/-- A word in front of arguments in parentheses. -/
theorem normalForm_enclosed {list expression : Token} (hlist : list.kind = .list)
    (hgrouped : Call.grouped? (normalForm (.group expression items)) = none) :
    normalForm (.group statement [.group word [], .group list [.group expression items]])
      = .call word.content
          (Call.argumentForms (Call.listItems [normalForm (.group expression items)])) := by
  have hreferenced : referenced [.group list [.group expression items]]
      = [.group list [normalForm (.group expression items)]] := by
    have hdeclined : Declined standard (.group list [normalForm (.group expression items)]) :=
      declined_structure (Or.inl hlist) (Call.step?_eq_none_iff.2 ⟨fun _ _ => rfl, hgrouped⟩)
    have hsettled : normalForm (.group list [.group expression items])
        = .group list [normalForm (.group expression items)] := by
      rw [← normalForm_mapChildren, mapChildren_group]
      exact normalForm_of_settled (.node hdeclined (settled_map_normalForm _))
    rw [referenced, List.map_singleton, hsettled]
    exact replaceAll_of_idle ⟨rfl, trivial⟩
  have hstep : Call.step? (.group word []) [.group list [normalForm (.group expression items)]]
      = some (.call word.content (Call.arguments (Call.listItems [normalForm (.group expression items)])),
        1) := by
    simp [Call.step?, Call.word?, hword, Call.ofWord?, hlist]
  rw [normalForm_referenced (TokenKind.isContainer_of_isWrapper hstatement), referenced_cons_word hword,
    hreferenced, replaceAll_of_some hstep, List.drop_one, List.tail_cons, replaceAll_nil, operated_single,
    finished_single hstatement rfl, normalForm_call]
  rfl

end

/-- A list operator gives the same call with and without parentheses around its arguments, if calls in
them keep to their arguments and no argument has parentheses of its own around it. -/
theorem normalize_bare_eq_enclosed {document statement word list expression : Token}
    (hdocument : document.kind = .document) (hstatement : statement.kind = .statement)
    (hword : word.kind = .word) (hlist : list.kind = .list) (hexpression : expression.kind = .expression)
    (hoperator : Call.isListOperator word.content) (items : List Expr) (hne : items ≠ [])
    (h : Call.Enclosable (referenced items)) :
    let bare := Expr.group document [.group statement (.group word [] :: items)]
    let enclosed :=
      Expr.group document [.group statement [.group word [], .group list [.group expression items]]]
    ¬MeetsLimit standard (fun _ => True) (maxDepth + 1) bare →
    ¬MeetsLimit standard (fun _ => True) (maxDepth + 1) enclosed →
    normalize standard bare = normalize standard enclosed ∧
      normalize standard bare = .call word.content (Call.argumentForms (referenced items)) := by
  intro bare enclosed hbare henclosed
  have hd : document.kind.isWrapper := by rw [hdocument]; rfl
  have hs : statement.kind.isWrapper := by rw [hstatement]; rfl
  obtain ⟨hgrouped, hforms⟩ := h.argumentForms_expression hexpression
  have heqBare : normalize standard bare = .call word.content (Call.argumentForms (referenced items)) := by
    rw [normalize, normalizeWithin_of_not_meetsLimit hbare]
    exact normalForm_single hd (normalForm_bare hs hword hoperator hne h.head h.ends) rfl
  have heqEnclosed : normalize standard enclosed
      = .call word.content (Call.argumentForms (referenced items)) := by
    rw [normalize, normalizeWithin_of_not_meetsLimit henclosed, ← hforms]
    exact normalForm_single hd (normalForm_enclosed hs hword hlist hgrouped) rfl
  exact ⟨heqBare.trans heqEnclosed.symm, heqBare⟩

/-- A token without parts. -/
def plainToken (kind : TokenKind) (content : String) : Token := ⟨kind, [], ascii content, [], none⟩

/-- A statement of a list operator and items. -/
def bareStatement (word : String) (items : List Expr) : Expr :=
  .group (plainToken .document "")
    [.group (plainToken .statement "") (.group (plainToken .word word) [] :: items)]

/-- A statement of a list operator and items in parentheses. -/
def enclosedStatement (word : String) (items : List Expr) : Expr :=
  .group (plainToken .document "") [.group (plainToken .statement "") [.group (plainToken .word word) [],
    .group (plainToken .list "") [.group (plainToken .expression "") items]]]

/-- The arguments of `sprintf '%d %s', length $val, join ',', $val, 2`. -/
def lengthAndJoin : List Expr :=
  [(.quote, "'%d %s'"), (.operator, ","), (.word, "length"), (.symbol, "$val"), (.operator, ","),
    (.word, "join"), (.quote, "','"), (.operator, ","), (.symbol, "$val"), (.operator, ","),
    (.number, "2")].map fun t => Expr.group (plainToken t.1 t.2) []

theorem referenced_lengthAndJoin : referenced lengthAndJoin
    = [.string (ascii "%d %s"), .group (plainToken .operator ",") [], .group (plainToken .word "length") [],
      .value, .group (plainToken .operator ",") [], .group (plainToken .word "join") [],
      .string (ascii ","), .group (plainToken .operator ",") [], .value,
      .group (plainToken .operator ",") [], .integer 2] := rfl

theorem enclosable_lengthAndJoin : Call.Enclosable (referenced lengthAndJoin) := by
  have hbefore : Idle Leaf.reference? (referenced lengthAndJoin) := idle_references _
  rw [referenced_lengthAndJoin] at hbefore ⊢
  have hungrouped : ∀ x ∈ referenced lengthAndJoin, (Call.grouped? x).isNone := by
    rw [referenced_lengthAndJoin]
    decide
  exact .of_ungrouped (fun x hx => Option.isNone_iff_eq_none.1 (hungrouped x hx)) hbefore rfl (by decide) rfl
    rfl

/-- One argument is a call of a named operator, and the last one takes in all commas behind its word. -/
theorem normalize_bare_eq_enclosed_lengthAndJoin :
    let bare := bareStatement "sprintf" lengthAndJoin
    let enclosed := enclosedStatement "sprintf" lengthAndJoin
    lengthAndJoin ≠ [] ∧ Call.Enclosable (referenced lengthAndJoin) ∧
      ¬MeetsLimit standard (fun _ => True) (maxDepth + 1) bare ∧
      ¬MeetsLimit standard (fun _ => True) (maxDepth + 1) enclosed ∧
      normalize standard bare = normalize standard enclosed ∧
      normalize standard bare = .call (ascii "sprintf") [.string (ascii "%d %s"),
        .call (ascii "length") [.value], .call (ascii "join") [.string (ascii ","), .value, .integer 2]] := by
  intro bare enclosed
  have hbare : ¬MeetsLimit standard (fun _ => True) (maxDepth + 1) bare :=
    not_meetsLimit_standard (by decide)
  have henclosed : ¬MeetsLimit standard (fun _ => True) (maxDepth + 1) enclosed :=
    not_meetsLimit_standard (by decide)
  obtain ⟨heq, hform⟩ := normalize_bare_eq_enclosed rfl rfl rfl rfl rfl (by decide) lengthAndJoin
    (by decide) enclosable_lengthAndJoin hbare henclosed
  refine ⟨by decide, enclosable_lengthAndJoin, hbare, henclosed, heq, hform.trans ?_⟩
  rw [referenced_lengthAndJoin]
  rfl

/-! ### A call that takes in a comma -/

theorem operationOf_binary {l o r : Expr} {op : Operator} (hl : l.isOperand) (ho : o.IsInfix op)
    (hr : r.isOperand) : OperationOf [l, o, r] (.binary op.symbol l r) := by
  have hspells : (OperatorTree.node op (.leaf l) (.leaf r)).Spells ([l] ++ o :: [r]) :=
    .node ho (.leaf hl) (.leaf hr)
  exact ⟨[l, o, r], _, collapses_iff_signedRun.1 (.operator hl ho (.last hr)), hspells,
    OperatorTree.grouped_pair op l r, rfl⟩

/-- Items that come to two operands with an operator between them. -/
theorem normalForm_binary {t : Token} (ht : t.kind.isWrapper) {items : List Expr} {l o r : Expr}
    {op : Operator} (hl : l.isOperand) (ho : o.IsInfix op) (hr : r.isOperand)
    (h : replaceAll Call.step? (referenced items) = [l, o, r]) :
    normalForm (.group t items) = normalForm (.binary op.symbol l r) := by
  have hmixes : mixesConditional [l, o, r] = false := by
    have hquestion : o.isSymbol "?" = false := by
      by_contra hsymbol
      rw [Bool.not_eq_false] at hsymbol
      have := isBarrier_of_isSymbol (Or.inl hsymbol)
      rw [isBarrier_of_isInfix ho] at this
      cases this
    simp [mixesConditional, isSymbol_of_isOperand hl, isSymbol_of_isOperand hr, hquestion]
  rw [normalForm_referenced (TokenKind.isContainer_of_isWrapper ht), h, operated, hmixes]
  simp only [Bool.false_eq_true, if_false]
  rw [(operationOf_binary hl ho hr).resolveRuns, finished_single ht rfl]

/-- The arguments of `sprintf 1 . join $val, 2`. -/
def joinInside : List Expr :=
  [(.number, "1"), (.operator, "."), (.word, "join"), (.symbol, "$val"), (.operator, ","),
    (.number, "2")].map fun t => Expr.group (plainToken t.1 t.2) []

/-- A list operator inside an argument takes in what is behind the comma, but only in parentheses. -/
theorem normalize_bare_ne_enclosed_joinInside :
    let bare := bareStatement "sprintf" joinInside
    let enclosed := enclosedStatement "sprintf" joinInside
    (∀ x ∈ joinInside, Call.isList x = false ∧ Call.endsArguments x = false) ∧
      ¬MeetsLimit standard (fun _ => True) (maxDepth + 1) bare ∧
      ¬MeetsLimit standard (fun _ => True) (maxDepth + 1) enclosed ∧
      normalize standard bare = .call (ascii "sprintf")
        [.binary (ascii ".") (.integer 1) (.call (ascii "join") [.value]), .integer 2] ∧
      normalize standard enclosed = .call (ascii "sprintf")
        [.binary (ascii ".") (.integer 1) (.call (ascii "join") [.value, .integer 2])] := by
  intro bare enclosed
  have hbare : ¬MeetsLimit standard (fun _ => True) (maxDepth + 1) bare :=
    not_meetsLimit_standard (by decide)
  have henclosed : ¬MeetsLimit standard (fun _ => True) (maxDepth + 1) enclosed :=
    not_meetsLimit_standard (by decide)
  have hpoint : (Expr.group (plainToken .operator ".") []).IsInfix ⟨ascii ".", 140, false⟩ :=
    ⟨_, _, rfl, rfl, by decide⟩
  refine ⟨by decide, hbare, henclosed, ?_, ?_⟩
  · rw [normalize, normalizeWithin_of_not_meetsLimit hbare]
    have hargument : normalForm (wrap [.integer 1, .group (plainToken .operator ".") [],
        .group (plainToken .word "join") [], .value])
          = .binary (ascii ".") (.integer 1) (.call (ascii "join") [.value]) :=
      (normalForm_binary rfl rfl hpoint rfl rfl).trans rfl
    have hforms : Call.argumentForms (referenced joinInside)
        = [.binary (ascii ".") (.integer 1) (.call (ascii "join") [.value]), .integer 2] := by
      rw [← hargument]
      rfl
    rw [← hforms]
    exact normalForm_single rfl (normalForm_bare rfl rfl (by decide) (by decide) rfl (by decide)) rfl
  · rw [normalize, normalizeWithin_of_not_meetsLimit henclosed]
    have hexpression : normalForm (.group (plainToken .expression "") joinInside)
        = .binary (ascii ".") (.integer 1) (.call (ascii "join") [.value, .integer 2]) :=
      (normalForm_binary rfl rfl hpoint rfl rfl).trans rfl
    have hgrouped : Call.grouped? (normalForm (.group (plainToken .expression "") joinInside)) = none := by
      rw [hexpression]
      rfl
    refine normalForm_single rfl ((normalForm_enclosed rfl rfl rfl hgrouped).trans ?_) rfl
    rw [hexpression]
    rfl

end Rule

end TagFormula

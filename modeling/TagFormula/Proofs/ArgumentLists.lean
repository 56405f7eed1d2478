import TagFormula.Proofs.Agreement
import TagFormula.Proofs.FlatSequence

/-!
Lists of arguments between commas. Calls and operations may be found in a list before or after it is split
at its commas, and the arguments have the same normal forms, as long as no call takes in a comma. The call
of a list operator that starts an argument may do so, since splitting leaves it all that follows.
-/

namespace TagFormula

open Expr Rule

namespace Call

/-! ### Splitting at commas -/

/-- A list operator without parentheses stands first. -/
def leads : List Expr → Bool
  | [] => false
  | item :: rest => isBareListOperator item rest

theorem isList_of_isComma {c : Expr} (hc : c.isComma) : isList c = false := by
  obtain ⟨t, parts, rfl, hk⟩ := isOperator_iff.1 (isOperator_of_isBarrier (isBarrier_of_isComma hc))
  simp [isList, isKind, token?, hk]

theorem isBareListOperator_append {c : Expr} (hc : c.isComma) (item : Expr) (items rest : List Expr) :
    isBareListOperator item (items ++ c :: rest) = isBareListOperator item items := by
  cases items with
  | nil => simp [isBareListOperator, isList_of_isComma hc]
  | cons => rfl

theorem leads_append {c : Expr} (hc : c.isComma) (items rest : List Expr) :
    leads (items ++ c :: rest) = leads items := by
  cases items with
  | nil =>
    obtain ⟨t, parts, rfl, hk⟩ := isOperator_iff.1 (isOperator_of_isBarrier (isBarrier_of_isComma hc))
    simp [leads, isBareListOperator, word?, hk]
  | cons item items => exact isBareListOperator_append hc item items rest

theorem isComma_of_leads {item : Expr} {rest : List Expr} (h : leads (item :: rest)) :
    item.isComma = false := by
  by_contra hc
  have hnil := leads_append (Bool.not_eq_false _ ▸ hc) [] rest
  rw [List.nil_append, h] at hnil
  cases hnil

/-- Items without commas are collected, if no list operator takes all that follows. -/
theorem arguments_go_append {items current : List Expr} (hcomma : ∀ x ∈ items, x.isComma = false)
    (rest : List Expr) (hleads : current = [] → leads (items ++ rest) = false) :
    arguments.go current (items ++ rest) = arguments.go (items.reverse ++ current) rest := by
  induction items generalizing current with
  | nil => rfl
  | cons item items ih =>
    rw [List.forall_mem_cons] at hcomma
    have hbare : (current.isEmpty && isBareListOperator item (items ++ rest)) = false := by
      cases current with
      | nil => exact hleads rfl
      | cons => rfl
    rw [List.cons_append, arguments.go, hcomma.1, hbare]
    simp only [Bool.false_eq_true, if_false]
    rw [ih hcomma.2 (by simp), List.reverse_cons, List.append_assoc]
    rfl

/-- Items that are one argument: a list operator first, or no comma. -/
def IsArgument (items : List Expr) : Prop := leads items ∨ ∀ x ∈ items, x.isComma = false

theorem arguments_of_isArgument {items : List Expr} (h : IsArgument items) :
    arguments items = flush items.reverse [] := by
  cases hleads : leads items with
  | true =>
    cases items with
    | nil => cases hleads
    | cons item rest =>
      have hitem := isComma_of_leads hleads
      rw [leads] at hleads
      rw [arguments, arguments.go, hitem]
      simp [hleads, flush]
  | false =>
    have hcomma := h.resolve_left (by simp [hleads])
    have hgo : arguments.go [] (items ++ []) = arguments.go (items.reverse ++ []) [] :=
      arguments_go_append hcomma [] (fun _ => by rwa [List.append_nil])
    rw [List.append_nil, List.append_nil] at hgo
    rw [arguments, hgo, arguments.go]

/-- The first argument, and those behind its comma. -/
theorem arguments_append {items : List Expr} (hcomma : ∀ x ∈ items, x.isComma = false)
    (hleads : leads items = false) {c : Expr} (hc : c.isComma) (rest : List Expr) :
    arguments (items ++ c :: rest) = flush items.reverse (arguments rest) := by
  rw [arguments, arguments_go_append hcomma _ (fun _ => by rw [leads_append hc, hleads]), arguments.go, hc,
    List.append_nil]
  rfl

/-- Items are one argument, or an argument in front of a comma and further items. -/
@[elab_as_elim]
theorem argumentInduction {P : List Expr → Prop} (last : ∀ items, IsArgument items → P items)
    (next : ∀ items c rest, (∀ x ∈ items, x.isComma = false) → leads items = false → c.isComma → P rest →
      P (items ++ c :: rest)) (items : List Expr) : P items := by
  have go : ∀ items front, (∀ x ∈ front, x.isComma = false) → P (front ++ items) := by
    intro items
    induction items with
    | nil =>
      intro front hfront
      rw [List.append_nil]
      exact last front (Or.inr hfront)
    | cons e items ih =>
      intro front hfront
      cases he : e.isComma with
      | true =>
        cases hleads : leads front with
        | true => exact last _ (Or.inl (by rw [leads_append he, hleads]))
        | false => exact next front e items hfront hleads he (ih [] (by simp))
      | false =>
        have := ih (front ++ [e]) (by simpa [or_imp, forall_and, he] using hfront)
        rwa [List.append_assoc] at this
  exact go items [] (by simp)

/-! ### Calls and commas -/

/-- No call takes in a comma, unless it is that of a list operator that starts an argument. `inside` says
that an argument has started, and the number how many items the last call still covers. -/
def commasKept : Bool → Nat → List Expr → Bool
  | _, _, [] => true
  | _, covered + 1, _ :: rest => commasKept true covered rest
  | inside, 0, item :: rest =>
    if item.isComma then commasKept false 0 rest
    else if !inside && isBareListOperator item rest then true
    else
      match step? item rest with
      | some (_, n) => !(rest.take n).any isComma && commasKept true n rest
      | none => commasKept true 0 rest

theorem commasKept_covered (n : Nat) (items : List Expr) :
    commasKept true n items = commasKept true 0 (items.drop n) := by
  induction items generalizing n with
  | nil => simp [commasKept]
  | cons item rest ih =>
    cases n with
    | zero => rfl
    | succ n => rw [commasKept, List.drop_succ_cons, ih]

theorem unaryOperand_append {c : Expr} (hc : c.isComma) (items rest : List Expr) :
    unaryOperand (items ++ c :: rest) = unaryOperand items := by
  have go : ∀ items ready, unaryOperand.go ready (items ++ c :: rest) = unaryOperand.go ready items := by
    intro items
    induction items with
    | nil => simp [unaryOperand.go, isBarrier_of_isComma hc]
    | cons item items ih => simp [unaryOperand.go, ih]
  exact go items true

theorem endsArguments_of_isComma {c : Expr} (hc : c.isComma) : endsArguments c = false := by
  obtain ⟨t, parts, rfl, hk⟩ := isOperator_iff.1 (isOperator_of_isBarrier (isBarrier_of_isComma hc))
  have hsymbol : ∀ s, (Expr.group t parts).isSymbol s = (t.content == ascii s) := by
    simp [isSymbol, token?, hk]
  have hcontent : t.content = ascii "," ∨ t.content = ascii "=>" := by
    simpa [isComma, hsymbol] using hc
  simp only [endsArguments, List.any_cons, List.any_nil, hsymbol]
  rcases hcontent with h | h <;> rw [h] <;> decide

theorem takeWhile_of_append {p : Expr → Bool} {c : Expr} (hc : p c) {items rest : List Expr}
    (h : ((items ++ c :: rest).takeWhile p).length ≤ items.length) :
    (items ++ c :: rest).takeWhile p = items.takeWhile p := by
  rw [List.takeWhile_append] at h ⊢
  split at h
  · rw [List.takeWhile_cons_of_pos hc, List.length_append, List.length_cons] at h
    omega
  · rename_i hshort
    rw [if_neg hshort]

/-- A call that does not reach a comma is the same without the comma and what is behind it. -/
theorem ofWord?_of_append {c : Expr} (hc : c.isComma) {word : Text} {e : Expr} {items rest : List Expr}
    {n : Nat} (hn : n ≤ items.length) (h : ofWord? word (items ++ c :: rest) = some (e, n)) :
    ofWord? word items = some (e, n) := by
  cases hlist : items.head?.any isList with
  | true =>
    cases items with
    | nil => cases hlist
    | cons next items =>
      cases next with
      | group t parts =>
        have hk : t.kind = .list := by simpa [isList, isKind, token?] using hlist
        simpa [ofWord?, hk] using h
      | _ => cases hlist
  | false =>
    have hnext : (items ++ c :: rest).head?.any isList = false := by
      cases items with
      | nil => simpa using isList_of_isComma hc
      | cons => exact hlist
    have hends : (!endsArguments c) = true := by simp [endsArguments_of_isComma hc]
    rw [ofWord?_of_not_list hnext, unaryOperand_append hc] at h
    rw [ofWord?_of_not_list hlist]
    split at h
    · rename_i hoperator
      obtain ⟨rfl, rfl⟩ := Prod.mk.inj (Option.some.inj h)
      rw [takeWhile_of_append (p := fun e => !endsArguments e) hends hn] at hoperator ⊢
      rw [if_pos hoperator]
    · rename_i hoperator
      have hempty : (isListOperator word && !(items.takeWhile fun e => !endsArguments e).isEmpty) = false := by
        rw [Bool.not_eq_true] at hoperator
        cases items with
        | nil => simp
        | cons => rwa [isEmpty_bare] at hoperator ⊢
      rw [hempty]
      exact h

theorem step?_of_append {c : Expr} (hc : c.isComma) {item e : Expr} {items rest : List Expr} {n : Nat}
    (hn : n ≤ items.length) (h : step? item (items ++ c :: rest) = some (e, n)) :
    step? item items = some (e, n) := by
  unfold step? at h ⊢
  cases hcall : (word? item).bind (ofWord? · (items ++ c :: rest)) with
  | some r =>
    rw [hcall] at h
    cases h
    obtain ⟨word, hword, hr⟩ := Option.bind_eq_some_iff.1 hcall
    simp only [hword, Option.bind_some, ofWord?_of_append hc hn hr]
  | none =>
    rw [hcall] at h
    have hnone : (word? item).bind (ofWord? · items) = none := by
      cases hword : word? item with
      | none => rfl
      | some word =>
        rw [hword, Option.bind_some, ofWord?_eq_none_iff] at hcall
        rw [Option.bind_some, ofWord?_eq_none_iff]
        cases items with
        | nil => rfl
        | cons => exact hcall
    rw [hnone]
    exact h

/-- Where nothing starts, nothing starts if less follows. -/
theorem step?_eq_none_of_append {item : Expr} {items rest : List Expr}
    (h : step? item (items ++ rest) = none) : step? item items = none := by
  rw [step?_eq_none_iff] at h ⊢
  refine ⟨fun word hword => ?_, h.2⟩
  cases items with
  | nil => rfl
  | cons => exact h.1 word hword

/-- Calls that take in no comma are found on either side of it. -/
theorem calls_append {c : Expr} (hc : c.isComma) {items rest : List Expr} {inside : Bool}
    (hcomma : ∀ x ∈ items, x.isComma = false) (hleads : inside = true ∨ leads items = false)
    (h : commasKept inside 0 (items ++ c :: rest)) :
    replaceAll step? (items ++ c :: rest) = replaceAll step? items ++ c :: replaceAll step? rest ∧
      commasKept false 0 rest := by
  induction hlength : items.length using Nat.strongRecOn generalizing items inside with
  | ind _ ih =>
    cases items with
    | nil =>
      have hstep := step?_operator (isOperator_of_isBarrier (isBarrier_of_isComma hc)) rest
      rw [List.nil_append, commasKept, if_pos hc] at h
      exact ⟨by rw [List.nil_append, replaceAll_of_none hstep]; rfl, h⟩
    | cons item items =>
      rw [List.length_cons] at hlength
      rw [List.forall_mem_cons] at hcomma
      have hbare : (!inside && isBareListOperator item (items ++ c :: rest)) = false := by
        rw [isBareListOperator_append hc]
        rcases hleads with rfl | hleads
        · rfl
        · rw [leads] at hleads
          simp [hleads]
      rw [List.cons_append, commasKept, hcomma.1, hbare] at h
      simp only [Bool.false_eq_true, if_false] at h
      cases hs : step? item (items ++ c :: rest) with
      | none =>
        rw [hs] at h
        obtain ⟨hcalls, hrest⟩ := ih items.length (by omega) hcomma.2 (Or.inl rfl) h rfl
        refine ⟨?_, hrest⟩
        rw [List.cons_append, replaceAll_of_none hs, replaceAll_of_none (step?_eq_none_of_append hs), hcalls]
        rfl
      | some r =>
        obtain ⟨e, n⟩ := r
        rw [hs] at h
        simp only [Bool.and_eq_true, Bool.not_eq_true'] at h
        have hn : n ≤ items.length := by
          by_contra hlt
          have hmem : c ∈ (items ++ c :: rest).take n := by
            rw [List.take_append, List.mem_append]
            obtain ⟨k, hk⟩ := Nat.exists_eq_add_of_lt (Nat.lt_of_not_le hlt)
            exact Or.inr (by simp [hk, Nat.add_assoc])
          rw [List.any_eq_true.2 ⟨c, hmem, hc⟩] at h
          cases h.1
        have hdrop : (items ++ c :: rest).drop n = items.drop n ++ c :: rest := List.drop_append_of_le_length hn
        rw [commasKept_covered, hdrop] at h
        obtain ⟨hcalls, hrest⟩ := ih (items.drop n).length (by rw [List.length_drop]; omega)
          (fun x hx => hcomma.2 x (List.mem_of_mem_drop hx)) (Or.inl rfl) h.2 rfl
        refine ⟨?_, hrest⟩
        rw [List.cons_append, replaceAll_of_some hs, replaceAll_of_some (step?_of_append hc hn hs), hdrop,
          hcalls]
        rfl

end Call

/-! ### Items in front of others -/

theorem Leaf.reference?_eq_none_of_append {item : Expr} {items rest : List Expr}
    (h : reference? item (items ++ rest) = none) : reference? item items = none := by
  cases items with
  | nil => rfl
  | cons next after =>
    cases after with
    | cons => rwa [reference?_cons_cons_congr]
    | nil =>
      simp only [reference?, List.nil_append, List.cons_append, List.head?_nil, Option.bind_none,
        Option.map_none] at h ⊢
      split
      · rename_i hvalue
        rwa [if_pos hvalue] at h
      · rename_i hvalue
        rw [if_neg hvalue] at h
        split
        · rfl
        · rename_i hself
          rwa [if_neg hself] at h

theorem Idle.of_append_left {step : Expr → List Expr → Option (Expr × Nat)}
    (hstep : ∀ {item items rest}, step item (items ++ rest) = none → step item items = none)
    {items rest : List Expr} (h : Idle step (items ++ rest)) : Idle step items := by
  induction items with
  | nil => trivial
  | cons item items ih => exact ⟨hstep h.1, ih h.2⟩

/-- Items in which no reference and no call starts, and none of which ends a list of arguments. -/
structure Quiet (items : List Expr) : Prop where
  reference : Idle Leaf.reference? items
  step : Idle Call.step? items
  ends : ∀ x ∈ items, Call.endsArguments x = false

theorem Quiet.of_append {items rest : List Expr} {c : Expr} (h : Quiet (items ++ c :: rest)) :
    Quiet items ∧ Quiet rest := by
  obtain ⟨href, hstep, hends⟩ := h
  refine ⟨⟨href.of_append_left Leaf.reference?_eq_none_of_append,
    hstep.of_append_left Call.step?_eq_none_of_append, fun x hx => hends x (by simp [hx])⟩, ?_⟩
  exact ⟨(Idle.of_append items href).2, (Idle.of_append items hstep).2, fun x hx => hends x (by simp [hx])⟩

theorem Expr.Inert.endsArguments {e : Expr} (h : e.Inert) : Call.endsArguments e = false := by
  simp [Call.endsArguments, isSymbol_of_isOperand h.isOperand]

theorem Quiet.merges {items items' : List Expr} (h : Quiet items) (hm : Merges items items') :
    Quiet items' :=
  ⟨h.reference.merges steady_reference? hm, h.step.merges steady_step? hm,
    fun _ hx => (hm.mem hx).elim (h.ends _) Inert.endsArguments⟩

/-- Where no call starts, a list operator has nothing behind it. -/
theorem Quiet.eq_nil_of_leads {item : Expr} {rest : List Expr} (h : Quiet (item :: rest))
    (hleads : Call.leads (item :: rest)) : rest = [] := by
  rw [Call.leads, Call.isBareListOperator, Bool.and_eq_true] at hleads
  obtain ⟨word, hword, hoperator⟩ := (Option.any_eq_true _ _).1 hleads.1
  cases rest with
  | nil => rfl
  | cons next rest =>
    have hnext := (Call.step?_eq_none_iff.1 h.step.1).1 word hword
    simp [Call.takes, hoperator, h.ends next (by simp)] at hnext

theorem Quiet.not_leads {items rest : List Expr} {c : Expr} (h : Quiet (items ++ c :: rest))
    (hc : c.isComma) : Call.leads items = false := by
  by_contra hleads
  rw [Bool.not_eq_false, ← Call.leads_append hc items rest] at hleads
  cases items with
  | nil =>
    have hcomma := Call.isComma_of_leads hleads
    rw [hc] at hcomma
    cases hcomma
  | cons item items => simpa using h.eq_nil_of_leads hleads

/-! ### The normal forms of arguments -/

namespace Call

/-- The arguments in normal form. -/
def argumentForms (items : List Expr) : List Expr := (arguments items).map normalForm

theorem argumentForms_of_isArgument {items : List Expr} (h : IsArgument items) (hne : items ≠ []) :
    argumentForms items = [normalForm (collapseOrWrap items)] := by
  rw [argumentForms, arguments_of_isArgument h, flush, List.isEmpty_reverse, List.reverse_reverse,
    if_neg (by simpa using hne)]
  rfl

theorem argumentForms_append {items : List Expr} (hcomma : ∀ x ∈ items, x.isComma = false)
    (hleads : leads items = false) {c : Expr} (hc : c.isComma) (rest : List Expr) :
    argumentForms (items ++ c :: rest)
      = if items = [] then argumentForms rest
        else normalForm (collapseOrWrap items) :: argumentForms rest := by
  rw [argumentForms, arguments_append hcomma hleads hc, flush, List.isEmpty_reverse, List.reverse_reverse]
  by_cases h : items = []
  · simp [h, argumentForms]
  · simp [h, argumentForms]

/-- Items that agree are the same arguments. -/
theorem argumentForms_congr {items items' : List Expr} (h : AgreeAll items items') :
    argumentForms items = argumentForms items' := by
  have hlist : ∀ {x y : Expr}, Agree x y → isList y = isList x := by
    intro x y hxy
    rw [isList, isKind, ← token?_face, ← hxy.face, token?_face]
    rfl
  have hbare : ∀ {x y : Expr} {xs ys : List Expr}, Agree x y → AgreeAll xs ys →
      isBareListOperator y ys = isBareListOperator x xs := by
    intro x y xs ys hxy hall
    have hword : word? y = word? x := by rw [← word?_face, ← hxy.face, word?_face]
    have hnext : ys.head?.any isList = xs.head?.any isList := by
      cases hall with
      | nil => rfl
      | cons hx => exact hlist hx
    rw [isBareListOperator, isBareListOperator, hword, hnext]
  have hflush : ∀ {xs ys args args' : List Expr}, AgreeAll xs ys →
      args.map normalForm = args'.map normalForm →
      (flush xs args).map normalForm = (flush ys args').map normalForm := by
    intro xs ys args args' hxs hargs
    unfold flush
    cases hxs with
    | nil => exact hargs
    | cons hx hxs =>
      simp only [List.isEmpty_cons, Bool.false_eq_true, if_false, List.map_cons, hargs]
      rw [normalForm_collapseOrWrap_congr (List.rel_reverse (.cons hx hxs))]
  have go : ∀ {items items'}, AgreeAll items items' → ∀ {current current'}, AgreeAll current current' →
      (arguments.go current items).map normalForm = (arguments.go current' items').map normalForm := by
    intro items items' h
    induction h with
    | nil => exact fun hcurrent => hflush hcurrent rfl
    | @cons x y xs ys hx hxs ih =>
      intro current current' hcurrent
      have hcomma : y.isComma = x.isComma := by rw [← isComma_face, ← hx.face, isComma_face]
      have hempty : current'.isEmpty = current.isEmpty := by cases hcurrent <;> rfl
      rw [arguments.go, arguments.go, hcomma, hempty, hbare hx hxs]
      split
      · exact hflush hcurrent (ih .nil)
      · split
        · rw [List.map_singleton, List.map_singleton, normalForm_collapseOrWrap_congr (.cons hx hxs)]
        · exact ih (.cons hx hcurrent)
  exact go h .nil

theorem argumentForms_map_normalForm {items : List Expr} (h : ∀ x ∈ items, Ready x) :
    argumentForms (items.map normalForm) = argumentForms items :=
  (argumentForms_congr (agreeAll_map_normalForm h)).symm

/-! ### Calls and operations in arguments -/

/-- A list operator takes all that follows, if nothing ends its arguments. -/
theorem calls_of_listOperator {item : Expr} {word : Text} {rest : List Expr} (hword : word? item = some word)
    (hoperator : isListOperator word) (hlist : rest.head?.any isList = false) (hne : rest ≠ [])
    (hends : ∀ x ∈ rest, endsArguments x = false) :
    replaceAll step? (item :: rest) = [.call word (arguments rest)] := by
  have hbare : (rest.takeWhile fun e => !endsArguments e) = rest :=
    List.takeWhile_eq_self_iff.2 fun x hx => by simp [hends x hx]
  have hstep : step? item rest = some (.call word (arguments rest), rest.length) := by
    rw [step?, hword, Option.bind_some, ofWord?_of_not_list hlist, hbare]
    simp [hoperator, hne]
  rw [replaceAll_of_some hstep, List.drop_length, replaceAll_nil]

theorem isComma_of_grouped? {x inner : Expr} (h : grouped? x = some inner) : inner.isComma = false := by
  obtain ⟨t, ht, rfl⟩ := grouped?_eq_some h
  by_contra hcomma
  rw [Bool.not_eq_false] at hcomma
  simp [grouped?, hcomma] at h

theorem isComma_of_inert {x : Expr} (h : x.Inert) : x.isComma = false := by
  simp [isComma, isSymbol_of_isOperand h.isOperand]

theorem isComma_of_mem_calls {items : List Expr} (h : ∀ x ∈ items, x.isComma = false) :
    ∀ x ∈ replaceAll step? items, x.isComma = false := by
  intro x hx
  rcases mem_calls hx with ⟨hx, -⟩ | hx | ⟨y, -, hgrouped⟩
  · exact h x hx
  · exact isComma_of_inert hx
  · exact isComma_of_grouped? hgrouped

theorem isArgument_calls {items : List Expr} (h : IsArgument items)
    (hends : ∀ x ∈ items, endsArguments x = false) : IsArgument (replaceAll step? items) := by
  rcases h with hleads | hcomma
  · cases items with
    | nil => cases hleads
    | cons item rest =>
      by_cases hrest : rest = []
      · subst hrest
        exact Or.inr (isComma_of_mem_calls (by simpa using isComma_of_leads hleads))
      · rw [leads, isBareListOperator, Bool.and_eq_true, Bool.not_eq_true'] at hleads
        obtain ⟨word, hword, hoperator⟩ := (Option.any_eq_true _ _).1 hleads.1
        rw [calls_of_listOperator hword hoperator hleads.2 hrest fun x hx => hends x (by simp [hx])]
        exact Or.inr (by simp [isComma_of_inert (x := .call word (arguments rest)) rfl])
  · exact Or.inr (isComma_of_mem_calls hcomma)

/-- Calls may be found in an argument before it becomes a group. -/
theorem normalForm_calls_of_quiet {items : List Expr} (hsettled : ∀ x ∈ items, Settled standard x)
    (hbefore : Idle Leaf.reference? items) (hquiet : Quiet (replaceAll step? items))
    (hlone : ∀ x, items = [x] → grouped? x = none) :
    normalForm (collapseOrWrap (replaceAll step? items)) = normalForm (collapseOrWrap items) := by
  by_cases hlength : 2 ≤ items.length
  · exact normalForm_calls hsettled hlength hbefore hquiet.reference hquiet.step
  · have hidle : Idle step? items := by
      cases items with
      | nil => trivial
      | cons x rest =>
        obtain rfl : rest = [] := by simpa using hlength
        exact ⟨step?_eq_none_iff.2 ⟨fun _ _ => rfl, hlone x rfl⟩, trivial⟩
    rw [replaceAll_of_idle hidle]

/-- Calls may be found before items are split at commas, if none takes in a comma. -/
theorem argumentForms_calls {items : List Expr} (hsettled : ∀ x ∈ items, Settled standard x)
    (hbefore : Idle Leaf.reference? items) (hends : ∀ x ∈ items, endsArguments x = false)
    (hlone : Ungrouped (arguments items)) (hkept : commasKept false 0 items)
    (hquiet : Quiet (replaceAll step? items)) :
    argumentForms (replaceAll step? items) = argumentForms items := by
  induction items using argumentInduction with
  | last items h =>
    by_cases hne : items = []
    · rw [hne, replaceAll_nil]
    · have hlone' : ∀ x, items = [x] → grouped? x = none := by
        rintro x rfl
        exact hlone x (by simp [arguments_of_isArgument h, flush, collapseOrWrap])
      rw [argumentForms_of_isArgument (isArgument_calls h hends) (replaceAll_ne_nil hne),
        argumentForms_of_isArgument h hne, normalForm_calls_of_quiet hsettled hbefore hquiet hlone']
  | next items c rest hcomma hleads hc ih =>
    obtain ⟨hcalls, hrest⟩ := calls_append hc hcomma (Or.inr hleads) hkept
    rw [hcalls] at hquiet
    obtain ⟨hfront, hback⟩ := hquiet.of_append
    rw [arguments_append hcomma hleads hc] at hlone
    have hlone' : ∀ x, items = [x] → grouped? x = none := by
      rintro x rfl
      exact hlone x (by simp [flush, collapseOrWrap])
    have hform := normalForm_calls_of_quiet (fun x hx => hsettled x (by simp [hx]))
      (hbefore.of_append_left Leaf.reference?_eq_none_of_append) hfront hlone'
    have hforms := ih (fun x hx => hsettled x (by simp [hx])) (Idle.of_append items hbefore).2
      (fun x hx => hends x (by simp [hx])) (fun x hx => hlone x (by unfold flush; split <;> simp [hx])) hrest
      hback
    have hempty : replaceAll step? items = [] ↔ items = [] :=
      ⟨fun h => by_contra fun hne => replaceAll_ne_nil hne h, fun h => by rw [h, replaceAll_nil]⟩
    rw [hcalls, argumentForms_append (isComma_of_mem_calls hcomma) (hquiet.not_leads hc) hc,
      argumentForms_append hcomma hleads hc, hform, hforms]
    simp only [hempty]

/-- Operations may be found before items are split at commas. -/
theorem argumentForms_resolveRuns {items : List Expr} (hready : ∀ x ∈ items, Ready x) (hquiet : Quiet items)
    (hmixes : mixesConditional items = false) :
    argumentForms (Operation.resolveRuns items) = argumentForms items := by
  have hcommas : ∀ {xs : List Expr}, (∀ x ∈ xs, x.isComma = false) →
      ∀ x ∈ Operation.resolveRuns xs, x.isComma = false :=
    fun h x hx => ((merges_resolveRuns _).mem hx).elim (h x) isComma_of_inert
  have hempty : ∀ xs, Operation.resolveRuns xs = [] ↔ xs = [] := by
    intro xs
    constructor
    · intro h
      have hmerges := merges_resolveRuns xs
      rw [h] at hmerges
      cases hmerges
      rfl
    · rintro rfl
      rfl
  induction items using argumentInduction with
  | last items h =>
    by_cases hne : items = []
    · rw [hne]
      rfl
    · have hargument : IsArgument (Operation.resolveRuns items) := by
        rcases h with hleads | hcomma
        · cases items with
          | nil => cases hleads
          | cons item rest =>
            obtain rfl := hquiet.eq_nil_of_leads hleads
            rw [Operation.resolveRuns_of_length_lt (by simp)]
            exact Or.inl hleads
        · exact Or.inr (hcommas hcomma)
      rw [argumentForms_of_isArgument hargument (mt (hempty items).1 hne), argumentForms_of_isArgument h hne,
        normalForm_resolveRuns hready hquiet.reference hquiet.step hmixes]
  | next items c rest hcomma hleads hc ih =>
    have hmerged := hquiet.merges (merges_resolveRuns _)
    rw [Operation.resolveRuns_append (isBarrier_of_isComma hc)] at hmerged ⊢
    obtain ⟨hfront, hback⟩ := hquiet.of_append
    have hform := normalForm_resolveRuns (fun x hx => hready x (by simp [hx])) hfront.reference hfront.step
      (mixesConditional_of_subset hmixes fun x hx => by simp [hx])
    have hforms := ih (fun x hx => hready x (by simp [hx])) hback
      (mixesConditional_of_subset hmixes fun x hx => by simp [hx])
    rw [argumentForms_append (hcommas hcomma) (hmerged.not_leads hc) hc, argumentForms_append hcomma hleads hc,
      hform, hforms]
    simp only [hempty]

end Call
end TagFormula

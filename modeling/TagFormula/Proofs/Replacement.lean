import TagFormula.Proofs.Normalization

/-!
Replacing items from left to right, as one function on lists: what becomes of the first item, and of the
items behind those that its replacement covers.
-/

namespace TagFormula

/-- The items after all replacements. -/
def replaceAll (step : Expr → List Expr → Option (Expr × Nat)) (items : List Expr) : List Expr :=
  (replaceItems? step 0 items).getD items

section

variable {step : Expr → List Expr → Option (Expr × Nat)}

/-- Covered items are passed over. -/
theorem replaceItems?_covered : ∀ (n : Nat) (items : List Expr),
    (replaceItems? step n items).getD (items.drop n) = replaceAll step (items.drop n)
  | 0, _ => rfl
  | n + 1, [] => by simp [replaceItems?, replaceAll]
  | n + 1, _ :: rest => by
    rw [replaceItems?, List.drop_succ_cons]
    exact replaceItems?_covered n rest

@[simp] theorem replaceAll_nil : replaceAll step [] = [] := rfl

theorem replaceAll_of_some {item e : Expr} {rest : List Expr} {n : Nat}
    (h : step item rest = some (e, n)) :
    replaceAll step (item :: rest) = e :: replaceAll step (rest.drop n) := by
  rw [replaceAll, replaceItems?, h, Option.getD_some, replaceItems?_covered]

theorem replaceAll_of_none {item : Expr} {rest : List Expr} (h : step item rest = none) :
    replaceAll step (item :: rest) = item :: replaceAll step rest := by
  rw [replaceAll, replaceItems?, h, replaceAll]
  cases replaceItems? step 0 rest <;> rfl

/-- Induction along the replacements: an item is kept, or it is replaced together with those behind it. -/
theorem replaceAll_induct {P : List Expr → List Expr → Prop} (nil : P [] [])
    (keep : ∀ item rest, step item rest = none → P rest (replaceAll step rest) →
      P (item :: rest) (item :: replaceAll step rest))
    (replace : ∀ item rest e n, step item rest = some (e, n) →
      P (rest.drop n) (replaceAll step (rest.drop n)) →
      P (item :: rest) (e :: replaceAll step (rest.drop n))) (items : List Expr) :
    P items (replaceAll step items) := by
  -- a replacement covers items, so the induction is on their number
  induction hlength : items.length using Nat.strongRecOn generalizing items with
  | ind _ ih =>
    cases items with
    | nil => exact nil
    | cons item rest =>
      rw [List.length_cons] at hlength
      cases hs : step item rest with
      | none =>
        rw [replaceAll_of_none hs]
        exact keep item rest hs (ih _ (by omega) rest rfl)
      | some r =>
        obtain ⟨e, n⟩ := r
        rw [replaceAll_of_some hs]
        exact replace item rest e n hs (ih _ (by rw [List.length_drop]; omega) (rest.drop n) rfl)

/-- Items that no replacement from in front of them reads are replaced on their own. -/
theorem replaceAll_append {items : List Expr}
    (hstep : ∀ item front, step item (front ++ items) = step item front)
    (hcover : ∀ {item front e n}, step item front = some (e, n) → n ≤ front.length) (front : List Expr) :
    replaceAll step (front ++ items) = replaceAll step front ++ replaceAll step items := by
  refine replaceAll_induct (P := fun front front' => replaceAll step (front ++ items)
    = front' ++ replaceAll step items) rfl ?_ ?_ front
  · intro item rest hs ih
    rw [List.cons_append, replaceAll_of_none ((hstep item rest).trans hs), ih, List.cons_append]
  · intro item rest e n hs ih
    rw [List.cons_append, replaceAll_of_some ((hstep item rest).trans hs),
      List.drop_append_of_le_length (hcover hs), ih, List.cons_append]

end

/-- A reference is an element of the value or a field. -/
theorem Leaf.reference?_cases {item e : Expr} {rest : List Expr} {n : Nat}
    (h : Leaf.reference? item rest = some (e, n)) : (∃ i, e = .element i) ∨ ∃ name, e = .field name := by
  unfold Leaf.reference? at h
  split at h
  · cases h
  · split at h
    · obtain ⟨i, -, hi⟩ := Option.map_eq_some_iff.1 h
      cases hi
      exact Or.inl ⟨i, rfl⟩
    · split at h
      · obtain ⟨name, -, hname⟩ := Option.map_eq_some_iff.1 h
        cases hname
        exact Or.inr ⟨name, rfl⟩
      · split at h
        · obtain ⟨name, -, hname⟩ := Option.map_eq_some_iff.1 h
          cases hname
          exact Or.inr ⟨name, rfl⟩
        · cases h

/-- No reference starts at a token other than a cast or one of the two symbols. -/
theorem Leaf.reference?_group {t : Token} (hcast : t.kind ≠ .cast)
    (hsymbol : t.kind = .symbol → t.content ≠ ascii "$self" ∧ t.content ≠ ascii "$$self")
    (parts rest : List Expr) : Leaf.reference? (.group t parts) rest = none := by
  cases rest with
  | nil => rfl
  | cons next after =>
    have hdollar : isToken .cast "$" (.group t parts) = false := by
      simp [isToken, Expr.token?, hcast]
    have htoken : ∀ content, (t.kind = .symbol → t.content ≠ ascii content) →
        isToken .symbol content (.group t parts) = false := by
      intro content h
      simpa [isToken, Expr.token?] using h
    have hself := htoken "$self" fun hk => (hsymbol hk).1
    have hdouble := htoken "$$self" fun hk => (hsymbol hk).2
    simp [reference?, isValue, hself, hdouble, hdollar]

/-- No call starts at a token other than a word, and only lists are parentheses. -/
theorem Call.step?_group {t : Token} (hword : t.kind ≠ .word) (hlist : t.kind ≠ .list)
    (parts rest : List Expr) : Call.step? (.group t parts) rest = none := by
  have hgrouped : grouped? (.group t parts) = none := by
    unfold grouped?
    split
    · rename_i u inner heq
      obtain ⟨rfl, -⟩ := Expr.group.inj heq
      simp [hlist]
    · rfl
  simp [step?, word?, hword, hgrouped]

/-- A call has its arguments in parentheses, or it is that of a list operator or a named operator with
items behind it. -/
theorem Call.ofWord?_cases {word : Text} {rest : List Expr} {e : Expr} {n : Nat}
    (h : Call.ofWord? word rest = some (e, n)) :
    (∃ t items after, rest = .group t items :: after ∧ t.kind = .list ∧
      e = .call word (arguments (listItems items)) ∧ n = 1) ∨
    (∃ bare, bare = (rest.takeWhile fun e => !endsArguments e) ∧ bare ≠ [] ∧
      e = .call word (arguments bare) ∧ n = bare.length) ∨
    (unaryOperand rest ≠ [] ∧ e = .call word [Expr.collapseOrWrap (unaryOperand rest)] ∧
      n = (unaryOperand rest).length) := by
  unfold ofWord? at h
  dsimp only at h
  split at h
  · rename_i r hr
    cases h
    split at hr
    · rename_i t items after
      split at hr
      · rename_i hk
        cases hr
        exact Or.inl ⟨t, items, after, rfl, hk, rfl, rfl⟩
      · cases hr
    · cases hr
  · split at h
    · rename_i hlist
      simp only [Bool.and_eq_true, Bool.not_eq_true', List.isEmpty_eq_false_iff] at hlist
      cases h
      exact Or.inr (Or.inl ⟨_, rfl, hlist.2, rfl, rfl⟩)
    · split at h
      · rename_i hnamed
        simp only [Bool.and_eq_true, Bool.not_eq_true', List.isEmpty_eq_false_iff] at hnamed
        cases h
        exact Or.inr (Or.inr ⟨hnamed.2, rfl, rfl⟩)
      · cases h

/-- Parentheses that give way to the item they hold. -/
theorem Call.grouped?_eq_some {e inner : Expr} (h : Call.grouped? e = some inner) :
    ∃ t, t.kind = .list ∧ e = .group t [inner] := by
  unfold grouped? at h
  split at h
  · rename_i t x
    split at h
    · rename_i hlist
      simp only [Bool.and_eq_true, decide_eq_true_eq] at hlist
      refine ⟨t, hlist.1, ?_⟩
      split at h
      · split at h
        · cases h
        · rw [Option.some.inj h]
      · rw [Option.some.inj h]
    · cases h
  · cases h

/-- Kinds of group that take part in no literal. -/
def TokenKind.isContainer (kind : TokenKind) : Bool :=
  kind = .document || kind = .statement || kind = .expression || kind = .list || kind = .subscript

namespace Rule

theorem leaf_number {t : Token} (hk : t.kind = .number) (parts : List Expr) :
    leaf.reduce? (.group t parts) = (Literal.ofNumberToken t.content).map .literal := by
  simp only [leaf, Leaf.reduce?, hk]

theorem leaf_quote {t : Token} (hk : t.kind = .quote) (parts : List Expr) :
    leaf.reduce? (.group t parts) = t.quotedText?.map .string := by
  simp only [leaf, Leaf.reduce?, hk]

/-- A text in single quotes is read whatever else the token says. -/
theorem leaf_single_quoted {t : Token} (hk : t.kind = .quote) {body : Text}
    (h : t.content = ch '\'' :: body ++ [ch '\'']) (parts : List Expr) :
    leaf.reduce? (.group t parts) = some (.string (Quoted.decodeSingle body)) := by
  have henclosed : Quoted.enclosed? t.content = some (ch '\'', body) := by
    rw [h]
    simp [Quoted.enclosed?]
  rw [leaf_quote hk, Token.quotedText?, henclosed]
  rfl

theorem leaf_symbol {t : Token} (hk : t.kind = .symbol) (parts : List Expr) :
    leaf.reduce? (.group t parts) = if t.content == ascii "$val" then some .value
      else (Leaf.fieldOfSymbol? t.content).map .field := by
  simp only [leaf, Leaf.reduce?, hk]

theorem apply_leaf_group {t : Token} (ht : t.kind.isContainer) (items : List Expr) :
    apply (.group t items) leaf = .group t (replaceAll Leaf.reference? items) := by
  have hreduce : leaf.reduce? (.group t items)
      = (replaceItems? Leaf.reference? 0 items).map (.group t) := by
    cases hk : t.kind <;> simp [hk, TokenKind.isContainer] at ht <;> simp [leaf, Leaf.reduce?, hk]
  rw [apply, hreduce, replaceAll]
  cases replaceItems? Leaf.reference? 0 items <;> rfl

theorem apply_call_group (t : Token) (items : List Expr) :
    apply (.group t items) call = .group t (replaceAll Call.step? items) := by
  have hreduce : call.reduce? (.group t items)
      = (replaceItems? Call.step? 0 items).map (.group t) := rfl
  rw [apply, hreduce, replaceAll]
  cases replaceItems? Call.step? 0 items <;> rfl

end Rule
end TagFormula

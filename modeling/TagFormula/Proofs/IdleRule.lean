import TagFormula.Proofs.Printing

/-!
A rule that never applies. In a round every rule is offered one expression, what the rules before it left.
Main statements: the steps on the way to a normal form are the offers that a rule took up, and a rule that
declines whatever it is offered changes neither the normal form nor the steps, wherever it stands among the
others.
-/

namespace TagFormula.Rule

/-! ### What a rule is offered -/

/-- What the rule at a position is offered in a round. -/
def roundOffers : List Rule → Nat → Expr → List Expr
  | [], _, _ => []
  | _ :: _, 0, e => [e]
  | rule :: rest, i + 1, e => roundOffers rest i (apply e rule)

/-- What it is offered in the rounds at a node, and at the parts of what they leave. -/
def settleOffers (below : Expr → Expr) (belowOffers : Expr → List Expr) (rules : List Rule) (i : Nat) :
    Nat → Expr → List Expr
  | 0, _ => []
  | n + 1, e =>
    roundOffers rules i e ++
      match round? rules e with
      | none => []
      | some next =>
        next.children.flatMap belowOffers
          ++ settleOffers below belowOffers rules i n (next.mapChildren below)

/-- What it is offered on the way to the normal form with a number of levels. -/
def offersWithin (rules : List Rule) (i : Nat) : Nat → Expr → List Expr
  | 0, _ => []
  | _ + 1, .hole => []
  | levels + 1, e =>
    let below := normalizeWithin rules levels
    let belowOffers := offersWithin rules i levels
    e.children.flatMap belowOffers
      ++ settleOffers below belowOffers rules i maxRounds (e.mapChildren below)

/-- What the rule at a position is offered on the way to the normal form, in order. -/
def offers (rules : List Rule) (i : Nat) (e : Expr) : List Expr := offersWithin rules i (maxDepth + 1) e

variable {rules : List Rule}

theorem offersWithin_succ {i : Nat} {e : Expr} (levels : Nat) (h : e ≠ .hole) :
    offersWithin rules i (levels + 1) e = e.children.flatMap (offersWithin rules i levels)
      ++ settleOffers (normalizeWithin rules levels) (offersWithin rules i levels) rules i maxRounds
        (e.mapChildren (normalizeWithin rules levels)) := by
  rw [offersWithin]
  exact h

theorem stepsWithin_succ {e : Expr} (levels : Nat) (h : e ≠ .hole) :
    stepsWithin rules (levels + 1) e = e.children.flatMap (stepsWithin rules levels)
      ++ settleSteps (normalizeWithin rules levels) (stepsWithin rules levels) rules maxRounds
        (e.mapChildren (normalizeWithin rules levels)) := by
  rw [stepsWithin]
  exact h

/-! ### Steps are offers that were taken up -/

/-- An application of the rule at some position to an expression that it was offered. -/
def TakesUp (rules : List Rule) (offered : Nat → List Expr) (a : Application) : Prop :=
  ∃ i rule, rules[i]? = some rule ∧ a.before ∈ offered i ∧ rule.reduce? a.before = some a.after ∧
    rule.name = a.rule

theorem takesUp_append {o o' : Nat → List Expr} {a : Application} :
    TakesUp rules (fun i => o i ++ o' i) a ↔ TakesUp rules o a ∨ TakesUp rules o' a := by
  simp only [TakesUp, List.mem_append]
  constructor
  · rintro ⟨i, rule, hi, h | h, hrest⟩
    · exact .inl ⟨i, rule, hi, h, hrest⟩
    · exact .inr ⟨i, rule, hi, h, hrest⟩
  · rintro (⟨i, rule, hi, h, hrest⟩ | ⟨i, rule, hi, h, hrest⟩)
    · exact ⟨i, rule, hi, .inl h, hrest⟩
    · exact ⟨i, rule, hi, .inr h, hrest⟩

theorem takesUp_flatMap {o : Nat → Expr → List Expr} {es : List Expr} {a : Application} :
    TakesUp rules (fun i => es.flatMap (o i)) a ↔ ∃ e ∈ es, TakesUp rules (fun i => o i e) a := by
  simp only [TakesUp, List.mem_flatMap]
  constructor
  · rintro ⟨i, rule, hi, ⟨e, he, h⟩, hrest⟩
    exact ⟨e, he, i, rule, hi, h, hrest⟩
  · rintro ⟨e, he, i, rule, hi, h, hrest⟩
    exact ⟨i, rule, hi, ⟨e, he, h⟩, hrest⟩

theorem not_takesUp_nil {a : Application} : ¬TakesUp rules (fun _ => []) a := by
  rintro ⟨i, rule, -, h, -⟩
  cases h

/-- The first rule is offered the expression, the others what it left. -/
theorem takesUp_roundOffers_cons {rule : Rule} {e : Expr} {a : Application} :
    TakesUp (rule :: rules) (fun i => roundOffers (rule :: rules) i e) a ↔
      (a.before = e ∧ rule.reduce? e = some a.after ∧ rule.name = a.rule) ∨
        TakesUp rules (fun i => roundOffers rules i (apply e rule)) a := by
  constructor
  · rintro ⟨i, r, hi, h, hrest⟩
    cases i with
    | zero =>
      cases hi
      obtain rfl := List.mem_singleton.1 h
      exact .inl ⟨rfl, hrest⟩
    | succ i => exact .inr ⟨i, r, hi, h, hrest⟩
  · rintro (⟨rfl, hrest⟩ | ⟨i, r, hi, h, hrest⟩)
    · exact ⟨0, rule, rfl, List.mem_singleton.2 rfl, hrest⟩
    · exact ⟨i + 1, r, hi, h, hrest⟩

theorem mem_roundSteps_iff {e : Expr} {a : Application} :
    a ∈ roundSteps rules e ↔ TakesUp rules (fun i => roundOffers rules i e) a := by
  induction rules generalizing e with
  | nil =>
    refine ⟨fun h => ?_, fun h => (not_takesUp_nil h).elim⟩
    cases h
  | cons rule rest ih =>
    rw [takesUp_roundOffers_cons, ← ih, roundSteps]
    cases h : rule.reduce? e with
    | none => simp [apply_of_none h]
    | some next =>
      rw [apply_of_some h, List.mem_cons]
      refine or_congr_left ⟨?_, ?_⟩
      · rintro rfl
        exact ⟨rfl, rfl, rfl⟩
      · rintro ⟨rfl, hnext, hname⟩
        cases hnext
        cases a
        cases hname
        rfl

theorem roundSteps_of_declined {e : Expr} (h : Declined rules e) : roundSteps rules e = [] := by
  induction rules with
  | nil => rfl
  | cons rule rest ih =>
    rw [roundSteps, h rule (List.mem_cons_self ..)]
    exact ih fun r hr => h r (List.mem_cons_of_mem _ hr)

theorem mem_settleSteps_iff {below : Expr → Expr} {belowSteps : Expr → List Application}
    {belowOffers : Nat → Expr → List Expr} {a : Application}
    (h : ∀ c, a ∈ belowSteps c ↔ TakesUp rules (fun i => belowOffers i c) a) (n : Nat) (e : Expr) :
    a ∈ settleSteps below belowSteps rules n e ↔
      TakesUp rules (fun i => settleOffers below (belowOffers i) rules i n e) a := by
  induction n generalizing e with
  | zero =>
    refine ⟨fun h => ?_, fun h => (not_takesUp_nil h).elim⟩
    cases h
  | succ n ih =>
    simp only [settleSteps, settleOffers]
    rw [takesUp_append]
    cases hr : round? rules e with
    | none => simp [← mem_roundSteps_iff, roundSteps_of_declined (round?_eq_none_iff.1 hr), not_takesUp_nil]
    | some next =>
      simp only [List.mem_append, List.mem_flatMap, takesUp_append, takesUp_flatMap, h, ih,
        mem_roundSteps_iff, or_assoc]

/-- The steps on the way to the normal form are the offers that a rule took up. -/
theorem mem_stepsWithin_iff {a : Application} (levels : Nat) (e : Expr) :
    a ∈ stepsWithin rules levels e ↔ TakesUp rules (fun i => offersWithin rules i levels e) a := by
  induction levels generalizing e with
  | zero =>
    refine ⟨fun h => ?_, fun h => (not_takesUp_nil h).elim⟩
    cases h
  | succ levels ih =>
    by_cases he : e = .hole
    · subst he
      refine ⟨fun h => ?_, fun h => (not_takesUp_nil h).elim⟩
      cases h
    · simp only [stepsWithin_succ levels he, offersWithin_succ levels he, List.mem_append,
        List.mem_flatMap, takesUp_append, takesUp_flatMap, ih, mem_settleSteps_iff ih]

/-! ### A rule that declines -/

section

variable {i : Nat} {q : Rule}

theorem round?_insertIdx {e : Expr}
    (h : ∀ x ∈ roundOffers (rules.insertIdx i q) i e, q.reduce? x = none) :
    round? (rules.insertIdx i q) e = round? rules e ∧
      roundSteps (rules.insertIdx i q) e = roundSteps rules e := by
  induction i generalizing rules e with
  | zero =>
    have hq : q.reduce? e = none := h e (List.mem_singleton.2 rfl)
    simp [round?, roundSteps, hq]
  | succ i ih =>
    cases rules with
    | nil => exact ⟨rfl, rfl⟩
    | cons rule rest =>
      obtain ⟨hround, hsteps⟩ := ih h
      cases hr : rule.reduce? e with
      | none =>
        rw [apply_of_none hr] at hround hsteps
        simp [round?, roundSteps, hr, hround, hsteps]
      | some next =>
        rw [apply_of_some hr] at hround hsteps
        simp [round?, roundSteps, hr, hround, hsteps]

/-- The rounds at a node stay in step as long as the parts do. -/
theorem settle_insertIdx {below below' : Expr → Expr} {belowSteps belowSteps' : Expr → List Application}
    {belowOffers : Expr → List Expr}
    (hbelow : ∀ c, (∀ x ∈ belowOffers c, q.reduce? x = none) →
      below c = below' c ∧ belowSteps c = belowSteps' c) {n : Nat} {e : Expr}
    (h : ∀ x ∈ settleOffers below belowOffers (rules.insertIdx i q) i n e, q.reduce? x = none) :
    settle below (rules.insertIdx i q) n e = settle below' rules n e ∧
      settleSteps below belowSteps (rules.insertIdx i q) n e
        = settleSteps below' belowSteps' rules n e := by
  induction n generalizing e with
  | zero => exact ⟨rfl, rfl⟩
  | succ n ih =>
    rw [settleOffers, List.forall_mem_append] at h
    obtain ⟨hround, hsteps⟩ := round?_insertIdx h.1
    simp only [settle, settleSteps, hround, hsteps]
    cases hr : round? rules e with
    | none => exact ⟨rfl, rfl⟩
    | some next =>
      rw [hround, hr, List.forall_mem_append] at h
      obtain ⟨-, hparts, hrest⟩ := h
      have hchild : ∀ c ∈ next.children, below c = below' c ∧ belowSteps c = belowSteps' c :=
        fun c hc => hbelow c fun x hx => hparts x (List.mem_flatMap.2 ⟨c, hc, hx⟩)
      have hnext : next.mapChildren below = next.mapChildren below' :=
        Expr.mapChildren_congr fun c hc => (hchild c hc).1
      obtain ⟨hsettle, hlater⟩ := ih hrest
      rw [hnext] at hsettle hlater
      have hbelowSteps : next.children.flatMap belowSteps = next.children.flatMap belowSteps' :=
        List.flatMap_congr fun c hc => (hchild c hc).2
      simp only [hnext, hsettle, hlater, hbelowSteps, and_self]

theorem normalizeWithin_insertIdx {levels : Nat} {e : Expr}
    (h : ∀ x ∈ offersWithin (rules.insertIdx i q) i levels e, q.reduce? x = none) :
    normalizeWithin (rules.insertIdx i q) levels e = normalizeWithin rules levels e ∧
      stepsWithin (rules.insertIdx i q) levels e = stepsWithin rules levels e := by
  induction levels generalizing e with
  | zero => exact ⟨rfl, rfl⟩
  | succ levels ih =>
    by_cases he : e = .hole
    · subst he
      exact ⟨rfl, rfl⟩
    · rw [offersWithin_succ levels he, List.forall_mem_append] at h
      obtain ⟨hparts, hrounds⟩ := h
      have hchild := fun c (hc : c ∈ e.children) =>
        ih fun x hx => hparts x (List.mem_flatMap.2 ⟨c, hc, hx⟩)
      have hmap : e.mapChildren (normalizeWithin (rules.insertIdx i q) levels)
          = e.mapChildren (normalizeWithin rules levels) :=
        Expr.mapChildren_congr fun c hc => (hchild c hc).1
      have hsteps : e.children.flatMap (stepsWithin (rules.insertIdx i q) levels)
          = e.children.flatMap (stepsWithin rules levels) :=
        List.flatMap_congr fun c hc => (hchild c hc).2
      obtain ⟨hsettle, hlater⟩ := settle_insertIdx (fun c => ih) hrounds
      rw [normalizeWithin_succ levels he, normalizeWithin_succ levels he, stepsWithin_succ levels he,
        stepsWithin_succ levels he, hsteps, hsettle, hlater, hmap]
      exact ⟨rfl, rfl⟩

end

/-- A rule that declines all it is offered changes nothing, at whatever position it is put in. -/
theorem normalize_insertIdx (rules : List Rule) (i : Nat) (q : Rule) (e : Expr)
    (h : ∀ x ∈ offers (rules.insertIdx i q) i e, q.reduce? x = none) :
    normalize (rules.insertIdx i q) e = normalize rules e ∧
      steps (rules.insertIdx i q) e = steps rules e :=
  normalizeWithin_insertIdx h

/-- Turns sums into differences. -/
def sumToDifference : Rule where
  name := "sum-to-difference"
  reduce?
    | .binary op l r => if op == ascii "+" then some (.binary (ascii "-") l r) else none
    | _ => none

/-- `$val * 2` holds no sum. -/
theorem normalize_insertIdx_sumToDifference :
    let product := [.symbol (ascii "$val"), .operator (ascii "*"), .number (ascii "2")]
    let e := Expr.ofTokenTree (.document [.statement product])
    (∀ x ∈ offers (standard.insertIdx 4 sumToDifference) 4 e, sumToDifference.reduce? x = none) ∧
      normalize (standard.insertIdx 4 sumToDifference) e = normalize standard e := by
  intro product e
  have hall : (offers (standard.insertIdx 4 sumToDifference) 4 e).all
      fun x => (sumToDifference.reduce? x).isNone := by decide +kernel
  have h := fun x hx => Option.isNone_iff_eq_none.1 (List.all_eq_true.1 hall x hx)
  exact ⟨h, (normalize_insertIdx standard 4 sumToDifference e h).1⟩

end TagFormula.Rule

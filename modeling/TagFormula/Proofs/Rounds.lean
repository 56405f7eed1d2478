import TagFormula.Proofs.ReadingBack

/-!
Rounds that come to an end by themselves. The limit on rounds plays no part where, at every node, a round
comes in which all rules decline. Main statement: whatever the rules are, the normal form is then its own
normal form, and this holds too where parts of the tree lie below the limit on the depth.
-/

namespace TagFormula

namespace Expr

/-- The parts of an expression with new parts are new parts. -/
theorem exists_of_mem_children_mapChildren {f : Expr → Expr} {e d : Expr}
    (h : d ∈ (e.mapChildren f).children) : ∃ c ∈ e.children, f c = d := by
  cases e with
  | call name args => exact List.mem_map.1 h
  | group t parts => exact List.mem_map.1 h
  | regexMatch s p fl neg =>
    by_cases hs : s = .hole
    · rw [hs] at h
      cases h
    · rw [mapChildren] at h
      · refine ⟨s, by rw [children] <;> simp_all, ?_⟩
        -- a subject that has become a hole is no part
        cases hfs : f s <;> simp_all [children]
      · exact hs
  | _ => simp_all [mapChildren, children, eq_comm]

theorem token?_of_isCanonical {e : Expr} (h : e.isCanonical) : e.token? = none := by
  cases e <;> first | rfl | cases h

theorem isCanonical_of_mem_children {e c : Expr} (h : e.isCanonical) (hc : c ∈ e.children) :
    c.isCanonical := by
  cases e with
  | call name args => exact allCanonical_iff.1 h c hc
  | regexMatch s p fl neg => cases s <;> simp_all [children, isCanonical]
  | binary | unary | conditional | repeated =>
    simp only [isCanonical, children, Bool.and_eq_true, List.mem_cons, List.not_mem_nil, or_false] at h hc
    grind
  | group => cases h
  | _ => cases hc

theorem isCanonical_mapChildren {f : Expr → Expr} {e : Expr} (h : e.isCanonical)
    (hf : ∀ c ∈ e.children, (f c).isCanonical) : (e.mapChildren f).isCanonical := by
  cases e with
  | call name args =>
    refine allCanonical_iff.2 fun a ha => ?_
    obtain ⟨c, hc, rfl⟩ := List.mem_map.1 ha
    exact hf c hc
  | regexMatch s p fl neg =>
    by_cases hs : s = .hole
    · rw [hs]
      rfl
    · have hfs : (f s).isCanonical := hf s (by rw [children] <;> simp_all)
      rw [mapChildren]
      · cases hc : f s <;> simp_all [isCanonical]
      · exact hs
  | binary | unary | conditional | repeated =>
    simpa [mapChildren, children, isCanonical, and_assoc] using hf
  | group => cases h
  | _ => exact h

end Expr

namespace Rule

/-- Within a number of rounds at a node comes one in which all rules decline. For the parts of what the
rounds before it leave, `ends` holds. -/
def SettleEnds (below : Expr → Expr) (ends : Expr → Prop) (rules : List Rule) : Nat → Expr → Prop
  | 0, _ => False
  | n + 1, e =>
    match round? rules e with
    | none => True
    | some next =>
      (∀ c ∈ next.children, ends c) ∧ SettleEnds below ends rules n (next.mapChildren below)

/-- At every node on the way to the normal form, a round comes within the given number in which all rules
decline. -/
def EndsWithin (rules : List Rule) (rounds : Nat) : Nat → Expr → Prop
  | 0, _ => True
  | _ + 1, .hole => True
  | levels + 1, e =>
    let ends := EndsWithin rules rounds levels
    let below := normalizeWithin rules levels
    (∀ c ∈ e.children, ends c) ∧ SettleEnds below ends rules rounds (e.mapChildren below)

variable {rules : List Rule}

theorem endsWithin_hole (rounds levels : Nat) : EndsWithin rules rounds levels .hole := by
  cases levels <;> exact trivial

theorem endsWithin_succ {rounds : Nat} {e : Expr} (levels : Nat) (h : e ≠ .hole) :
    EndsWithin rules rounds (levels + 1) e ↔ (∀ c ∈ e.children, EndsWithin rules rounds levels c) ∧
      SettleEnds (normalizeWithin rules levels) (EndsWithin rules rounds levels) rules rounds
        (e.mapChildren (normalizeWithin rules levels)) := by
  rw [EndsWithin]
  exact h

section

variable {below : Expr → Expr} {ends : Expr → Prop}

theorem settleEnds_of_declined {e : Expr} (h : Declined rules e) (n : Nat) :
    SettleEnds below ends rules (n + 1) e := by
  rw [SettleEnds, round?_eq_none_iff.2 h]
  trivial

theorem settleEnds_succ {e next : Expr} {n : Nat} (h : round? rules e = some next) :
    SettleEnds below ends rules (n + 1) e ↔
      (∀ c ∈ next.children, ends c) ∧ SettleEnds below ends rules n (next.mapChildren below) := by
  rw [SettleEnds, h]

/-- More rounds may be given. -/
theorem SettleEnds.mono {ends' : Expr → Prop} (hends : ∀ c, ends c → ends' c) {n m : Nat} {e : Expr}
    (h : SettleEnds below ends rules n e) (hle : n ≤ m) : SettleEnds below ends' rules m e := by
  induction n generalizing m e with
  | zero => exact h.elim
  | succ n ih =>
    obtain ⟨m, rfl⟩ := Nat.exists_eq_add_of_le' (Nat.le_trans (Nat.le_add_left 1 n) hle)
    cases hr : round? rules e with
    | none => exact settleEnds_of_declined (round?_eq_none_iff.1 hr) m
    | some next =>
      rw [settleEnds_succ hr] at h ⊢
      exact ⟨fun c hc => hends c (h.1 c hc), ih h.2 (by omega)⟩

/-- What the rounds leave, when they end by themselves: no rule applies to it, and its parts have what
normal forms of parts have. -/
theorem SettleEnds.declined_settle {P : Expr → Prop} (hbelow : ∀ c, ends c → P (below c)) {n m : Nat}
    {e : Expr} (h : SettleEnds below ends rules n e) (hle : n ≤ m) (he : ∀ d ∈ e.children, P d) :
    Declined rules (settle below rules m e) ∧ ∀ d ∈ (settle below rules m e).children, P d := by
  induction n generalizing m e with
  | zero => exact h.elim
  | succ n ih =>
    obtain ⟨m, rfl⟩ := Nat.exists_eq_add_of_le' (Nat.le_trans (Nat.le_add_left 1 n) hle)
    cases hr : round? rules e with
    | none =>
      have hdeclined := round?_eq_none_iff.1 hr
      rw [settle_of_declined hdeclined]
      exact ⟨hdeclined, he⟩
    | some next =>
      rw [settleEnds_succ hr] at h
      rw [settle, hr]
      refine ih h.2 (by omega) fun d hd => ?_
      obtain ⟨c, hc, rfl⟩ := Expr.exists_of_mem_children_mapChildren hd
      exact hbelow c (h.1 c hc)

end

theorem EndsWithin.mono {rounds rounds' levels : Nat} {e : Expr}
    (h : EndsWithin rules rounds levels e) (hle : rounds ≤ rounds') :
    EndsWithin rules rounds' levels e := by
  induction levels generalizing e with
  | zero => exact trivial
  | succ levels ih =>
    by_cases he : e = .hole
    · rw [he]
      exact endsWithin_hole rounds' _
    · rw [endsWithin_succ levels he] at h ⊢
      exact ⟨fun c hc => ih (h.1 c hc), h.2.mono (fun _ => ih) hle⟩

/-- The normal form with a number of levels stays the same when it is brought to normal form with as many
levels again. The induction is on the levels that are left: parts below the limit do not change, and
whatever a rule lifts above it has been brought to normal form there. -/
theorem normalizeWithin_normalizeWithin {rounds : Nat} (hrounds : rounds ≤ maxRounds) {levels : Nat}
    {e : Expr} (h : EndsWithin rules rounds levels e) :
    normalizeWithin rules levels (normalizeWithin rules levels e) = normalizeWithin rules levels e := by
  induction levels generalizing e with
  | zero => rfl
  | succ levels ih =>
    by_cases he : e = .hole
    · rw [he, normalizeWithin_hole, normalizeWithin_hole]
    · rw [endsWithin_succ levels he] at h
      rw [normalizeWithin_succ levels he]
      have hparts : ∀ d ∈ (e.mapChildren (normalizeWithin rules levels)).children,
          normalizeWithin rules levels d = d := by
        intro d hd
        obtain ⟨c, hc, rfl⟩ := Expr.exists_of_mem_children_mapChildren hd
        exact ih (h.1 c hc)
      obtain ⟨hdeclined, hchildren⟩ :=
        h.2.declined_settle (P := fun d => normalizeWithin rules levels d = d) (fun c => ih) hrounds hparts
      generalize settle (normalizeWithin rules levels) rules maxRounds
        (e.mapChildren (normalizeWithin rules levels)) = r at hdeclined hchildren ⊢
      by_cases hr : r = .hole
      · rw [hr, normalizeWithin_hole]
      · rw [normalizeWithin_succ levels hr, Expr.mapChildren_eq_self hchildren,
          settle_of_declined hdeclined]

/-! ### Expressions that are no groups -/

open Expr

/-- If every rule that applies leaves something on which all rules decline, a round is one rule. -/
theorem exists_reduce?_of_round? {rules : List Rule} {e next : Expr}
    (hd : ∀ rule ∈ rules, ∀ m, rule.reduce? e = some m → Declined rules m)
    (h : round? rules e = some next) : ∃ rule ∈ rules, rule.reduce? e = some next := by
  induction rules with
  | nil => cases h
  | cons rule rest ih =>
    have hrest : ∀ {m}, Declined (rule :: rest) m → Declined rest m :=
      fun hm r hr => hm r (List.mem_cons_of_mem _ hr)
    rw [round?] at h
    cases hr : rule.reduce? e with
    | none =>
      rw [hr] at h
      obtain ⟨r, hmem, hnext⟩ := ih (fun r hmem m hm => hrest (hd r (List.mem_cons_of_mem _ hmem) m hm)) h
      exact ⟨r, List.mem_cons_of_mem _ hmem, hnext⟩
    | some m =>
      have hm := hrest (hd rule (List.mem_cons_self ..) m hr)
      simp only [hr, round?_eq_none_iff.2 hm, Option.getD_none] at h
      exact ⟨rule, List.mem_cons_self .., h ▸ hr⟩

/-- What the rules for whole expressions do: they bind a match, or make a repetition or a division with
a guard. -/
inductive Recast : Expr → Expr → Prop
  | bound {op : Text} {subject : Expr} {p fl : Text} {neg neg' : Bool} :
      Recast (.binary op subject (.regexMatch .hole p fl neg)) (.regexMatch subject p fl neg')
  | repeated {op : Text} {unit count : Expr} : Recast (.binary op unit count) (.repeated unit count)
  | guarded {guard n d no : Expr} {op name : Text} {args : List Expr} (h : ∀ a ∈ args, a = n ∨ a = d) :
      Recast (.conditional guard (.binary op n d) no) (.call name args)

theorem recast_of_reduce? {rule : Rule} (hrule : rule ∈ standard) {e next : Expr}
    (he : e.token? = none) (h : rule.reduce? e = some next) : Recast e next := by
  have hnone : ∀ r ∈ [leaf, call, operation, conditional, collapse], r.reduce? e = none := by
    cases e with
    | group => cases he
    | _ => simp [leaf, Leaf.reduce?, call, Call.reduce?, operation, Operation.reduce?, conditional,
        Conditional.reduce?, collapse, Shape.collapse]
  have hother : rule ∈ [leaf, call, operation, conditional, collapse] ∨
      rule ∈ [bindMatch, repetition, guardedDivision] := by
    simp only [standard, List.mem_cons, List.not_mem_nil, or_false] at hrule ⊢
    tauto
  rcases hother with hmem | hmem
  · rw [hnone rule hmem] at h
    cases h
  · simp only [List.mem_cons, List.not_mem_nil, or_false] at hmem
    rcases hmem with rfl | rfl | rfl
    · simp only [bindMatch, Shape.bindMatch] at h
      split at h
      · split at h
        · cases h
          exact .bound
        · split at h
          · cases h
            exact .bound
          · cases h
      · cases h
    · simp only [repetition, Shape.repetition] at h
      split at h
      · split at h
        · cases h
          exact .repeated
        · cases h
      · cases h
    · simp only [guardedDivision, Shape.guardedDivision] at h
      split at h
      · split at h
        · split at h
          · cases h
            exact .guarded (by simp)
          · cases h
            exact .guarded (by simp)
        · cases h
      · cases h

/-- No rule applies afterwards, whatever becomes of the parts. -/
theorem Recast.declined {e next : Expr} (h : Recast e next) (f : Expr → Expr) :
    Declined standard (next.mapChildren f) := by
  cases h with
  | @bound op subject =>
    cases subject <;> exact declined_of_token?_eq_none rfl rfl rfl rfl
  | _ => exact declined_of_token?_eq_none rfl rfl rfl rfl

theorem recast_of_round? {e next : Expr} (he : e.token? = none)
    (h : round? standard e = some next) : Recast e next := by
  have hd : ∀ rule ∈ standard, ∀ m, rule.reduce? e = some m → Declined standard m := by
    intro rule hrule m hm
    have := (recast_of_reduce? hrule he hm).declined id
    rwa [mapChildren_eq_self (f := id) fun _ _ => rfl] at this
  obtain ⟨rule, hrule, hnext⟩ := exists_reduce?_of_round? hd h
  exact recast_of_reduce? hrule he hnext

/-- An expression that is no group changes in one round at most. -/
theorem settleEnds_of_token?_eq_none {below : Expr → Expr} {ends : Expr → Prop} {e : Expr}
    (he : e.token? = none) (hends : ∀ next, Recast e next → ∀ c ∈ next.children, ends c) :
    SettleEnds below ends standard 2 e := by
  cases hr : round? standard e with
  | none => exact settleEnds_of_declined (round?_eq_none_iff.1 hr) 1
  | some next =>
    have hnext := recast_of_round? he hr
    rw [settleEnds_succ hr]
    exact ⟨hends next hnext, settleEnds_of_declined (hnext.declined below) 0⟩

/-! ### Canonical expressions -/

theorem Recast.isCanonical {e next : Expr} (h : Recast e next) (he : e.isCanonical) :
    next.isCanonical := by
  cases h with
  | @bound op subject =>
    simp only [Expr.isCanonical, Bool.and_true] at he
    cases subject <;> simp_all [Expr.isCanonical]
  | repeated => exact he
  | guarded h =>
    simp only [Expr.isCanonical, Bool.and_eq_true] at he
    refine allCanonical_iff.2 fun a ha => ?_
    rcases h a ha with rfl | rfl
    · exact he.1.2.1
    · exact he.1.2.2

theorem isCanonical_settle {below : Expr → Expr} (hbelow : ∀ c, c.isCanonical → (below c).isCanonical)
    {n : Nat} {e : Expr} (he : e.isCanonical) : (settle below standard n e).isCanonical := by
  induction n generalizing e with
  | zero => exact he
  | succ n ih =>
    rw [settle]
    split
    · exact he
    · rename_i next hr
      have hnext := (recast_of_round? (token?_of_isCanonical he) hr).isCanonical he
      exact ih (isCanonical_mapChildren hnext fun c hc => hbelow c (isCanonical_of_mem_children hnext hc))

theorem isCanonical_normalizeWithin {levels : Nat} {e : Expr} (he : e.isCanonical) :
    (normalizeWithin standard levels e).isCanonical := by
  induction levels generalizing e with
  | zero => exact he
  | succ levels ih =>
    rw [normalizeWithin_succ levels (by rintro rfl; cases he)]
    exact isCanonical_settle (fun c => ih)
      (isCanonical_mapChildren he fun c hc => ih (isCanonical_of_mem_children he hc))

/-- In a canonical expression, two rounds are enough at every node: one that changes it, and one in which
all rules decline. -/
theorem endsWithin_of_isCanonical {levels : Nat} {e : Expr} (he : e.isCanonical) :
    EndsWithin standard 2 levels e := by
  induction levels generalizing e with
  | zero => exact trivial
  | succ levels ih =>
    rw [endsWithin_succ levels (by rintro rfl; cases he)]
    have hparts : (e.mapChildren (normalizeWithin standard levels)).isCanonical :=
      isCanonical_mapChildren he fun c hc =>
        isCanonical_normalizeWithin (isCanonical_of_mem_children he hc)
    refine ⟨fun c hc => ih (isCanonical_of_mem_children he hc),
      settleEnds_of_token?_eq_none (token?_of_isCanonical hparts) fun next hnext c hc => ?_⟩
    exact ih (isCanonical_of_mem_children (hnext.isCanonical hparts) hc)

/-! ### The normal form of a normal form -/

/-- If at every node the rounds end because all rules decline, the normal form is its own normal form. -/
theorem normalize_normalize (rules : List Rule) (e : Expr)
    (h : EndsWithin rules maxRounds (maxDepth + 1) e) :
    normalize rules (normalize rules e) = normalize rules e :=
  normalizeWithin_normalizeWithin (Nat.le_refl maxRounds) h

/-- An expression behind a number of signs. -/
def negated (e : Expr) : Nat → Expr
  | 0 => e
  | n + 1 => .unary (ascii "-") (negated e n)

theorem isCanonical_negated {e : Expr} (h : e.isCanonical) (n : Nat) : (negated e n).isCanonical := by
  induction n with
  | zero => exact h
  | succ n ih => exact ih

/-- A tree that is deeper than the limit, with a repetition below it that no round comes to. -/
theorem normalize_normalize_negated :
    let e := negated (.binary (ascii "x") .value (.integer 2)) 600
    EndsWithin standard maxRounds (maxDepth + 1) e ∧
      normalize standard (normalize standard e) = normalize standard e := by
  intro e
  have hends : EndsWithin standard maxRounds (maxDepth + 1) e :=
    (endsWithin_of_isCanonical (isCanonical_negated rfl 600)).mono (by decide)
  exact ⟨hends, normalize_normalize standard e hends⟩

end Rule
end TagFormula

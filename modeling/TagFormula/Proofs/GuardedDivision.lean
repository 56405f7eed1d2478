import TagFormula.Expr.Meaning
import TagFormula.Proofs.Normalization

/-!
A guarded division, `d ? n / d : 0`, against the call that takes its place. The conditional evaluates the
numerator only for a true divisor, the call for every one. Main statement: where the conditional yields a
value, the call fails exactly if the numerator does, and it never does for a true divisor.
-/

namespace TagFormula

theorem Literal.same_refl (l : Literal) : l.same l := by
  cases l with
  | float d => cases hd : d.isNaN <;> simp [Literal.same, Double.eq, hd]
  | _ => simp [Literal.same]

theorem Expr.same_refl (e : Expr) : e.same e := by
  have hall : ∀ es : List Expr, (∀ e ∈ es, e.same e) → sameAll es es := by
    intro es
    induction es with
    | nil => simp [sameAll]
    | cons e es ih => simp +contextual [sameAll, ih]
  induction e using Expr.induct with
  | literal l => simp [same, Literal.same_refl]
  | call name args ih => simp [same, hall args ih]
  | group t parts ih => simp [same, hall parts ih]
  | _ => simp_all [same]

namespace Value

theorem operand_eq_ok_iff {op : String} {v : Value} {x : Number} :
    v.operand op = .ok x ↔ v.toNumber = .ok x := by
  cases v <;> simp [operand, toNumber]

theorem argument_eq_ok_iff {name : String} {v : Value} {x : Number} :
    v.argument name = .ok x ↔ v.toNumber = .ok x := by
  cases v <;> simp [argument, toNumber]

/-- Operands that can be divided have numeric views. -/
theorem toNumber_of_div {a b q : Value} (h : a.div b = .ok q) :
    (∃ x, a.toNumber = .ok x) ∧ ∃ y, b.toNumber = .ok y := by
  unfold div onNumbers at h
  cases ha : a.operand "/" with
  | error f => rw [ha] at h; cases h
  | ok x =>
    cases hb : b.operand "/" with
    | error f => rw [ha, hb] at h; cases h
    | ok y => exact ⟨⟨x, operand_eq_ok_iff.1 ha⟩, y, operand_eq_ok_iff.1 hb⟩

/-- The call needs no more of its arguments than the division of a true divisor does. -/
theorem exists_safeDivision_eq_ok {a b : Value}
    (h : b.truthy → (∃ x, a.toNumber = .ok x) ∧ ∃ y, b.toNumber = .ok y) :
    ∃ q, a.safeDivision b = .ok q := by
  unfold safeDivision
  cases hb : b.truthy with
  | false => exact ⟨_, rfl⟩
  | true =>
    obtain ⟨⟨x, hx⟩, y, hy⟩ := h hb
    simp only [argument_eq_ok_iff.2 hx, argument_eq_ok_iff.2 hy, bind, Except.bind, pure, Except.pure,
      Bool.not_true, Bool.false_eq_true, if_false]
    split <;> exact ⟨_, rfl⟩

end Value

/-! ### The two meanings -/

/-- `d ? n / d : zero`. -/
def Expr.guardedQuotient (n d zero : Expr) : Expr := .conditional d (.binary (ascii "/") n d) zero

/-- The call that takes its place. -/
def Expr.safeQuotient (n d : Expr) : Expr :=
  if n.isLiteralOne then .call (ascii "safe_reciprocal") [d] else .call (ascii "safe_division") [n, d]

theorem Shape.guardedDivision_guardedQuotient {zero : Expr} (hzero : zero.isLiteralZero) (n d : Expr) :
    Shape.guardedDivision (n.guardedQuotient d zero) = some (n.safeQuotient d) := by
  unfold Expr.safeQuotient
  simp only [Expr.guardedQuotient, guardedDivision, hzero, Expr.same_refl, BEq.rfl, Bool.and_self, if_true]
  split <;> rfl

namespace Expr

section

variable {n d : Expr} {numerator divisor : Meaning} (hn : n.meaning? = some numerator)
  (hd : d.meaning? = some divisor)

include hn hd in
theorem meaning?_guardedQuotient (l : Literal) : (guardedQuotient n d (.literal l)).meaning?
    = some (fun v c => do
        if (← divisor v c).truthy then Value.div (← numerator v c) (← divisor v c)
        else .ok (Meaning.literal l)) := by
  simp only [guardedQuotient, meaning?, hn, hd]
  rfl

include hn hd in
/-- The call evaluates its numerator, unless that is one, and its divisor. -/
theorem meaning?_safeQuotient : (safeQuotient n d).meaning? = some (fun v c => do
    Value.safeDivision (← if n.isLiteralOne then .ok (.integer 1) else numerator v c) (← divisor v c)) := by
  unfold safeQuotient
  cases n.isLiteralOne with
  | true =>
    have hcall : (call (ascii "safe_reciprocal") [d]).meaning?
        = Meaning.call? (ascii "safe_reciprocal") [divisor] := by
      simp only [meaning?, meanings?, hd]
      rfl
    rw [if_pos rfl, hcall]
    refine congrArg some (funext fun v => funext fun c => ?_)
    cases hb : divisor v c <;>
      simp [List.mapM_cons, hb, bind, Except.bind, pure, Except.pure, Value.safeReciprocal]
  | false =>
    have hcall : (call (ascii "safe_division") [n, d]).meaning?
        = Meaning.call? (ascii "safe_division") [numerator, divisor] := by
      simp only [meaning?, meanings?, hn, hd]
      rfl
    rw [if_neg Bool.false_ne_true, hcall]
    refine congrArg some (funext fun v => funext fun c => ?_)
    cases ha : numerator v c with
    | error f => simp [List.mapM_cons, ha, bind, Except.bind]
    | ok a =>
      cases hb : divisor v c <;> simp [List.mapM_cons, ha, hb, bind, Except.bind, pure, Except.pure]

end

end Expr

/-- Where the conditional yields a value, its divisor does, and for a true divisor the numerator does and
they can be divided. -/
theorem Meaning.divides_of_guarded {numerator divisor : Meaning} {zero x : Value} {v : Value} {c : Context}
    (h : (do if (← divisor v c).truthy then Value.div (← numerator v c) (← divisor v c) else .ok zero)
      = Except.ok x) :
    ∃ b, divisor v c = .ok b ∧ (b.truthy → ∃ a q, numerator v c = .ok a ∧ a.div b = .ok q) := by
  cases hb : divisor v c with
  | error f => rw [hb] at h; cases h
  | ok b =>
    refine ⟨b, rfl, fun htruthy => ?_⟩
    simp only [hb, htruthy, bind, Except.bind, if_true] at h
    cases ha : numerator v c with
    | error f => rw [ha] at h; cases h
    | ok a =>
      rw [ha] at h
      exact ⟨a, x, rfl, h⟩

/-- A numerator that is one is a number. -/
theorem Expr.meaning?_of_isLiteralOne {n : Expr} {numerator : Meaning} (h : n.isLiteralOne)
    (hn : n.meaning? = some numerator) : ∃ a, ∀ v c, numerator v c = .ok a := by
  cases n with
  | literal l =>
    cases hn
    exact ⟨_, fun _ _ => rfl⟩
  | _ => cases h

/-- Where a guarded division yields a value, the call in its place fails exactly if the numerator does, with
the same fault. For a true divisor it does not fail, and neither does it for the numerator one. -/
theorem guardedDivision_fails_iff (n d zero : Expr) (numerator divisor : Meaning)
    (hn : n.meaning? = some numerator) (hd : d.meaning? = some divisor) (hzero : zero.isLiteralZero) :
    ∃ before after, Shape.guardedDivision (n.guardedQuotient d zero) = some (n.safeQuotient d) ∧
      (n.guardedQuotient d zero).meaning? = some before ∧ (n.safeQuotient d).meaning? = some after ∧
      ∀ v c x, before v c = .ok x → ∃ b, divisor v c = .ok b ∧ (b.truthy → ∃ y, after v c = .ok y) ∧
        ∀ f, after v c = .error f ↔ numerator v c = .error f := by
  obtain ⟨l, rfl⟩ : ∃ l, zero = .literal l := by
    cases zero with
    | literal l => exact ⟨l, rfl⟩
    | _ => cases hzero
  refine ⟨_, _, Shape.guardedDivision_guardedQuotient hzero n d, Expr.meaning?_guardedQuotient hn hd l,
    Expr.meaning?_safeQuotient hn hd, fun v c x hx => ?_⟩
  obtain ⟨b, hb, hdivides⟩ := Meaning.divides_of_guarded hx
  refine ⟨b, hb, ?_⟩
  cases hone : n.isLiteralOne with
  | true =>
    obtain ⟨a, ha⟩ := Expr.meaning?_of_isLiteralOne hone hn
    obtain ⟨q, hq⟩ : ∃ q, (Value.integer 1).safeDivision b = .ok q := by
      refine Value.exists_safeDivision_eq_ok fun htruthy => ⟨⟨_, rfl⟩, ?_⟩
      obtain ⟨_, q, _, hq⟩ := hdivides htruthy
      exact (Value.toNumber_of_div hq).2
    simp [hb, ha, hq, bind, Except.bind]
  | false =>
    cases ha : numerator v c with
    | error f =>
      refine ⟨fun htruthy => ?_, fun g => by simp [bind, Except.bind]⟩
      obtain ⟨a, q, ha', _⟩ := hdivides htruthy
      cases ha.symm.trans ha'
    | ok a =>
      obtain ⟨q, hq⟩ : ∃ q, a.safeDivision b = .ok q := by
        refine Value.exists_safeDivision_eq_ok fun htruthy => ?_
        obtain ⟨a', q, ha', hq⟩ := hdivides htruthy
        cases ha.symm.trans ha'
        exact Value.toNumber_of_div hq
      simp [hb, hq, bind, Except.bind]

/-- `log($val)`. -/
def Expr.logarithm : Expr := .call (ascii "log") [.value]

theorem guardedDivision_fails_iff_logarithm : ∃ numerator after,
    Expr.logarithm.meaning? = some numerator ∧ (Expr.integer 0).isLiteralZero ∧
    (Expr.logarithm.safeQuotient .value).meaning? = some after ∧ ∀ c,
      (∃ y, after (.integer 8) c = .ok y) ∧
      ∀ f, after (.integer 0) c = .error f ↔ numerator (.integer 0) c = .error f := by
  obtain ⟨before, after, -, hbefore, hafter, h⟩ :=
    guardedDivision_fails_iff Expr.logarithm .value (.integer 0) _ _ rfl rfl (by decide)
  refine ⟨_, after, rfl, by decide, hafter, fun c => ?_⟩
  cases hbefore
  obtain ⟨b, hb, hvalue, -⟩ := h (.integer 8) c _ rfl
  obtain ⟨_, _, -, hfails⟩ := h (.integer 0) c _ rfl
  cases hb
  exact ⟨hvalue (by decide), hfails⟩

/-- The call evaluates a numerator that the guard keeps from being evaluated. -/
theorem guardedDivision_logarithm_of_zero : ∃ before after,
    (Expr.logarithm.guardedQuotient .value (.integer 0)).meaning? = some before ∧
    Shape.guardedDivision (Expr.logarithm.guardedQuotient .value (.integer 0))
      = some (Expr.logarithm.safeQuotient .value) ∧
    (Expr.logarithm.safeQuotient .value).meaning? = some after ∧
    ∀ c, before (.integer 0) c = .ok (.integer 0) ∧
      after (.integer 0) c = .error (.noLogarithm Double.zero) :=
  ⟨_, _, rfl, rfl, rfl, fun _ => ⟨rfl, rfl⟩⟩

end TagFormula

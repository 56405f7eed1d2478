import Mathlib.Data.Rat.Floor
import Mathlib.Tactic.Linarith
import TagFormula.Proofs.ExactPower

/-!
Sums, products, quotients and remainders of integers. Main statement: a result is the exact integer wherever
that has 64 bits and a real elsewhere, at the ends of the range too, and the remainder toward the divisor's sign
is formed without a step outside the range.
-/

namespace TagFormula

/-! ### Division of words -/

theorem eq_neg_one_iff_toInt {y : Int64} : y = -1 ↔ y.toInt = -1 := by
  rw [← Int64.toInt_inj]
  exact Iff.rfl

theorem eq_zero_iff_toInt {y : Int64} : y = 0 ↔ y.toInt = 0 := by
  rw [← Int64.toInt_inj]
  exact Iff.rfl

theorem toInt_div_of_not_overflow {x y : Int64} (h : ¬(x = Int64.minValue ∧ y = -1)) :
    (x / y).toInt = x.toInt.tdiv y.toInt := by
  by_cases hx : x = Int64.minValue
  · exact Int64.toInt_div_of_ne_right x y fun hy => h ⟨hx, hy⟩
  · exact Int64.toInt_div_of_ne_left x y hx

/-- Quotients past 64 bits come from the divisor minus one only. -/
theorem fitsInt64_tdiv (x : Int64) {y : Int64} (h : y ≠ -1) : FitsInt64 (x.toInt.tdiv y.toInt) := by
  rw [← toInt_div_of_not_overflow fun hover => h hover.2]
  exact fitsInt64_toInt _

/-- Two words of different signs have a sum inside the range. -/
theorem toInt_add_of_signs {r y : Int64} (h : ¬(r.toInt < 0 ↔ y.toInt < 0)) :
    (r + y).toInt = r.toInt + y.toInt := by
  obtain ⟨hr, hr'⟩ := fitsInt64_toInt r
  obtain ⟨hy, hy'⟩ := fitsInt64_toInt y
  rw [Int64.toInt_add, Int.bmod_eq_of_le] <;> omega

/-! ### Remainders -/

namespace Number

/-- The remainder toward zero, formed with its quotient; nothing if one of them leaves the range. -/
def remWithin? (x y : Int64) : Option Int64 := do
  let _ ← int64? (x.toInt.tdiv y.toInt)
  int64? (x.toInt.tmod y.toInt)

/-- The sum, unless it leaves the range. -/
def addWithin? (x y : Int64) : Option Int64 := int64? (x.toInt + y.toInt)

theorem remWithin?_of_ne (x : Int64) {y : Int64} (hy : y ≠ -1) : remWithin? x y = some (x % y) := by
  rw [remWithin?, int64?_of_fits (fitsInt64_tdiv x hy)]
  exact int64?_eq_some_iff.2 (Int64.toInt_mod x y)

theorem addWithin?_of_signs {r y : Int64} (h : ¬(r.toInt < 0 ↔ y.toInt < 0)) : addWithin? r y = some (r + y) :=
  int64?_eq_some_iff.2 (toInt_add_of_signs h)

/-- The remainder toward zero lies on the other side of zero than the divisor. -/
def MovesRemainder (x y : Int64) : Prop := x % y ≠ 0 ∧ ¬((x % y).toInt < 0 ↔ y.toInt < 0)

instance (x y : Int64) : Decidable (MovesRemainder x y) := inferInstanceAs (Decidable (_ ∧ _))

theorem movesRemainder_iff {x y : Int64} :
    (x % y != 0 && (x % y < 0) != (y < 0)) = true ↔ MovesRemainder x y := by
  simp [MovesRemainder, Int64.lt_iff_toInt_lt]

theorem modWord_of_ne (x : Int64) {y : Int64} (hy : y ≠ -1) :
    modWord x y = if MovesRemainder x y then x % y + y else x % y := by
  rw [modWord, modWordBy, if_neg (by simpa using hy)]
  simp only [pure_bind, movesRemainder_iff]
  split <;> rfl

/-- No step of a remainder leaves the range. -/
theorem modWordBy_within (x y : Int64) : modWordBy remWithin? addWithin? x y = some (modWord x y) := by
  by_cases hone : y = -1
  · subst hone
    rfl
  · rw [modWord_of_ne x hone, modWordBy, if_neg (by simpa using hone), remWithin?_of_ne x hone]
    simp only [Option.bind_eq_bind, Option.bind_some, movesRemainder_iff]
    split
    · rename_i hmoves
      exact addWithin?_of_signs hmoves.2
    · rfl

/-- A quotient is the floor if its remainder lies between zero and the divisor. -/
theorem floor_div_eq {x y q r : Int} (hx : x = r + y * q) (hr : 0 ≤ r ∧ r < y ∨ y < r ∧ r ≤ 0) :
    ⌊(x / y : ℚ)⌋ = q := by
  have hxq : (x : ℚ) = r + y * q := by exact_mod_cast hx
  rw [Int.floor_eq_iff]
  rcases hr with ⟨hlow, hhigh⟩ | ⟨hlow, hhigh⟩
  · have hy : (0 : ℚ) < y := by exact_mod_cast hlow.trans_lt hhigh
    have hr0 : (0 : ℚ) ≤ r := by exact_mod_cast hlow
    have hry : (r : ℚ) < y := by exact_mod_cast hhigh
    rw [le_div_iff₀ hy, div_lt_iff₀ hy]
    constructor <;> linarith
  · have hy : (y : ℚ) < 0 := by exact_mod_cast hlow.trans_le hhigh
    have hr0 : (r : ℚ) ≤ 0 := by exact_mod_cast hhigh
    have hry : (y : ℚ) < r := by exact_mod_cast hlow
    rw [le_div_iff_of_neg hy, div_lt_iff_of_neg hy]
    constructor <;> linarith

/-- The remainder lies on the divisor's side of zero. -/
theorem modWord_spec (x : Int64) {y : Int64} (hy : y ≠ 0) :
    (∃ q, x.toInt = (modWord x y).toInt + y.toInt * q) ∧
      (0 ≤ (modWord x y).toInt ∧ (modWord x y).toInt < y.toInt ∨
        y.toInt < (modWord x y).toInt ∧ (modWord x y).toInt ≤ 0) := by
  by_cases hone : y = -1
  · have hzero : (modWord x y).toInt = 0 := by rw [hone]; rfl
    have hdivisor : y.toInt = -1 := eq_neg_one_iff_toInt.1 hone
    rw [hzero, hdivisor]
    exact ⟨⟨-x.toInt, by omega⟩, by omega⟩
  · have hne : y.toInt ≠ 0 := fun h => hy (eq_zero_iff_toInt.2 h)
    have hsmall : (x.toInt.tmod y.toInt).natAbs < y.toInt.natAbs := by
      rw [Int.natAbs_tmod]
      exact Nat.mod_lt _ (Int.natAbs_pos.2 hne)
    have hx := Int.tmod_add_mul_tdiv x.toInt y.toInt
    have hrem := Int64.toInt_mod x y
    rw [modWord_of_ne x hone]
    split
    · rename_i hmoves
      obtain ⟨hnonzero, hsign⟩ := hmoves
      rw [toInt_add_of_signs hsign, hrem]
      rw [ne_eq, eq_zero_iff_toInt, hrem] at hnonzero
      rw [hrem] at hsign
      exact ⟨⟨x.toInt.tdiv y.toInt - 1, by rw [mul_sub]; omega⟩, by omega⟩
    · rename_i hstays
      rw [MovesRemainder, not_and_not_right, ne_eq, eq_zero_iff_toInt, hrem] at hstays
      rw [hrem]
      refine ⟨⟨x.toInt.tdiv y.toInt, hx.symm⟩, ?_⟩
      rcases eq_or_ne (x.toInt.tmod y.toInt) 0 with hzero | hne
      · omega
      · have hsign := hstays hne
        omega

/-! ### Quotients -/

/-- The guard of an exact division of words: no remainder, and not the one quotient past the range. -/
def DividesExactly (x y : Int64) : Prop := ¬(x = Int64.minValue ∧ y = -1) ∧ x % y = 0

instance (x y : Int64) : Decidable (DividesExactly x y) := inferInstanceAs (Decidable (_ ∧ _))

theorem div_integer {x y : Int64} (hy : y ≠ 0) : div (.integer x) (.integer y)
    = .ok (if DividesExactly x y then .integer (x / y)
      else .real ((Double.ofInt x.toInt).div (Double.ofInt y.toInt))) := by
  have hguard : (!(x == Int64.minValue && y == -1) && x % y == 0) = true ↔ DividesExactly x y := by
    rw [DividesExactly, Bool.and_eq_true, beq_iff_eq, Bool.not_eq_true', Bool.eq_false_iff, ne_eq,
      Bool.and_eq_true, beq_iff_eq, beq_iff_eq]
  rw [div, if_neg (by simpa [isZero] using hy)]
  simp only [hguard]
  split <;> rfl

/-- The division of words is exact where there is an exact quotient of 64 bits. -/
theorem exact_quotient_iff {x y : Int64} (hy : y ≠ 0) (q : Int64) :
    DividesExactly x y ∧ x / y = q ↔ x.toInt = q.toInt * y.toInt := by
  have hy' : y.toInt ≠ 0 := fun h => hy (eq_zero_iff_toInt.2 h)
  constructor
  · rintro ⟨⟨hrange, hmod⟩, rfl⟩
    rw [toInt_div_of_not_overflow hrange, Int.tdiv_mul_cancel_of_tmod_eq_zero]
    rw [← Int64.toInt_mod, hmod]
    rfl
  · intro hx
    have hrange : ¬(x = Int64.minValue ∧ y = -1) := by
      rintro ⟨rfl, rfl⟩
      have hq := (fitsInt64_toInt q).2
      have hmin : Int64.minValue.toInt = -0x8000000000000000 := rfl
      have hone : (-1 : Int64).toInt = -1 := rfl
      rw [hmin, hone] at hx
      omega
    refine ⟨⟨hrange, ?_⟩, ?_⟩
    · rw [eq_zero_iff_toInt, Int64.toInt_mod, hx, Int.mul_tmod_left]
    · rw [← Int64.toInt_inj, toInt_div_of_not_overflow hrange, hx, Int.mul_tdiv_cancel _ hy']

end Number

/-! ### Values that count as integers -/

namespace Value

/-- A result is an integer exactly if that is the exact one, and the given real where no integer of 64 bits
is. -/
structure ExactOr (result : Except Fault Value) (exact : Int) (rounded : Double) : Prop where
  integer : ∀ r : Int64, result = .ok (.integer r) ↔ r.toInt = exact
  float : ¬FitsInt64 exact → result = .ok (.float rounded)

theorem exactOr_toValue (exact : Int) (rounded : Double) :
    ExactOr (.ok (Number.exactOr exact rounded).toValue) exact rounded := by
  constructor
  · intro r
    rw [Except.ok.injEq, toValue_eq_integer_iff, Number.exactOr_eq_integer_iff]
  · intro hfits
    rw [Number.exactOr_of_not_fits hfits]
    rfl

/-- The remainder of floored division: zero or on the divisor's side of zero, and smaller than it. -/
structure IsFlooredRemainder (x y r : Int) : Prop where
  eq : r = x - y * ⌊(x / y : ℚ)⌋
  sign : r = 0 ∨ r.sign = y.sign
  small : |r| < |y|

section

variable {a b : Value} {x y : Int64} (ha : a.toNumber = .ok (.integer x)) (hb : b.toNumber = .ok (.integer y))
include ha hb

theorem onNumbers_integers (op : String) (f : Number → Number → Except Fault Number) :
    onNumbers op f a b = (f (.integer x) (.integer y)).map Number.toValue := by
  rw [onNumbers, operand_of_toNumber op ha, operand_of_toNumber op hb]
  change (f (.integer x) (.integer y)).bind _ = _
  cases f (.integer x) (.integer y) <;> rfl

/-- An operation that takes the exact result where it can. -/
theorem exactOr_onNumbers {f : Number → Number → Number} {exact : Int} {rounded : Double} (op : String)
    (hf : f (.integer x) (.integer y) = Number.exactOr exact rounded) :
    ExactOr (onNumbers op (fun x y => .ok (f x y)) a b) exact rounded := by
  have hresult : onNumbers op (fun x y => .ok (f x y)) a b = .ok (Number.exactOr exact rounded).toValue := by
    rw [onNumbers_integers ha hb, hf]
    rfl
  rw [hresult]
  exact exactOr_toValue exact rounded

theorem div_eq_error_iff {f : Fault} : div a b = .error f ↔ y = 0 ∧ f = .zeroDivisor := by
  rw [div, onNumbers_integers ha hb]
  by_cases hy : y = 0
  · rw [Number.div, if_pos (by simpa [Number.isZero] using hy)]
    simp [Except.map, hy, eq_comm]
  · rw [Number.div_integer hy]
    simp [Except.map, hy]

theorem div_eq_integer_iff (hy : y ≠ 0) (q : Int64) :
    div a b = .ok (.integer q) ↔ x.toInt = q.toInt * y.toInt := by
  rw [div, onNumbers_integers ha hb, Number.div_integer hy, ← Number.exact_quotient_iff hy]
  simp only [Except.map, Except.ok.injEq, toValue_eq_integer_iff]
  split
  · rename_i hexact
    simp [hexact]
  · rename_i hinexact
    simp [hinexact]

theorem div_eq_float (hy : y ≠ 0) (h : ∀ q : Int64, x.toInt ≠ q.toInt * y.toInt) :
    div a b = .ok (.float ((Double.ofInt x.toInt).div (Double.ofInt y.toInt))) := by
  have hinexact : ¬Number.DividesExactly x y := fun hexact =>
    h _ ((Number.exact_quotient_iff hy _).1 ⟨hexact, rfl⟩)
  rw [div, onNumbers_integers ha hb, Number.div_integer hy, if_neg hinexact]
  rfl

theorem mod_eq : mod a b = if y = 0 then .error .zeroModulus else .ok (.integer (Number.modWord x y)) := by
  rw [mod, onNumbers_integers ha hb, Number.mod]
  by_cases hy : y = 0
  · subst hy
    rfl
  · simp [Number.toInt64, hy, Except.map, Number.toValue]

end

theorem isFlooredRemainder_modWord (x : Int64) {y : Int64} (hy : y ≠ 0) :
    IsFlooredRemainder x.toInt y.toInt (Number.modWord x y).toInt := by
  obtain ⟨⟨q, hq⟩, hside⟩ := Number.modWord_spec x hy
  refine ⟨?_, ?_, ?_⟩
  · rw [Number.floor_div_eq hq hside]
    omega
  · rcases hside with ⟨hlow, hhigh⟩ | ⟨hlow, hhigh⟩
    · rcases hlow.eq_or_lt with hzero | hpos
      · exact Or.inl hzero.symm
      · exact Or.inr (by rw [Int.sign_eq_one_of_pos hpos, Int.sign_eq_one_of_pos (hpos.trans hhigh)])
    · rcases hhigh.eq_or_lt with hzero | hneg
      · exact Or.inl hzero
      · exact Or.inr (by rw [Int.sign_eq_neg_one_of_neg hneg, Int.sign_eq_neg_one_of_neg (hlow.trans hneg)])
  · rw [Int.abs_eq_natAbs, Int.abs_eq_natAbs]
    omega

/-- Arithmetic on operands that count as integers `x` and `y`. Sum, difference and product are exact or real.
Only a zero divisor is a fault, one of the content. A quotient is the integer `q` exactly if `x = q · y`, and
a real if no integer of 64 bits is. A remainder is that of floored division, and steps that stop at the ends of
the range form the same one. -/
theorem integer_arithmetic_exact (a b : Value) (x y : Int64) (ha : a.toNumber = .ok (.integer x))
    (hb : b.toNumber = .ok (.integer y)) :
    ExactOr (add a b) (x.toInt + y.toInt) ((Double.ofInt x.toInt).add (Double.ofInt y.toInt)) ∧
    ExactOr (sub a b) (x.toInt - y.toInt) ((Double.ofInt x.toInt).sub (Double.ofInt y.toInt)) ∧
    ExactOr (mul a b) (x.toInt * y.toInt) ((Double.ofInt x.toInt).mul (Double.ofInt y.toInt)) ∧
    ((∃ f : Fault, f.family = .conversion ∧ div a b = .error f) ↔ y = 0) ∧
    (y ≠ 0 → (∀ q : Int64, div a b = .ok (.integer q) ↔ x.toInt = q.toInt * y.toInt) ∧
      ((∀ q : Int64, x.toInt ≠ q.toInt * y.toInt) →
        div a b = .ok (.float ((Double.ofInt x.toInt).div (Double.ofInt y.toInt))))) ∧
    ((∃ f : Fault, f.family = .conversion ∧ mod a b = .error f) ↔ y = 0) ∧
    (y ≠ 0 → ∃ r : Int64, mod a b = .ok (.integer r) ∧ IsFlooredRemainder x.toInt y.toInt r.toInt ∧
      Number.modWordBy Number.remWithin? Number.addWithin? x y = some r) := by
  refine ⟨exactOr_onNumbers ha hb "+" rfl, exactOr_onNumbers ha hb "-" rfl, exactOr_onNumbers ha hb "*" rfl,
    ?_, fun hy => ⟨div_eq_integer_iff ha hb hy, div_eq_float ha hb hy⟩, ?_, fun hy => ?_⟩
  · constructor
    · rintro ⟨f, -, hf⟩
      exact ((div_eq_error_iff ha hb).1 hf).1
    · intro hy
      exact ⟨.zeroDivisor, rfl, (div_eq_error_iff ha hb).2 ⟨hy, rfl⟩⟩
  · rw [mod_eq ha hb]
    constructor
    · rintro ⟨f, -, hf⟩
      by_contra hy
      rw [if_neg hy] at hf
      cases hf
    · intro hy
      exact ⟨.zeroModulus, rfl, if_pos hy⟩
  · exact ⟨Number.modWord x y, by rw [mod_eq ha hb, if_neg hy], isFlooredRemainder_modWord x hy,
      Number.modWordBy_within x y⟩

/-- The least integer by minus one: the quotient is past the range, the remainder is zero, and the difference
to one is a real. -/
theorem integer_arithmetic_exact_least :
    (∃ d, div (.string (ascii " -9223372036854775808 m")) (.integer (-1)) = .ok (.float d)) ∧
    mod (.string (ascii " -9223372036854775808 m")) (.integer (-1)) = .ok (.integer 0) ∧
    (∃ d, add (.string (ascii " -9223372036854775808 m")) (.integer (-1)) = .ok (.float d)) ∧
    mod (.integer (-7)) (.integer 3) = .ok (.integer 2) := by
  have hleast : (Value.string (ascii " -9223372036854775808 m")).toNumber = .ok (.integer Int64.minValue) := by
    decide +kernel
  obtain ⟨hadd, -, -, -, hdiv, -, hmod⟩ := integer_arithmetic_exact _ _ _ _ hleast
    (show (Value.integer (-1)).toNumber = .ok (.integer (-1)) from rfl)
  obtain ⟨-, -, -, -, -, -, hseven⟩ := integer_arithmetic_exact (.integer (-7)) (.integer 3) (-7) 3 rfl rfl
  refine ⟨⟨_, (hdiv (by decide)).2 fun q hq => ?_⟩, ?_, ⟨_, hadd.float (by decide)⟩, ?_⟩
  · have hlt := (fitsInt64_toInt q).2
    have hmin : Int64.minValue.toInt = -0x8000000000000000 := rfl
    have hone : (-1 : Int64).toInt = -1 := rfl
    rw [hmin, hone] at hq
    omega
  · obtain ⟨r, hr, -, hwithin⟩ := hmod (by decide)
    rw [hr, show r = 0 from (Option.some.inj hwithin).symm]
  · obtain ⟨r, hr, -, hwithin⟩ := hseven (by decide)
    rw [hr, show r = 2 from (Option.some.inj hwithin).symm]

end Value
end TagFormula

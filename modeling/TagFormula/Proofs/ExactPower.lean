import Mathlib.Algebra.Order.Ring.Abs
import Mathlib.Algebra.Order.Ring.Int
import Mathlib.Data.List.Basic
import Mathlib.Tactic.Linarith
import Mathlib.Tactic.Ring
import TagFormula.Value.Arithmetic

/-!
Powers of integers. Square and multiply gives up at the first product that leaves 64 bits, and it squares the
factor before it is needed. Main statement: it gives up only if the power itself leaves 64 bits, so a power is
an integer exactly where the exponent is natural and the exact power fits, and a real everywhere else.
-/

namespace TagFormula

/-- The integers that have 64 bits with a sign. -/
def FitsInt64 (i : Int) : Prop := -0x8000000000000000 ≤ i ∧ i < 0x8000000000000000

instance (i : Int) : Decidable (FitsInt64 i) := inferInstanceAs (Decidable (_ ∧ _))

theorem fitsInt64_toInt (r : Int64) : FitsInt64 r.toInt := ⟨r.le_toInt, r.toInt_lt⟩

theorem int64?_of_fits {i : Int} (h : FitsInt64 i) : int64? i = some (Int64.ofInt i) := if_pos h

theorem int64?_of_not_fits {i : Int} (h : ¬FitsInt64 i) : int64? i = none := if_neg h

theorem int64?_eq_some_iff {i : Int} {r : Int64} : int64? i = some r ↔ r.toInt = i := by
  constructor
  · intro h
    by_cases hi : FitsInt64 i
    · rw [int64?_of_fits hi] at h
      rw [← Option.some.inj h]
      exact Int64.toInt_ofInt_of_le hi.1 hi.2
    · rw [int64?_of_not_fits hi] at h
      cases h
  · rintro rfl
    rw [int64?_of_fits (fitsInt64_toInt r), Int64.ofInt_toInt]

/-- A product is kept as it is, or there is none. -/
theorem map_toInt_int64?_eq_some_iff {i j : Int} :
    (int64? i).map Int64.toInt = some j ↔ FitsInt64 i ∧ i = j := by
  constructor
  · intro h
    obtain ⟨r, hr, rfl⟩ := Option.map_eq_some_iff.1 h
    rw [← int64?_eq_some_iff.1 hr]
    exact ⟨fitsInt64_toInt r, rfl⟩
  · rintro ⟨hi, rfl⟩
    rw [int64?_of_fits hi, Option.map_some, int64?_eq_some_iff.1 (int64?_of_fits hi)]

/-! ### Bounds on products -/

/-- An integer lies between zero and its positive multiples. -/
theorem FitsInt64.of_mul {i s : Int} (hs : 1 ≤ s) (h : FitsInt64 (i * s)) : FitsInt64 i := by
  obtain ⟨hlow, hhigh⟩ := h
  rcases le_or_gt 0 i with hi | hi
  · exact ⟨by linarith, by nlinarith⟩
  · exact ⟨by nlinarith, by linarith⟩

/-- No square is `2 ^ 63`, so a square not above it is below. -/
theorem mul_self_lt_of_le {f : Int} (h : f * f ≤ 0x8000000000000000) : f * f < 0x8000000000000000 := by
  rw [← abs_mul_abs_self] at h ⊢
  have hf := abs_nonneg f
  rcases Int.lt_or_le |f| 3037000500 with hlt | hle
  · nlinarith
  · nlinarith

/-- The square is at most the absolute value of what it has a part in. -/
theorem FitsInt64.mul_self {i f : Int} {k : Nat} (hi : i ≠ 0) (hk : k ≠ 0)
    (h : FitsInt64 (i * (f * f) ^ k)) : FitsInt64 (f * f) := by
  have hsquare : 0 ≤ f * f := mul_self_nonneg f
  refine ⟨by linarith, mul_self_lt_of_le ?_⟩
  rcases hsquare.eq_or_lt with hzero | hpos
  · rw [← hzero]
    decide
  · have hpow : f * f ≤ (f * f) ^ k := le_self_pow₀ hpos hk
    obtain ⟨hlow, hhigh⟩ := h
    -- the absolute value of the product is at least the power of the square
    rcases lt_or_gt_of_ne hi with hneg | hpos
    · have hproduct : i * (f * f) ^ k ≤ -(f * f) ^ k := by nlinarith
      linarith
    · have hproduct : (f * f) ^ k ≤ i * (f * f) ^ k := by nlinarith
      linarith

namespace Number

/-! ### The products of square and multiply -/

/-- The result once the lowest bit of the exponent is spent. -/
def powNext (result factor : Int) (n : Nat) : Int := if n % 2 = 1 then result * factor else result

/-- The products that square and multiply forms on the way to `result · factor ^ n`, in their order, as they
are without a limit on their size. -/
def powProducts (result factor : Int) (n : Nat) : List Int :=
  if n = 0 then []
  else
    (if n % 2 = 1 then [result * factor] else [])
      ++ (if n / 2 = 0 then []
        else factor * factor :: powProducts (powNext result factor n) (factor * factor) (n / 2))
termination_by n
decreasing_by omega

/-- The lowest bit of the exponent goes to the result, the others to the square of the factor. -/
theorem powNext_mul_pow (result factor : Int) (n : Nat) :
    powNext result factor n * (factor * factor) ^ (n / 2) = result * factor ^ n := by
  have hn : factor ^ n = factor ^ (n % 2) * (factor * factor) ^ (n / 2) := by
    rw [← pow_two, ← pow_mul, ← pow_add, Nat.mod_add_div]
  rcases Nat.mod_two_eq_zero_or_one n with h | h
  · rw [powNext, hn, h, if_neg (by decide), pow_zero, one_mul]
  · rw [powNext, hn, h, if_pos rfl, pow_one, mul_assoc]

/-- One round: the lowest bit is spent, and the factor is squared if other bits are left. -/
theorem powExact?_of_ne_zero {result factor : Int} {n : Nat} (hn : n ≠ 0) : powExact? result factor n
    = (if n % 2 = 1 then (int64? (result * factor)).map Int64.toInt else some result).bind fun next =>
        if n / 2 = 0 then some next
        else ((int64? (factor * factor)).map Int64.toInt).bind fun square => powExact? next square (n / 2) := by
  rw [powExact?, dif_neg hn]
  by_cases hodd : n % 2 = 1
  · simp only [if_pos hodd]
    rfl
  · simp only [if_neg hodd]
    rfl

theorem multiply_eq_some_iff {result factor x : Int} {n : Nat} :
    (if n % 2 = 1 then (int64? (result * factor)).map Int64.toInt else some result) = some x ↔
      (∀ p ∈ (if n % 2 = 1 then [result * factor] else []), FitsInt64 p) ∧ powNext result factor n = x := by
  rw [powNext]
  split
  · rw [map_toInt_int64?_eq_some_iff, List.forall_mem_singleton]
  · simp

/-- Square and multiply gives the power if all its products have 64 bits, and nothing otherwise. -/
theorem powExact?_eq_some_iff (result factor : Int) (n : Nat) (x : Int) :
    powExact? result factor n = some x ↔
      (∀ p ∈ powProducts result factor n, FitsInt64 p) ∧ result * factor ^ n = x := by
  induction n using Nat.strong_induction_on generalizing result factor with
  | _ n ih =>
    by_cases hn : n = 0
    · rw [powExact?, powProducts]
      simp [hn]
    · rw [powExact?_of_ne_zero hn, powProducts, if_neg hn, List.forall_mem_append, ← powNext_mul_pow]
      simp only [Option.bind_eq_some_iff, multiply_eq_some_iff]
      by_cases hlast : n / 2 = 0
      · simp [hlast]
      · have hrest := ih (n / 2) (by omega) (powNext result factor n) (factor * factor)
        simp only [hlast, if_false, List.forall_mem_cons, Option.bind_eq_some_iff,
          map_toInt_int64?_eq_some_iff]
        constructor
        · rintro ⟨_, ⟨hnext, rfl⟩, _, ⟨hsquare, rfl⟩, h⟩
          obtain ⟨hproducts, hx⟩ := hrest.1 h
          exact ⟨⟨hnext, hsquare, hproducts⟩, hx⟩
        · rintro ⟨⟨hnext, hsquare, hproducts⟩, hx⟩
          exact ⟨_, ⟨hnext, rfl⟩, _, ⟨hsquare, rfl⟩, hrest.2 ⟨hproducts, hx⟩⟩

/-- Where the power has 64 bits, all products on the way to it do. The result becomes zero only with the
factor, and the square of a factor other than zero is no larger than the power. -/
theorem fitsInt64_of_mem_powProducts {result factor : Int} {n : Nat} (h : result ≠ 0 ∨ factor = 0)
    (hfits : FitsInt64 (result * factor ^ n)) : ∀ p ∈ powProducts result factor n, FitsInt64 p := by
  induction n using Nat.strong_induction_on generalizing result factor with
  | _ n ih =>
    by_cases hn : n = 0
    · rw [powProducts, if_pos hn]
      simp
    · have hnext : powNext result factor n ≠ 0 ∨ factor * factor = 0 := by
        rcases h with h | rfl
        · rcases eq_or_ne factor 0 with rfl | hf
          · exact Or.inr rfl
          · rw [powNext]
            split
            · exact Or.inl (mul_ne_zero h hf)
            · exact Or.inl h
        · exact Or.inr rfl
      rw [← powNext_mul_pow] at hfits
      rw [powProducts, if_neg hn, List.forall_mem_append]
      constructor
      · split
        · rename_i hodd
          rw [powNext, if_pos hodd] at hfits
          rw [List.forall_mem_singleton]
          rcases eq_or_ne factor 0 with rfl | hf
          · rw [mul_zero]
            decide
          · exact hfits.of_mul (one_le_pow₀ (mul_self_pos.2 hf))
        · simp
      · split
        · simp
        · rename_i hlast
          refine List.forall_mem_cons.2 ⟨?_, ih (n / 2) (by omega) hnext hfits⟩
          rcases hnext with hnext | hsquare
          · exact hfits.mul_self hnext hlast
          · rw [hsquare]
            decide

/-- The last product that goes to the result is the power. -/
theorem fitsInt64_of_powProducts {result factor : Int} {n : Nat} (h : FitsInt64 result)
    (hproducts : ∀ p ∈ powProducts result factor n, FitsInt64 p) : FitsInt64 (result * factor ^ n) := by
  induction n using Nat.strong_induction_on generalizing result factor with
  | _ n ih =>
    by_cases hn : n = 0
    · rwa [hn, pow_zero, mul_one]
    · rw [powProducts, if_neg hn, List.forall_mem_append] at hproducts
      have hnext : FitsInt64 (powNext result factor n) := by
        rw [powNext]
        split
        · rename_i hodd
          exact hproducts.1 _ (by simp [hodd])
        · exact h
      rw [← powNext_mul_pow]
      by_cases hlast : n / 2 = 0
      · rwa [hlast, pow_zero, mul_one]
      · rw [if_neg hlast, List.forall_mem_cons] at hproducts
        exact ih (n / 2) (by omega) hnext hproducts.2.2

/-- Square and multiply from one gives up exactly where the power leaves 64 bits. -/
theorem powExact?_one (b : Int) (n : Nat) : powExact? 1 b n = (int64? (b ^ n)).map Int64.toInt := by
  refine Option.ext fun x => ?_
  rw [powExact?_eq_some_iff, map_toInt_int64?_eq_some_iff, one_mul]
  refine and_congr_left fun _ => ⟨fun h => ?_, fun h => ?_⟩
  · rw [← one_mul (b ^ n)]
    exact fitsInt64_of_powProducts (by decide) h
  · exact fitsInt64_of_mem_powProducts (Or.inl one_ne_zero) (by rwa [one_mul])

/-! ### Exact results -/

theorem exactOr_eq_integer_iff {exact : Int} {rounded : Double} {r : Int64} :
    exactOr exact rounded = .integer r ↔ r.toInt = exact := by
  rw [← int64?_eq_some_iff, exactOr]
  cases int64? exact <;> simp

theorem exactOr_of_not_fits {exact : Int} (h : ¬FitsInt64 exact) (rounded : Double) :
    exactOr exact rounded = .real rounded := by
  rw [exactOr, int64?_of_not_fits h]
  rfl

theorem pow_integer (b e : Int64) : (integer b).pow (integer e)
    = if 0 ≤ e.toInt then exactOr (b.toInt ^ e.toInt.toNat) ((integer b).toDouble.pow (integer e).toDouble)
      else .real ((integer b).toDouble.pow (integer e).toDouble) := by
  have hsign : 0 ≤ e ↔ 0 ≤ e.toInt := Int64.le_iff_toInt_le
  simp only [pow, hsign, powExact?_one, exactOr]
  cases int64? (b.toInt ^ e.toInt.toNat) <;> simp

end Number

namespace Value

theorem operand_of_toNumber {v : Value} {x : Number} (op : String) (h : v.toNumber = .ok x) :
    v.operand op = .ok x := by
  cases v <;> first | exact h | cases h

theorem toValue_eq_integer_iff {x : Number} {r : Int64} : x.toValue = .integer r ↔ x = .integer r := by
  cases x <;> simp [Number.toValue]

/-- For operands that count as integers, the power is an integer exactly if the exponent is natural and that
integer is the exact power, and a real in all other cases. Where the exact power has 64 bits, so does every
product on the way to it, and square and multiply arrives there. -/
theorem pow_exact_or_real (x y : Value) (b e : Int64) (hx : x.toNumber = .ok (.integer b))
    (hy : y.toNumber = .ok (.integer e)) :
    (∀ r : Int64, pow x y = .ok (.integer r) ↔ 0 ≤ e.toInt ∧ r.toInt = b.toInt ^ e.toInt.toNat) ∧
    (¬(0 ≤ e.toInt ∧ FitsInt64 (b.toInt ^ e.toInt.toNat)) → ∃ d, pow x y = .ok (.float d)) ∧
    ∀ n : Nat, FitsInt64 (b.toInt ^ n) → (∀ p ∈ Number.powProducts 1 b.toInt n, FitsInt64 p) ∧
      Number.powExact? 1 b.toInt n = some (b.toInt ^ n) := by
  have hpow : pow x y = .ok ((Number.integer b).pow (.integer e)).toValue := by
    rw [pow, onNumbers, operand_of_toNumber "**" hx, operand_of_toNumber "**" hy]
    rfl
  refine ⟨fun r => ?_, fun h => ?_, fun n h => ?_⟩
  · rw [hpow, Except.ok.injEq, toValue_eq_integer_iff, Number.pow_integer]
    split
    · rename_i he
      simp [Number.exactOr_eq_integer_iff, he]
    · rename_i he
      simp [he]
  · rw [hpow, Number.pow_integer]
    split
    · rename_i he
      rw [Number.exactOr_of_not_fits fun hfits => h ⟨he, hfits⟩]
      exact ⟨_, rfl⟩
    · exact ⟨_, rfl⟩
  · have hloop : Number.powExact? 1 b.toInt n = some (b.toInt ^ n) := by
      rw [Number.powExact?_one]
      exact map_toInt_int64?_eq_some_iff.2 ⟨h, rfl⟩
    exact ⟨((Number.powExact?_eq_some_iff ..).1 hloop).1, hloop⟩

/-- `(-2) ** 63` is the least integer of 64 bits, and it comes from products that all fit. -/
theorem pow_exact_or_real_least : pow (.integer (-2)) (.string (ascii " 63rd")) = .ok (.integer Int64.minValue) ∧
    (∃ d, pow .empty (.integer (-1)) = .ok (.float d)) ∧
    ∀ p ∈ Number.powProducts 1 (-2) 63, FitsInt64 p := by
  have hx : (Value.integer (-2)).toNumber = .ok (.integer (-2)) := rfl
  have hy : (Value.string (ascii " 63rd")).toNumber = .ok (.integer 63) := by decide +kernel
  have h := pow_exact_or_real _ _ _ _ hx hy
  refine ⟨(h.1 _).2 ⟨by decide, by decide⟩, ?_, ?_⟩
  · exact (pow_exact_or_real .empty (.integer (-1)) 0 (-1) rfl rfl).2.1 fun h => absurd h.1 (by decide)
  · exact (h.2.2 63 (by decide)).1

end Value
end TagFormula

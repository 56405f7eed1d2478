import Mathlib.Algebra.Order.Field.Basic
import Mathlib.Algebra.Order.Field.Power
import Mathlib.Data.Rat.Cast.Order
import Mathlib.Tactic.FieldSimp
import Mathlib.Tactic.Linarith
import Mathlib.Tactic.NormNum
import Mathlib.Tactic.Positivity
import Mathlib.Tactic.Ring
import TagFormula.Double.Reader
import TagFormula.Proofs.NumberToken

/-!
Rounding of fractions. The words are taken as the rational numbers they stand for. Main statement: the word of
a fraction is the nearest of all finite words, the even one of two, and infinity exactly from the middle
between the largest finite word and `2 ^ 1024` on; and the same holds of a decimal with any exponent.
-/

namespace TagFormula

/-! ### The nearest integer -/

theorem natCast_div_eq (num : Nat) {den : Nat} (hden : 0 < den) :
    (num : ℚ) / den = (num / den : Nat) + (num % den : Nat) / den := by
  have hd : (den : ℚ) ≠ 0 := by exact_mod_cast hden.ne'
  have hnum : (num : ℚ) = den * (num / den : Nat) + (num % den : Nat) := by
    exact_mod_cast (Nat.div_add_mod num den).symm
  rw [div_eq_iff hd, add_mul, div_mul_cancel₀ _ hd, mul_comm]
  exact hnum

/-- A rounded quotient is off by less than a half, or by a half and even. -/
theorem roundHalfEven_spec (num : Nat) {den : Nat} (hden : 0 < den) :
    |(roundHalfEven num den : ℚ) - num / den| < 1 / 2 ∨
      |(roundHalfEven num den : ℚ) - num / den| = 1 / 2 ∧ roundHalfEven num den % 2 = 0 := by
  have hd : (0 : ℚ) < den := by exact_mod_cast hden
  have hr : ((num % den : Nat) : ℚ) / den < 1 := by
    rw [div_lt_one hd]
    exact_mod_cast Nat.mod_lt num hden
  have hr0 : (0 : ℚ) ≤ ((num % den : Nat) : ℚ) / den := by positivity
  rw [natCast_div_eq num hden, roundHalfEven]
  split
  · rename_i h
    have hlt : ((num % den : Nat) : ℚ) / den < 1 / 2 := by
      rw [div_lt_div_iff₀ hd two_pos]
      exact_mod_cast (by omega : num % den * 2 < 1 * den)
    left
    rw [abs_lt]
    constructor <;> linarith
  · split
    · rename_i h
      have hlt : 1 / 2 < ((num % den : Nat) : ℚ) / den := by
        rw [div_lt_div_iff₀ two_pos hd]
        exact_mod_cast (by omega : 1 * den < num % den * 2)
      left
      push_cast
      rw [abs_lt]
      constructor <;> linarith
    · have heq : ((num % den : Nat) : ℚ) / den = 1 / 2 := by
        rw [div_eq_div_iff hd.ne' two_ne_zero]
        exact_mod_cast (by omega : num % den * 2 = 1 * den)
      right
      rw [heq]
      rcases Nat.mod_two_eq_zero_or_one (num / den) with h | h
      · refine ⟨?_, by omega⟩
        rw [h]
        norm_num
      · refine ⟨?_, by omega⟩
        rw [h]
        push_cast
        norm_num

/-- No integer is nearer than one that is off by at most a half, and only then is another one as near. -/
theorem abs_sub_le_of_half {y : ℚ} {m : Nat}
    (hm : |(m : ℚ) - y| < 1 / 2 ∨ |(m : ℚ) - y| = 1 / 2 ∧ m % 2 = 0) (j : Nat) :
    |(m : ℚ) - y| ≤ |(j : ℚ) - y| ∧ (j ≠ m → |(m : ℚ) - y| = |(j : ℚ) - y| → m % 2 = 0) := by
  rcases eq_or_ne j m with rfl | hne
  · exact ⟨le_rfl, fun h => absurd rfl h⟩
  · have hone : (1 : ℚ) ≤ |(j : ℚ) - m| := by
      have hint : (1 : Int) ≤ |(j : Int) - m| := Int.one_le_abs (sub_ne_zero.2 (by exact_mod_cast hne))
      exact_mod_cast hint
    have htri : |(j : ℚ) - m| ≤ |(j : ℚ) - y| + |(m : ℚ) - y| := by
      rw [abs_sub_comm (m : ℚ) y]
      exact abs_sub_le _ _ _
    rcases hm with hm | ⟨hm, heven⟩
    · exact ⟨by linarith, fun _ heq => by linarith⟩
    · exact ⟨by linarith, fun _ _ => heven⟩

/-! ### Powers -/

/-- A power with an integer exponent, as the quotient of two natural ones. -/
theorem zpow_eq_div (b : Nat) (e : Int) :
    (b : ℚ) ^ e = ((b ^ e.toNat : Nat) : ℚ) / ((b ^ (-e).toNat : Nat) : ℚ) := by
  rcases Int.le_total 0 e with h | h
  · obtain ⟨n, rfl⟩ := Int.eq_ofNat_of_zero_le h
    simp
  · obtain ⟨n, hn⟩ := Int.eq_ofNat_of_zero_le (Int.neg_nonneg.2 h)
    obtain rfl : e = -n := by omega
    simp [zpow_neg]

/-- Comparing a fraction with a power of two, in natural numbers. -/
theorem div_lt_two_zpow_iff {num den : Nat} (hden : 0 < den) (k : Int) :
    (num / den : ℚ) < 2 ^ k ↔ num * Nat.pow 2 (-k).toNat < den * Nat.pow 2 k.toNat := by
  have hd : (0 : ℚ) < den := by exact_mod_cast hden
  have hp : (0 : ℚ) < ((2 ^ (-k).toNat : Nat) : ℚ) := by positivity
  have hk : (2 : ℚ) ^ k = _ := zpow_eq_div 2 k
  rw [hk, div_lt_div_iff₀ hd hp, mul_comm ((2 ^ k.toNat : Nat) : ℚ)]
  exact_mod_cast Iff.rfl

/-- A fraction lies between its largest power of two and the next one. -/
theorem floorLogTwo_spec {num den : Nat} (hnum : 0 < num) (hden : 0 < den) :
    (2 : ℚ) ^ floorLogTwo num den ≤ num / den ∧ (num / den : ℚ) < 2 ^ (floorLogTwo num den + 1) := by
  have hd : (0 : ℚ) < den := by exact_mod_cast hden
  have hn1 : (2 : ℚ) ^ (num.log2 : Int) ≤ num := by exact_mod_cast Nat.log2_self_le hnum.ne'
  have hn2 : (num : ℚ) < 2 ^ ((num.log2 : Int) + 1) := by exact_mod_cast Nat.lt_log2_self (n := num)
  have hd1 : (2 : ℚ) ^ (den.log2 : Int) ≤ den := by exact_mod_cast Nat.log2_self_le hden.ne'
  have hd2 : (den : ℚ) < 2 ^ ((den.log2 : Int) + 1) := by exact_mod_cast Nat.lt_log2_self (n := den)
  -- the quotient of the leading powers is less than a factor of two away
  have hlow : (2 : ℚ) ^ ((num.log2 : Int) - den.log2 - 1) ≤ num / den := by
    rw [le_div_iff₀ hd]
    calc (2 : ℚ) ^ ((num.log2 : Int) - den.log2 - 1) * den
        ≤ 2 ^ ((num.log2 : Int) - den.log2 - 1) * 2 ^ ((den.log2 : Int) + 1) := by gcongr
      _ = 2 ^ (num.log2 : Int) := by rw [← zpow_add₀ two_ne_zero]; congr 1; ring
      _ ≤ num := hn1
  have hhigh : (num / den : ℚ) < 2 ^ ((num.log2 : Int) - den.log2 + 1) := by
    rw [div_lt_iff₀ hd]
    calc (num : ℚ) < 2 ^ ((num.log2 : Int) + 1) := hn2
      _ = 2 ^ ((num.log2 : Int) - den.log2 + 1) * 2 ^ (den.log2 : Int) := by
        rw [← zpow_add₀ two_ne_zero]; congr 1; ring
      _ ≤ 2 ^ ((num.log2 : Int) - den.log2 + 1) * den := by gcongr
  rw [floorLogTwo]
  split
  · rename_i h
    rw [sub_add_cancel]
    exact ⟨hlow, (div_lt_two_zpow_iff hden _).2 h⟩
  · rename_i h
    exact ⟨not_lt.1 fun hlt => h ((div_lt_two_zpow_iff hden _).1 hlt), hhigh⟩

namespace Double

/-! ### Words as numbers -/

/-- The absolute value of a finite word. -/
def size (d : Double) : ℚ := d.significand * 2 ^ d.exponent

/-- The number that a finite word stands for. -/
def value (d : Double) : ℚ := if d.isNegative then -d.size else d.size

theorem size_nonneg (d : Double) : 0 ≤ d.size := by
  rw [size]
  positivity

theorem magnitude_eq_mod (d : Double) : d.magnitude = d.bits.toNat % 0x8000000000000000 := by
  rw [magnitude, UInt64.toNat_and]
  exact Nat.and_two_pow_sub_one_eq_mod _ 63

theorem toNat_bits_ofParts (negative : Bool) {w : Nat} (h : w < 0x8000000000000000) :
    (ofParts negative w).bits.toNat = (if negative then 0x8000000000000000 else 0) + w := by
  have hw : w.toUInt64.toNat = w := by simp; omega
  cases negative with
  | false => simp [ofParts, hw]
  | true =>
    have hor : 2 ^ 63 * 1 + w = 2 ^ 63 * 1 ||| w := Nat.two_pow_add_eq_or_of_lt h 1
    rw [ofParts, UInt64.toNat_or, hw, if_pos rfl, if_pos rfl]
    exact hor.symm

theorem magnitude_ofParts (negative : Bool) {w : Nat} (h : w < 0x8000000000000000) :
    (ofParts negative w).magnitude = w := by
  rw [magnitude_eq_mod, toNat_bits_ofParts negative h]
  split <;> omega

theorem isNegative_ofParts (negative : Bool) {w : Nat} (h : w < 0x8000000000000000) :
    (ofParts negative w).isNegative = negative := by
  rw [Bool.eq_iff_iff, isNegative, decide_eq_true_eq, UInt64.le_iff_toNat_le,
    toNat_bits_ofParts negative h, show (0x8000000000000000 : UInt64).toNat = 0x8000000000000000 from rfl]
  cases negative with
  | false => exact ⟨fun hle => by simp only [Bool.false_eq_true, if_false] at hle; omega, fun hf => by cases hf⟩
  | true => exact ⟨fun _ => rfl, fun _ => by rw [if_pos rfl]; omega⟩

theorem isNegative_ofFraction (negative : Bool) (num den : Nat) :
    (ofFraction negative num den).isNegative = negative := by
  rw [ofFraction]
  split
  · exact isNegative_ofParts negative (by decide)
  · exact isNegative_ofParts negative ((Nat.min_le_right _ _).trans_lt (by decide))

/-- The word of `m` steps of `2 ^ (e - 1074)`. Steps past the last fraction go to the next exponent. -/
theorem size_of_magnitude {d : Double} {e m : Nat} (hd : d.magnitude = e * fractionSize + m)
    (hm : m ≤ 2 * fractionSize) (hnormal : e = 0 ∨ fractionSize ≤ m) :
    d.size = m * 2 ^ ((e : Int) - 1074) := by
  have hfields : ∀ field fraction : Nat, e * fractionSize + m = field * fractionSize + fraction →
      fraction < fractionSize → d.size
        = (if field = 0 then fraction else fractionSize + fraction : Nat) * 2 ^ ((max field 1 : Int) - 1075) := by
    intro field fraction heq hlt
    have hfield : d.exponentField = field := by
      rw [exponentField, hd, heq, mul_comm, Nat.mul_add_div (by decide), Nat.div_eq_of_lt hlt, add_zero]
    have hfraction : d.magnitude % fractionSize = fraction := by
      rw [hd, heq, mul_comm, Nat.mul_add_mod, Nat.mod_eq_of_lt hlt]
    rw [size, significand, exponent, hfield, hfraction]
  rcases Nat.lt_or_ge m fractionSize with hlow | hhigh
  · obtain rfl : e = 0 := hnormal.resolve_right (by omega)
    rw [hfields 0 m rfl hlow]
    rfl
  · rcases Nat.lt_or_ge m (2 * fractionSize) with hlt | hge
    · have hsteps : fractionSize + (m - fractionSize) = m := by omega
      have hexponent : (max (e + 1 : Nat) 1 : Int) - 1075 = e - 1074 := by omega
      rw [hfields (e + 1) (m - fractionSize) (by rw [add_mul]; omega) (by omega), if_neg (by omega), hsteps,
        hexponent]
    · obtain rfl : m = 2 * fractionSize := by omega
      have hexponent : (max (e + 2 : Nat) 1 : Int) - 1075 = (e - 1074) + 1 := by omega
      rw [hfields (e + 2) 0 (by rw [add_mul]; omega) (by decide), if_neg (by omega), hexponent,
        zpow_add_one₀ two_ne_zero]
      push_cast
      ring

theorem size_of_magnitude_eq_zero {d : Double} (h : d.magnitude = 0) : d.size = 0 := by
  rw [size_of_magnitude (e := 0) (m := 0) h (by decide) (Or.inl rfl), Nat.cast_zero, zero_mul]

theorem significand_lt (d : Double) : d.significand < 0x20000000000000 := by
  rw [significand, fractionSize]
  split <;> omega

theorem neg_le_exponent (d : Double) : -1074 ≤ d.exponent := by
  rw [exponent]
  omega

/-- A word is a multiple of a given power of two, or it is small against it. -/
theorem size_cases (d : Double) (q : Int) :
    (∃ j : Nat, d.size = j * 2 ^ q) ∨ d.exponent < q ∧ d.size < 2 ^ 52 * 2 ^ q := by
  rcases Int.lt_or_le d.exponent q with h | h
  · right
    refine ⟨h, ?_⟩
    have hsig : (d.significand : ℚ) < 2 ^ (53 : Int) := by
      exact_mod_cast d.significand_lt
    calc d.size < 2 ^ (53 : Int) * 2 ^ d.exponent := by
          rw [size]
          gcongr
      _ = 2 ^ (53 + d.exponent) := by rw [zpow_add₀ two_ne_zero]
      _ ≤ 2 ^ (52 + q) := zpow_le_zpow_right₀ one_le_two (by omega)
      _ = 2 ^ 52 * 2 ^ q := by rw [zpow_add₀ two_ne_zero]; norm_num
  · left
    obtain ⟨n, hn⟩ := Int.eq_ofNat_of_zero_le (Int.sub_nonneg.2 h)
    refine ⟨d.significand * 2 ^ n, ?_⟩
    have he : d.exponent = n + q := by omega
    rw [size, he, zpow_add₀ two_ne_zero]
    push_cast
    rw [zpow_natCast, mul_assoc]

/-- The nearest multiple of the spacing is the nearest of all words, if the spacing is not too wide. -/
theorem abs_sub_size_le {x : ℚ} {q : Int} {m : Nat} (hround : |(m : ℚ) - x / 2 ^ q| < 1 / 2 ∨
      |(m : ℚ) - x / 2 ^ q| = 1 / 2 ∧ m % 2 = 0) (hq : q = -1074 ∨ 2 ^ 52 ≤ x / 2 ^ q) (d : Double) :
    |m * 2 ^ q - x| ≤ |d.size - x| ∧
      (d.size ≠ m * 2 ^ q → |m * 2 ^ q - x| = |d.size - x| → m % 2 = 0) := by
  have hp : (0 : ℚ) < 2 ^ q := by positivity
  have hscale : ∀ j : Nat, |(j : ℚ) * 2 ^ q - x| = |(j : ℚ) - x / 2 ^ q| * 2 ^ q := by
    intro j
    rw [← abs_of_pos hp, ← abs_mul, abs_of_pos hp, sub_mul, div_mul_cancel₀ _ hp.ne']
  rcases d.size_cases q with ⟨j, hj⟩ | ⟨hexp, hsmall⟩
  · obtain ⟨hle, heven⟩ := abs_sub_le_of_half hround j
    rw [hj, hscale, hscale]
    refine ⟨by gcongr, fun hne heq => heven (fun hjm => hne (by rw [hjm])) ?_⟩
    exact mul_right_cancel₀ hp.ne' heq
  · -- the power of two below `x` is a multiple of the spacing, and lies between the word and `x`
    have hnormal : (2 ^ 52 : ℚ) ≤ x / 2 ^ q := by
      have := d.neg_le_exponent
      exact hq.resolve_left (by omega)
    have hx : 2 ^ 52 * 2 ^ q ≤ x := (le_div_iff₀ hp).1 hnormal
    have hbase := (abs_sub_le_of_half hround (2 ^ 52)).1
    have hpower : |(m : ℚ) * 2 ^ q - x| ≤ x - 2 ^ 52 * 2 ^ q := by
      calc |(m : ℚ) * 2 ^ q - x| ≤ |((2 ^ 52 : Nat) : ℚ) * 2 ^ q - x| := by
            rw [hscale, hscale]
            gcongr
        _ = x - 2 ^ 52 * 2 ^ q := by
            rw [Nat.cast_pow, Nat.cast_ofNat, abs_sub_comm, abs_of_nonneg (by linarith)]
    have hword : x - 2 ^ 52 * 2 ^ q < |d.size - x| := by
      rw [abs_sub_comm, abs_of_nonneg (by linarith)]
      linarith
    exact ⟨by linarith, fun _ heq => by linarith⟩

/-! ### The nearest word -/

/-- The middle between the largest finite word and `2 ^ 1024`. -/
def overflow : ℚ := 2 ^ 1024 - 2 ^ 970

/-- The word that a number is rounded to: the nearest finite one, of two the even one, and an infinity where
the next word would be `2 ^ 1024`. -/
structure IsNearest (x : ℚ) (d : Double) : Prop where
  finite : |x| < overflow → d.isFinite
  nearest : |x| < overflow → ∀ e : Double, e.isFinite → |d.value - x| ≤ |e.value - x|
  even : |x| < overflow → ∀ e : Double, e.isFinite → e.value ≠ d.value →
    |d.value - x| = |e.value - x| → d.magnitude % 2 = 0
  infinite : overflow ≤ |x| → d = infinity (x < 0)

/-- What is rounded to `m` steps of `2 ^ q`, with a spacing as fine as the words have it there. -/
structure RoundsTo (x : ℚ) (q : Int) (m : Nat) : Prop where
  spacing : -1074 ≤ q
  half : |(m : ℚ) - x / 2 ^ q| < 1 / 2 ∨ |(m : ℚ) - x / 2 ^ q| = 1 / 2 ∧ m % 2 = 0
  below : x / 2 ^ q < 2 ^ 53
  normal : q = -1074 ∨ 2 ^ 52 ≤ x / 2 ^ q

theorem roundsTo_ofFraction {num den : Nat} (hnum : 0 < num) (hden : 0 < den) :
    let q : Int := max (floorLogTwo num den - 52) (-1074)
    RoundsTo (num / den) q (roundHalfEven (num * Nat.pow 2 (-q).toNat) (den * Nat.pow 2 q.toNat)) := by
  intro q
  obtain ⟨hlow, hhigh⟩ := floorLogTwo_spec hnum hden
  have hp : (0 : ℚ) < 2 ^ q := by positivity
  have hscaled : (num / den : ℚ) / 2 ^ q
      = (num * Nat.pow 2 (-q).toNat : Nat) / (den * Nat.pow 2 q.toNat : Nat) := by
    have hq : (2 : ℚ) ^ q = _ := zpow_eq_div 2 q
    rw [hq, div_div_div_eq, Nat.cast_mul, Nat.cast_mul]
    rfl
  refine ⟨le_max_right _ _, ?_, ?_, ?_⟩
  · rw [hscaled]
    exact roundHalfEven_spec _ (Nat.mul_pos hden (Nat.two_pow_pos _))
  · rw [div_lt_iff₀ hp]
    calc (num / den : ℚ) < 2 ^ (floorLogTwo num den + 1) := hhigh
      _ ≤ 2 ^ (53 + q) := zpow_le_zpow_right₀ one_le_two (by omega)
      _ = 2 ^ 53 * 2 ^ q := by rw [zpow_add₀ two_ne_zero]; norm_num
  · rcases max_choice (floorLogTwo num den - 52) (-1074) with h | h
    · right
      rw [le_div_iff₀ hp]
      calc (2 ^ 52 * 2 ^ q : ℚ) = 2 ^ (52 + q) := by rw [zpow_add₀ two_ne_zero]; norm_num
        _ ≤ 2 ^ floorLogTwo num den := zpow_le_zpow_right₀ one_le_two (by omega)
        _ ≤ num / den := hlow
    · exact Or.inl h

theorem overflow_eq : overflow = (2 ^ 53 - 1 / 2) * 2 ^ (971 : Int) := by
  have hlast : (2 : ℚ) ^ (971 : Int) = 2 ^ 970 * 2 := by
    rw [show (971 : Int) = ((970 + 1 : Nat) : Int) from rfl, zpow_natCast, pow_succ]
  have htop : (2 : ℚ) ^ 1024 = 2 ^ 53 * (2 ^ 970 * 2) := by rw [← pow_succ, ← pow_add]
  rw [overflow, hlast, htop]
  generalize (2 : ℚ) ^ 970 = p
  ring

section

variable {x : ℚ} {q : Int} {m : Nat} (h : RoundsTo x q m)
include h

theorem RoundsTo.bounds : x / 2 ^ q - 1 / 2 ≤ m ∧ (m : ℚ) ≤ x / 2 ^ q + 1 / 2 := by
  have hle : |(m : ℚ) - x / 2 ^ q| ≤ 1 / 2 := by
    rcases h.half with hlt | ⟨heq, -⟩
    · exact hlt.le
    · exact heq.le
  obtain ⟨hlow, hhigh⟩ := abs_le.1 hle
  constructor <;> linarith

theorem RoundsTo.le : m ≤ 2 * fractionSize := by
  have hlt : (m : ℚ) < (2 ^ 53 + 1 : Nat) := by
    push_cast
    linarith [h.bounds.2, h.below]
  have := Nat.cast_lt.1 hlt
  rw [fractionSize]
  omega

theorem RoundsTo.le_of_ne (hq : q ≠ -1074) : fractionSize ≤ m := by
  have hlt : ((2 ^ 52 : Nat) : ℚ) < (m + 1 : Nat) := by
    push_cast
    linarith [h.bounds.1, h.normal.resolve_left hq]
  have := Nat.cast_lt.1 hlt
  rw [fractionSize]
  omega

/-- The exponent of the last finite words is reached only near the limit. -/
theorem RoundsTo.spacing_le (hx : x < overflow) : q ≤ 971 := by
  rcases h.normal with hq | hnormal
  · omega
  · have hp : (0 : ℚ) < 2 ^ q := by positivity
    have hlt : (2 : ℚ) ^ (52 + q) < 2 ^ (1024 : Int) := by
      calc (2 : ℚ) ^ (52 + q) = 2 ^ 52 * 2 ^ q := by rw [zpow_add₀ two_ne_zero]; norm_num
        _ ≤ x := (le_div_iff₀ hp).1 hnormal
        _ < overflow := hx
        _ ≤ 2 ^ (1024 : Int) := sub_le_self _ (by positivity)
    have := (zpow_lt_zpow_iff_right₀ one_lt_two).1 hlt
    omega

theorem RoundsTo.le_spacing (hx : overflow ≤ x) : 971 ≤ q := by
  have hp : (0 : ℚ) < 2 ^ q := by positivity
  have hlt : (2 : ℚ) ^ (1023 : Int) < 2 ^ (53 + q) := by
    calc (2 : ℚ) ^ (1023 : Int) = 2 ^ 52 * 2 ^ (971 : Int) := by
          rw [← zpow_natCast, ← zpow_add₀ two_ne_zero]
          rfl
      _ ≤ overflow := by
          rw [overflow_eq]
          gcongr
          norm_num
      _ ≤ x := hx
      _ < 2 ^ 53 * 2 ^ q := (div_lt_iff₀ hp).1 h.below
      _ = 2 ^ (53 + q) := by rw [zpow_add₀ two_ne_zero]; norm_num
  have := (zpow_lt_zpow_iff_right₀ one_lt_two).1 hlt
  omega

/-- The word is finite exactly below the middle of the last step. -/
theorem RoundsTo.word_lt_iff : (q + 1074).toNat * fractionSize + m < infinityWord ↔ x < overflow := by
  have hle := h.le
  have hp : (0 : ℚ) < 2 ^ (971 : Int) := by positivity
  rw [fractionSize] at hle
  rw [fractionSize, infinityWord]
  constructor
  · intro hword
    by_contra hx
    rw [not_lt] at hx
    have hq := h.le_spacing hx
    have hnormal := h.le_of_ne (by omega)
    rw [fractionSize] at hnormal
    obtain rfl : q = 971 := by omega
    have hlast : 2 ^ 53 - 1 / 2 ≤ x / 2 ^ (971 : Int) := by
      rwa [le_div_iff₀ hp, ← overflow_eq]
    have hm : ((m + 1 : Nat) : ℚ) ≤ (2 ^ 53 : Nat) := Nat.cast_le.2 (by omega)
    push_cast at hm
    -- the last word is odd, so the middle is rounded away from it
    rcases h.half with hlt | ⟨heq, heven⟩
    · have := (abs_lt.1 hlt).1
      linarith
    · have hge : ((2 ^ 53 : Nat) : ℚ) ≤ (m + 1 : Nat) := by
        push_cast
        linarith [h.bounds.1]
      have := Nat.cast_le.1 hge
      omega
  · intro hx
    have hq := h.spacing_le hx
    rcases eq_or_ne q 971 with rfl | hne
    · have hlast : x / 2 ^ (971 : Int) < 2 ^ 53 - 1 / 2 := by
        rwa [div_lt_iff₀ hp, ← overflow_eq]
      have hlt : (m : ℚ) < (2 ^ 53 : Nat) := by
        push_cast
        linarith [h.bounds.2]
      have := Nat.cast_lt.1 hlt
      omega
    · omega

/-- The word of so many steps has their size. -/
theorem RoundsTo.size_eq {d : Double} (hd : d.magnitude = (q + 1074).toNat * fractionSize + m) :
    d.size = m * 2 ^ q := by
  have hq := h.spacing
  have hnormal : (q + 1074).toNat = 0 ∨ fractionSize ≤ m := by
    rcases eq_or_ne q (-1074) with rfl | hne
    · exact Or.inl rfl
    · exact Or.inr (h.le_of_ne hne)
  rw [size_of_magnitude hd h.le hnormal]
  congr 2
  omega

end

/-- A number with a sign. -/
def signed (negative : Bool) (x : ℚ) : ℚ := if negative then -x else x

theorem value_eq (d : Double) : d.value = signed d.isNegative d.size := rfl

theorem abs_signed (negative : Bool) (x : ℚ) : |signed negative x| = |x| := by
  cases negative with
  | false => rfl
  | true => exact abs_neg x

theorem abs_signed_sub_signed (negative : Bool) (a x : ℚ) :
    |signed negative a - signed negative x| = |a - x| := by
  cases negative with
  | false => rfl
  | true => rw [signed, signed, if_pos rfl, if_pos rfl, neg_sub_neg, abs_sub_comm]

/-- Across zero, distances add up. -/
theorem abs_signed_sub_of_ne {s t : Bool} (hst : s ≠ t) {a x : ℚ} (ha : 0 ≤ a) (hx : 0 ≤ x) :
    |signed s a - signed t x| = a + x := by
  cases s <;> cases t
  · exact absurd rfl hst
  · rw [signed, signed, if_neg (by decide), if_pos rfl, sub_neg_eq_add, abs_of_nonneg (by linarith)]
  · rw [signed, signed, if_pos rfl, if_neg (by decide), ← neg_add', abs_neg, abs_of_nonneg (by linarith)]
  · exact absurd rfl hst

theorem one_le_overflow : 1 ≤ overflow := by
  have hp : (1 : ℚ) ≤ 2 ^ (971 : Int) := one_le_zpow₀ one_le_two (by decide)
  rw [overflow_eq]
  exact one_le_mul_of_one_le_of_one_le (by norm_num) hp

theorem overflow_pos : 0 < overflow := one_pos.trans_le one_le_overflow

/-- What is nearest among absolute values is nearest among numbers with a sign. -/
theorem isNearest_of_size {d : Double} {x : ℚ} (hx : 0 ≤ x) (hlt : x < overflow) (hd : d.isFinite)
    (h : ∀ e : Double, |d.size - x| ≤ |e.size - x| ∧
      (e.size ≠ d.size → |d.size - x| = |e.size - x| → d.magnitude % 2 = 0)) :
    IsNearest (signed d.isNegative x) d := by
  have hnear : ∀ e : Double, |d.value - signed d.isNegative x| ≤ |e.value - signed d.isNegative x| ∧
      (e.value ≠ d.value → |d.value - signed d.isNegative x| = |e.value - signed d.isNegative x| →
        d.magnitude % 2 = 0) := by
    intro e
    obtain ⟨hle, heven⟩ := h e
    rw [value_eq d, abs_signed_sub_signed, value_eq e]
    rcases eq_or_ne e.isNegative d.isNegative with hs | hs
    · rw [hs, abs_signed_sub_signed]
      exact ⟨hle, fun hne => heven fun hsize => hne (by rw [hsize])⟩
    · rw [abs_signed_sub_of_ne hs e.size_nonneg hx]
      have hfar : |e.size - x| ≤ e.size + x := by
        rw [abs_le]
        constructor <;> linarith [e.size_nonneg]
      refine ⟨hle.trans hfar, fun hne heq => heven (fun hsize => hne ?_) (le_antisymm hle (heq ▸ hfar))⟩
      -- only zero has the same distance on both sides
      have hzero : d.size = 0 := by
        have hnear := (h zero).1
        rw [size_of_magnitude_eq_zero (show zero.magnitude = 0 from rfl), zero_sub, abs_neg,
          abs_of_nonneg hx, heq, hsize] at hnear
        linarith [d.size_nonneg]
      rw [hsize, hzero, signed, signed, neg_zero, ite_self, ite_self]
  refine ⟨fun _ => hd, fun _ e _ => (hnear e).1, fun _ e _ => (hnear e).2, fun hle => ?_⟩
  rw [abs_signed, abs_of_nonneg hx] at hle
  exact absurd hlt (not_lt.2 hle)

/-- A word other than zero is at least the smallest one. -/
theorem le_size_of_ne_zero {d : Double} (h : d.size ≠ 0) : (2 : ℚ) ^ (-1074 : Int) ≤ d.size := by
  have hsig : (1 : ℚ) ≤ d.significand := by
    rw [Nat.one_le_cast]
    refine Nat.one_le_iff_ne_zero.2 fun hzero => h ?_
    rw [size, hzero, Nat.cast_zero, zero_mul]
  calc (2 : ℚ) ^ (-1074 : Int) ≤ 2 ^ d.exponent := zpow_le_zpow_right₀ one_le_two d.neg_le_exponent
    _ ≤ d.significand * 2 ^ d.exponent := le_mul_of_one_le_left (by positivity) hsig

/-- What is nearer to zero than to the smallest word becomes zero. -/
theorem isNearest_tiny (negative : Bool) {x : ℚ} (hx : 0 ≤ x) (hlt : x < 10 ^ (-330 : Int)) :
    IsNearest (signed negative x) (ofParts negative 0) := by
  have hpow : (2 ^ 1075 : Nat) ≤ 10 ^ 330 := by decide +kernel
  have hhalf : 2 * x < 2 ^ (-1074 : Int) := by
    calc 2 * x < 2 * 10 ^ (-330 : Int) := by linarith
      _ ≤ 2 * 2 ^ (-1075 : Int) := by
          rw [zpow_neg, zpow_neg]
          gcongr
          exact_mod_cast hpow
      _ = 2 ^ (-1074 : Int) := by rw [← zpow_one_add₀ two_ne_zero]; rfl
  have hone : (2 : ℚ) ^ (-1074 : Int) ≤ 1 := zpow_le_one_of_nonpos₀ one_le_two (by decide)
  have hmagnitude : (ofParts negative 0).magnitude = 0 := magnitude_ofParts negative (by decide)
  have hsize : (ofParts negative 0).size = 0 := size_of_magnitude_eq_zero hmagnitude
  have hnear := isNearest_of_size (d := ofParts negative 0) hx (lt_of_lt_of_le (by linarith) one_le_overflow)
    (by rw [isFinite, hmagnitude]; rfl) fun e => by
      rw [hsize, hmagnitude, zero_sub, abs_neg, abs_of_nonneg hx]
      refine ⟨?_, fun _ _ => rfl⟩
      rcases eq_or_ne e.size 0 with he | he
      · rw [he, zero_sub, abs_neg, abs_of_nonneg hx]
      · have hle := le_size_of_ne_zero he
        rw [abs_of_nonneg (by linarith)]
        linarith
  rwa [isNegative_ofParts negative (by decide)] at hnear

theorem isNearest_infinity (negative : Bool) {x : ℚ} (hx : overflow ≤ x) :
    IsNearest (signed negative x) (infinity negative) := by
  have hpos : 0 < x := overflow_pos.trans_le hx
  have habs : ¬|signed negative x| < overflow := by
    rw [abs_signed, abs_of_pos hpos]
    exact not_lt.2 hx
  refine ⟨fun h => absurd h habs, fun h => absurd h habs, fun h => absurd h habs, fun _ => ?_⟩
  cases negative with
  | false => rw [signed, if_neg (by decide), decide_eq_false (not_lt.2 hpos.le)]
  | true => rw [signed, if_pos rfl, decide_eq_true (neg_neg_of_pos hpos)]

theorem isNearest_of_roundsTo (negative : Bool) {x : ℚ} {q : Int} {m : Nat} (hx : 0 ≤ x)
    (h : RoundsTo x q m) : IsNearest (signed negative x)
      (ofParts negative (min ((q + 1074).toNat * fractionSize + m) infinityWord)) := by
  have hword := h.word_lt_iff
  generalize hw : (q + 1074).toNat * fractionSize + m = word at hword ⊢
  rcases lt_or_ge x overflow with hlt | hge
  · have hfinite : word < infinityWord := hword.2 hlt
    have hrange : word < 0x8000000000000000 := hfinite.trans (by decide)
    have hmagnitude : (ofParts negative word).magnitude = word := magnitude_ofParts negative hrange
    have hsize : (ofParts negative word).size = m * 2 ^ q := h.size_eq (hmagnitude.trans hw.symm)
    have hparity : (ofParts negative word).magnitude % 2 = m % 2 := by
      rw [hmagnitude, ← hw, fractionSize]
      omega
    have hnear := isNearest_of_size (d := ofParts negative word) hx hlt
      (by rw [isFinite, hmagnitude]; exact decide_eq_true hfinite)
      (fun e => by rw [hsize, hparity]; exact abs_sub_size_le h.half h.normal e)
    rwa [isNegative_ofParts negative hrange, ← min_eq_left hfinite.le] at hnear
  · have hinfinite : infinityWord ≤ word := not_lt.1 fun hfinite => absurd (hword.1 hfinite) (not_lt.2 hge)
    rw [min_eq_right hinfinite]
    exact isNearest_infinity negative hge

/-- The word of a fraction is the nearest one. -/
theorem isNearest_ofFraction (negative : Bool) (num : Nat) {den : Nat} (hden : 0 < den) :
    IsNearest (signed negative (num / den)) (ofFraction negative num den) := by
  rcases Nat.eq_zero_or_pos num with rfl | hnum
  · rw [Nat.cast_zero, zero_div, ofFraction, if_pos rfl]
    exact isNearest_tiny negative le_rfl (by positivity)
  · rw [ofFraction, if_neg hnum.ne']
    exact isNearest_of_roundsTo negative (by positivity) (roundsTo_ofFraction hnum hden)

/-- The word of an integer is the nearest one. -/
theorem isNearest_ofInt (i : Int) : IsNearest i (ofInt i) := by
  have hnear := isNearest_ofFraction (i < 0) i.natAbs Nat.one_pos
  have hvalue : signed (i < 0) ((i.natAbs : ℚ) / (1 : Nat)) = i := by
    rw [Nat.cast_one, div_one, signed, Nat.cast_natAbs]
    rcases lt_or_ge i 0 with hi | hi
    · rw [if_pos (decide_eq_true hi), abs_of_neg hi, Int.cast_neg, neg_neg]
    · rw [if_neg (by simpa using hi), abs_of_nonneg hi]
  rwa [hvalue] at hnear

/-! ### Decimals -/

theorem pow_length_ofNat_le {m : Nat} (hm : 0 < m) :
    10 ^ ((Text.ofNat m).length - 1) ≤ m ∧ m < 10 ^ (Text.ofNat m).length := by
  induction m using Nat.strong_induction_on with
  | _ m ih =>
    rcases Nat.lt_or_ge m 10 with h | h
    · rw [Text.ofNat_of_lt h]
      exact ⟨hm, h⟩
    · obtain ⟨hlow, hhigh⟩ := ih (m / 10) (by omega) (by omega)
      have hlength : 0 < (Text.ofNat (m / 10)).length := List.length_pos_of_ne_nil (Text.ofNat_ne_nil _)
      rw [Text.ofNat_of_le h, List.length_append, List.length_singleton, Nat.add_sub_cancel, pow_succ]
      obtain ⟨n, hn⟩ : ∃ n, (Text.ofNat (m / 10)).length = n + 1 := ⟨_, (Nat.succ_pred_eq_of_pos hlength).symm⟩
      rw [hn, Nat.add_sub_cancel] at hlow
      rw [hn, pow_succ] at hhigh ⊢
      omega

/-- The number of digits and the exponent say between which powers of ten a decimal lies. -/
theorem decimal_bounds {m : Nat} (hm : 0 < m) (e : Int) :
    (10 : ℚ) ^ (((Text.ofNat m).length : Int) + e - 1) ≤ m * 10 ^ e ∧
      (m * 10 ^ e : ℚ) < 10 ^ (((Text.ofNat m).length : Int) + e) := by
  obtain ⟨hlow, hhigh⟩ := pow_length_ofNat_le hm
  have hlength : 0 < (Text.ofNat m).length := List.length_pos_of_ne_nil (Text.ofNat_ne_nil _)
  have hp : (0 : ℚ) < 10 ^ e := by positivity
  constructor
  · calc (10 : ℚ) ^ (((Text.ofNat m).length : Int) + e - 1)
        = 10 ^ (((Text.ofNat m).length - 1 : Nat) : Int) * 10 ^ e := by
          rw [← zpow_add₀ (by norm_num)]
          congr 1
          omega
      _ ≤ m * 10 ^ e := by
          gcongr
          exact_mod_cast hlow
  · rw [zpow_add₀ (by norm_num)]
    gcongr
    exact_mod_cast hhigh

theorem overflow_le : overflow ≤ 10 ^ (310 : Int) := by
  have hpow : (2 ^ 1024 : Nat) ≤ 10 ^ 310 := by decide +kernel
  calc overflow ≤ 2 ^ 1024 := sub_le_self _ (by positivity)
    _ ≤ 10 ^ (310 : Int) := by exact_mod_cast hpow

/-- A decimal is rounded like the number it writes, also where its exponent settles the result. -/
theorem isNearest_ofDecimal (negative : Bool) (m : Nat) (e : Int) :
    IsNearest (signed negative (m * 10 ^ e)) (ofDecimal negative m e) := by
  rcases Nat.eq_zero_or_pos m with rfl | hm
  · rw [Nat.cast_zero, zero_mul, ofDecimal, if_pos rfl]
    exact isNearest_tiny negative le_rfl (by positivity)
  · obtain ⟨hlow, hhigh⟩ := decimal_bounds hm e
    rw [ofDecimal, if_neg hm.ne']
    split
    · rename_i htop
      refine isNearest_infinity negative (overflow_le.trans (le_trans ?_ hlow))
      exact zpow_le_zpow_right₀ (by norm_num) (by omega)
    · split
      · rename_i htop
        refine isNearest_tiny negative (by positivity) (hhigh.trans_le ?_)
        exact zpow_le_zpow_right₀ (by norm_num) (by omega)
      · have hden : 0 < Nat.pow 10 (-e).toNat := Nat.pow_pos (by decide)
        have hvalue : (m * 10 ^ e : ℚ) = (m * Nat.pow 10 e.toNat : Nat) / (Nat.pow 10 (-e).toNat : Nat) := by
          have he : (10 : ℚ) ^ e = _ := zpow_eq_div 10 e
          rw [he, ← mul_div_assoc, Nat.cast_mul]
          rfl
        rw [hvalue]
        exact isNearest_ofFraction negative _ hden

end Double
end TagFormula

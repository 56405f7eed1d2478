import TagFormula.Proofs.RadixLiteral

/-!
Order of words and of what is rounded to them. Words are ordered as the numbers they stand for. Main statements:
rounding keeps the order of integers, and it changes no integer of at most 53 bits with zeros behind them.
-/

namespace TagFormula.Double

/-! ### Order of words -/

theorem size_eq_of_magnitude_eq {d e : Double} (h : d.magnitude = e.magnitude) : d.size = e.size := by
  rw [size, size, significand, significand, exponent, exponent, exponentField, exponentField, h]

/-- A word as a number of steps, of which one more is still a step of the same width. -/
theorem exists_steps (d : Double) : ∃ k m : Nat, d.magnitude = k * fractionSize + m ∧
    m < 2 * fractionSize ∧ (k = 0 ∨ fractionSize ≤ m) := by
  have hmod : d.magnitude % fractionSize < fractionSize := Nat.mod_lt _ (by decide)
  have hdiv := Nat.div_add_mod' d.magnitude fractionSize
  rcases Nat.eq_zero_or_pos (d.magnitude / fractionSize) with hzero | hpos
  · rw [hzero] at hdiv
    exact ⟨0, d.magnitude % fractionSize, by omega, by omega, Or.inl rfl⟩
  · refine ⟨d.magnitude / fractionSize - 1, fractionSize + d.magnitude % fractionSize, ?_, by omega, by omega⟩
    rw [Nat.sub_mul]
    have hle := Nat.mul_le_mul_right fractionSize hpos
    omega

theorem size_lt_of_succ {d e : Double} (h : e.magnitude = d.magnitude + 1) : d.size < e.size := by
  obtain ⟨k, m, hmagnitude, hm, hnormal⟩ := d.exists_steps
  rw [size_of_magnitude hmagnitude hm.le hnormal,
    size_of_magnitude (d := e) (e := k) (m := m + 1) (by omega) hm (by omega)]
  gcongr
  omega

theorem size_lt_of_magnitude_lt {d e : Double} (h : d.magnitude < e.magnitude) : d.size < e.size := by
  have hword : ∀ n, d.magnitude < n → n < 0x8000000000000000 → d.size < (ofParts false n).size := by
    intro n
    induction n with
    | zero => omega
    | succ n ih =>
      intro hlt hn
      have hnext : (ofParts false (n + 1)).magnitude = n + 1 := magnitude_ofParts false hn
      rcases Nat.eq_or_lt_of_le (Nat.le_of_lt_succ hlt) with rfl | hlt
      · exact size_lt_of_succ hnext
      · have hprevious : (ofParts false n).magnitude = n := magnitude_ofParts false (by omega)
        exact (ih hlt (by omega)).trans (size_lt_of_succ (by rw [hnext, hprevious]))
  have hrange : e.magnitude < 0x8000000000000000 := by
    rw [magnitude_eq_mod]
    omega
  have hsize := hword e.magnitude h hrange
  rwa [size_eq_of_magnitude_eq (magnitude_ofParts false hrange)] at hsize

theorem size_lt_size_iff {d e : Double} : d.size < e.size ↔ d.magnitude < e.magnitude := by
  refine ⟨fun h => ?_, size_lt_of_magnitude_lt⟩
  by_contra hle
  rcases Nat.eq_or_lt_of_le (Nat.le_of_not_lt hle) with heq | hlt
  · exact absurd h (size_eq_of_magnitude_eq heq).le.not_gt
  · exact absurd h (size_lt_of_magnitude_lt hlt).not_gt

theorem size_pos_iff {d : Double} : 0 < d.size ↔ 0 < d.magnitude := by
  have hzero : zero.magnitude = 0 := rfl
  rw [← size_of_magnitude_eq_zero hzero, size_lt_size_iff, hzero]

/-- Apart from the two zeros, a negative word comes before a positive one. -/
theorem neg_size_lt_size_iff {d e : Double} : -d.size < e.size ↔ 0 < d.magnitude + e.magnitude := by
  rw [Nat.add_pos_iff_pos_or_pos, ← size_pos_iff, ← size_pos_iff]
  have hd := d.size_nonneg
  have he := e.size_nonneg
  constructor
  · intro h
    by_contra hzero
    rw [not_or, not_lt, not_lt] at hzero
    linarith
  · rintro (hpos | hpos) <;> linarith

/-- Words are ordered as their keys are. Infinities come behind all finite words. -/
theorem value_lt_value_iff {d e : Double} : d.value < e.value ↔ d.key < e.key := by
  rw [value, value, key, key]
  cases d.isNegative <;> cases e.isNegative <;> simp only [Bool.false_eq_true, if_false, if_true]
  · rw [size_lt_size_iff]
    omega
  · have hd := d.size_nonneg
    have he := e.size_nonneg
    constructor
    · intro h
      linarith
    · omega
  · rw [neg_size_lt_size_iff]
    omega
  · rw [neg_lt_neg_iff, size_lt_size_iff]
    omega

/-- A word is its sign and its magnitude. -/
theorem eq_of_parts {d e : Double} (hsign : d.isNegative = e.isNegative) (hmagnitude : d.magnitude = e.magnitude) :
    d = e := by
  have hbits : d.bits.toNat = e.bits.toNat := by
    rw [magnitude_eq_mod, magnitude_eq_mod] at hmagnitude
    have htop : 0x8000000000000000 ≤ d.bits.toNat ↔ 0x8000000000000000 ≤ e.bits.toNat := by
      rwa [isNegative, isNegative, decide_eq_decide, UInt64.le_iff_toNat_le, UInt64.le_iff_toNat_le] at hsign
    have hd := d.bits.toNat_lt
    have he := e.bits.toNat_lt
    omega
  obtain ⟨d⟩ := d
  obtain ⟨e⟩ := e
  exact congrArg Double.mk (UInt64.toNat_inj.1 hbits)

/-! ### Rounding keeps the order -/

/-- Of two numbers the larger one is not nearer to the smaller end. -/
theorem add_le_of_abs_sub_le {a b x : ℚ} (hab : a < b) (h : |b - x| ≤ |a - x|) : a + b ≤ 2 * x := by
  have hsq := sq_le_sq.2 h
  nlinarith

theorem le_add_of_abs_sub_le {a b x : ℚ} (hab : a < b) (h : |a - x| ≤ |b - x|) : 2 * x ≤ a + b := by
  have hsq := sq_le_sq.2 h
  nlinarith

theorem IsNearest.value_le_value {x y : ℚ} {d e : Double} (hd : IsNearest x d) (he : IsNearest y e)
    (hx : |x| < overflow) (hy : |y| < overflow) (hxy : x < y) : d.value ≤ e.value := by
  by_contra hlt
  rw [not_le] at hlt
  -- both numbers would lie on the far side of the middle between the two words
  have hhigh := add_le_of_abs_sub_le hlt (hd.nearest hx e (he.finite hy))
  have hlow := le_add_of_abs_sub_le hlt (he.nearest hy d (hd.finite hx))
  linarith

theorem abs_intCast_lt_overflow {i : Int} (hi : i.natAbs ≤ 0x10000000000000000) : |(i : ℚ)| < overflow := by
  calc |(i : ℚ)| = (i.natAbs : ℚ) := by rw [Nat.cast_natAbs, Int.cast_abs]
    _ ≤ 2 ^ 64 := by exact_mod_cast hi
    _ < overflow := two_pow_lt_overflow (by decide)

theorem isFinite_ofInt {i : Int} (hi : i.natAbs ≤ 0x10000000000000000) : (ofInt i).isFinite :=
  (isNearest_ofInt i).finite (abs_intCast_lt_overflow hi)

theorem isNaN_of_isFinite {d : Double} (h : d.isFinite) : d.isNaN = false := by
  rw [isFinite, decide_eq_true_eq] at h
  rw [isNaN, decide_eq_false_iff_not]
  omega

theorem value_ofInt_le {i j : Int} (hi : i.natAbs ≤ 0x10000000000000000) (hj : j.natAbs ≤ 0x10000000000000000)
    (hij : i ≤ j) : (ofInt i).value ≤ (ofInt j).value := by
  rcases eq_or_lt_of_le hij with rfl | hlt
  · exact le_rfl
  · exact (isNearest_ofInt i).value_le_value (isNearest_ofInt j) (abs_intCast_lt_overflow hi)
      (abs_intCast_lt_overflow hj) (by exact_mod_cast hlt)

/-! ### Numbers that are words -/

theorem RoundsTo.eq_of_eq_mul {x : ℚ} {q : Int} {m k : Nat} (h : RoundsTo x q m) (hx : x = k * 2 ^ q) : m = k := by
  have hp : (2 : ℚ) ^ q ≠ 0 := by positivity
  obtain ⟨hlow, hhigh⟩ := h.bounds
  rw [hx, mul_div_cancel_right₀ _ hp] at hlow hhigh
  have hlt : ((m : Nat) : ℚ) < (k + 1 : Nat) := by
    push_cast
    linarith
  have hgt : ((k : Nat) : ℚ) < (m + 1 : Nat) := by
    push_cast
    linarith
  have := Nat.cast_lt.1 hlt
  have := Nat.cast_lt.1 hgt
  omega

theorem floorLogTwo_lt_iff {n k : Nat} (hn : 0 < n) : floorLogTwo n 1 < k ↔ n < 2 ^ k := by
  obtain ⟨hlow, hhigh⟩ := floorLogTwo_spec hn Nat.one_pos
  rw [Nat.cast_one, div_one] at hlow hhigh
  constructor
  · intro h
    have hpow : (2 : ℚ) ^ (floorLogTwo n 1 + 1) ≤ 2 ^ (k : Int) := zpow_le_zpow_right₀ one_le_two h
    exact_mod_cast hhigh.trans_le hpow
  · intro h
    have hpow : (2 : ℚ) ^ floorLogTwo n 1 < 2 ^ (k : Int) := hlow.trans_lt (by exact_mod_cast h)
    exact (zpow_lt_zpow_iff_right₀ one_lt_two).1 hpow

/-- The word of an integer has as many steps as it is rounded to. -/
theorem size_ofFraction_one (negative : Bool) {n : Nat} (hn : 0 < n) (hlt : (n : ℚ) < overflow) :
    let q : Int := max (floorLogTwo n 1 - 52) (-1074)
    ∃ m : Nat, RoundsTo n q m ∧ m = roundHalfEven (n * Nat.pow 2 (-q).toNat) (1 * Nat.pow 2 q.toNat) ∧
      (ofFraction negative n 1).magnitude = (q + 1074).toNat * fractionSize + m ∧
      (ofFraction negative n 1).size = m * 2 ^ q := by
  intro q
  have hrounds := roundsTo_ofFraction hn Nat.one_pos
  rw [Nat.cast_one, div_one] at hrounds
  have hfinite := hrounds.word_lt_iff.2 hlt
  have hmagnitude : (ofFraction negative n 1).magnitude = (q + 1074).toNat * fractionSize
      + roundHalfEven (n * Nat.pow 2 (-q).toNat) (1 * Nat.pow 2 q.toNat) := by
    rw [ofFraction, if_neg hn.ne', magnitude_ofParts]
    · exact min_eq_left hfinite.le
    · exact (min_le_right _ _).trans_lt (by decide)
  exact ⟨_, hrounds, rfl, hmagnitude, hrounds.size_eq hmagnitude⟩

/-- An integer of at most 53 bits with zeros behind them is not changed. -/
theorem size_ofFraction_eq (negative : Bool) {c t : Nat} (hc : c < 2 ^ 53) (hlt : ((c * 2 ^ t : Nat) : ℚ) < overflow) :
    (ofFraction negative (c * 2 ^ t) 1).size = (c * 2 ^ t : Nat) := by
  rcases Nat.eq_zero_or_pos (c * 2 ^ t) with hzero | hpos
  · rw [hzero, ofFraction, if_pos rfl, Nat.cast_zero]
    exact size_of_magnitude_eq_zero (magnitude_ofParts negative (by decide))
  · obtain ⟨m, hrounds, -, -, hsize⟩ := size_ofFraction_one negative hpos hlt
    generalize hq : max (floorLogTwo (c * 2 ^ t) 1 - 52) (-1074) = q at hrounds hsize
    -- the spacing is at most the value of the last bit
    have hspacing : q ≤ t := by
      have hbits : c * 2 ^ t < 2 ^ (53 + t) := by
        rw [pow_add]
        gcongr
      have := (floorLogTwo_lt_iff hpos).2 hbits
      omega
    obtain ⟨n, hn⟩ := Int.eq_ofNat_of_zero_le (Int.sub_nonneg.2 hspacing)
    have hsteps : ((c * 2 ^ t : Nat) : ℚ) = (c * 2 ^ n : Nat) * 2 ^ q := by
      have ht : (t : Int) = n + q := by omega
      push_cast
      rw [mul_assoc, ← zpow_natCast 2 n, ← zpow_add₀ two_ne_zero, ← ht, zpow_natCast]
    rw [hsize, hrounds.eq_of_eq_mul hsteps, ← hsteps]

theorem value_ofInt {i : Int} (hi : i.natAbs ≤ 0x20000000000000) : (ofInt i).value = i := by
  have hsize : (ofInt i).size = (i.natAbs : ℚ) := by
    obtain ⟨c, t, hc, heq⟩ : ∃ c t, c < 2 ^ 53 ∧ i.natAbs = c * 2 ^ t := by
      rcases Nat.eq_or_lt_of_le hi with heq | hlt
      · exact ⟨1, 53, by decide, heq⟩
      · exact ⟨i.natAbs, 0, hlt, by omega⟩
    have hlt := abs_intCast_lt_overflow (i := i) (by omega)
    rw [← Int.cast_abs, ← Nat.cast_natAbs, heq] at hlt
    rw [ofInt, heq]
    exact size_ofFraction_eq _ hc hlt
  rw [value_eq, hsize, ofInt, isNegative_ofFraction, signed, Nat.cast_natAbs]
  rcases lt_or_ge i 0 with hneg | hpos
  · rw [if_pos (decide_eq_true hneg), abs_of_neg hneg, Int.cast_neg, neg_neg]
  · rw [if_neg (by simpa using hpos), abs_of_nonneg hpos]

/-- A word that is a natural number has it as its integer part. -/
theorem toInt_of_size_eq {d : Double} (h : d.isNegative = false) {n : Nat} (hn : d.size = n) : d.toInt = n := by
  have hpos : 0 < Nat.pow 2 (-d.exponent).toNat := Nat.two_pow_pos _
  have hp : ((2 ^ (-d.exponent).toNat : Nat) : ℚ) ≠ 0 := by positivity
  have hscaled : d.significand * Nat.pow 2 d.exponent.toNat = n * Nat.pow 2 (-d.exponent).toNat := by
    have hexponent : (2 : ℚ) ^ d.exponent = _ := zpow_eq_div 2 d.exponent
    rw [size, hexponent, ← mul_div_assoc, div_eq_iff hp] at hn
    exact_mod_cast hn
  simp only [toInt, h, Bool.false_eq_true, if_false, hscaled, Nat.mul_div_cancel _ hpos]

end TagFormula.Double

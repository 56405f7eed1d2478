import TagFormula.Proofs.Comparisons

/-!
The numeric order of values. Two integers are compared exactly, and an integer with a real through its nearest word, so
that two different integers can both be equal to a real between them. Main statement: this is the only way in which
the order fails to be transitive, and it needs an integer past `2 ^ 53`.
-/

namespace TagFormula

namespace Number

/-- Not a NaN. -/
def IsOrdered (x : Number) : Prop := x.toDouble.isNaN = false

/-- A real that is the nearest word of two integers. -/
def Between (i : Int64) (d : Double) (j : Int64) : Prop :=
  (Double.ofInt i.toInt).value = d.value ∧ d.value = (Double.ofInt j.toInt).value

theorem natAbs_toInt_le (i : Int64) : i.toInt.natAbs ≤ 0x10000000000000000 := by
  have := i.le_toInt
  have := i.toInt_lt
  omega

theorem value_toDouble_le {i j : Int64} (h : i ≤ j) :
    (Double.ofInt i.toInt).value ≤ (Double.ofInt j.toInt).value :=
  Double.value_ofInt_le (natAbs_toInt_le i) (natAbs_toInt_le j) (Int64.le_iff_toInt_le.1 h)

theorem isOrdered_integer (i : Int64) : (integer i).IsOrdered :=
  Double.isNaN_of_isFinite (Double.isFinite_ofInt (natAbs_toInt_le i))

/-- With a real on one side, numbers are compared as words. -/
theorem before_iff_of_real {x y : Number} (hx : x.IsOrdered) (hy : y.IsOrdered)
    (h : ∀ i j, ¬(x = .integer i ∧ y = .integer j)) : x.Before y ↔ x.toDouble.value < y.toDouble.value := by
  cases x with
  | integer i =>
    cases y with
    | integer j => exact absurd ⟨rfl, rfl⟩ (h i j)
    | real e => exact ⟨fun h => h.2.2, fun h => ⟨hx, hy, h⟩⟩
  | real d => cases y <;> exact ⟨fun h => h.2.2, fun h => ⟨hx, hy, h⟩⟩

/-- The nearest words of numbers in order are in order. -/
theorem value_le_of_not_before {x y : Number} (hx : x.IsOrdered) (hy : y.IsOrdered) (h : ¬y.Before x) :
    x.toDouble.value ≤ y.toDouble.value := by
  by_cases hboth : ∃ i j, y = .integer j ∧ x = .integer i
  · obtain ⟨i, j, rfl, rfl⟩ := hboth
    exact value_toDouble_le (Int64.not_lt.1 h)
  · rw [before_iff_of_real hy hx fun j i heq => hboth ⟨i, j, heq⟩] at h
    exact not_lt.1 h

/-- Of three numbers in order, the third lies below the first exactly if both are integers and the second is a real
that they are both rounded to. -/
theorem before_iff_between {x y z : Number} (hx : x.IsOrdered) (hy : y.IsOrdered) (hz : z.IsOrdered)
    (hxy : ¬y.Before x) (hyz : ¬z.Before y) : z.Before x ↔
      ∃ i d j, x = .integer i ∧ y = .real d ∧ z = .integer j ∧ j < i ∧ Between i d j := by
  constructor
  · intro hzx
    have hvalues := (value_le_of_not_before hx hy hxy).trans (value_le_of_not_before hy hz hyz)
    by_cases hboth : ∃ j i, z = .integer j ∧ x = .integer i
    · obtain ⟨j, i, rfl, rfl⟩ := hboth
      cases y with
      | integer k => exact absurd (Int64.le_trans (Int64.not_lt.1 hxy) (Int64.not_lt.1 hyz)) (Int64.not_le.2 hzx)
      | real d =>
        -- the nearest words of the integers enclose the real from both sides
        have hij := value_toDouble_le (Int64.le_of_lt hzx)
        have hid := value_le_of_not_before hx hy hxy
        have hdj := value_le_of_not_before hy hz hyz
        exact ⟨i, d, j, rfl, rfl, rfl, hzx, le_antisymm hid (hdj.trans hij), le_antisymm hdj (hij.trans hid)⟩
    · rw [before_iff_of_real hz hx fun j i heq => hboth ⟨j, i, heq⟩] at hzx
      exact absurd hzx (not_lt.2 hvalues)
  · rintro ⟨i, d, j, rfl, -, rfl, hji, -⟩
    exact hji

theorem between_symm {i j : Int64} {d : Double} (h : Between i d j) : Between j d i := ⟨h.2.symm, h.1.symm⟩

/-- An integer and the real that it is rounded to are compared as equal. -/
theorem not_before_of_value_eq {i : Int64} {d : Double} (h : (Double.ofInt i.toInt).value = d.value) :
    ¬(integer i).Before (real d) ∧ ¬(real d).Before (integer i) :=
  ⟨fun hlt => hlt.2.2.ne h, fun hgt => hgt.2.2.ne' h⟩

/-- Integers up to `2 ^ 53` are their own nearest words. -/
theorem eq_of_between {i j : Int64} {d : Double} (hi : i.toInt.natAbs ≤ 0x20000000000000)
    (hj : j.toInt.natAbs ≤ 0x20000000000000) (h : Between i d j) : i = j := by
  have heq := h.1.trans h.2
  rw [Double.value_ofInt hi, Double.value_ofInt hj, Int.cast_inj] at heq
  exact Int64.toInt_inj.1 heq

end Number

namespace Value

/-- A value with a numeric view other than a NaN. -/
def IsNumeric (v : Value) : Prop := ∃ x, v.toNumber = .ok x ∧ x.IsOrdered

section

variable {a b : Value} {x y : Number} (ha : a.toNumber = .ok x) (hb : b.toNumber = .ok y)
include ha hb

theorem numLe_eq_one_iff : numLe a b = .ok (.integer 1) ↔ ¬y.Before x := by
  have hle : numLe a b = _ := (numeric_tells ha hb).le
  rw [hle, ok_bool_eq_one_iff, Ne, Number.compare_eq_gt_iff]

theorem numEq_eq_one_iff : numEq a b = .ok (.integer 1) ↔ ¬x.Before y ∧ ¬y.Before x := by
  have heq : numEq a b = _ := (numeric_tells ha hb).eq
  rw [heq, ok_bool_eq_one_iff, ← Number.compare_eq_lt_iff, ← Number.compare_eq_gt_iff]
  cases x.compare y <;> simp

end

theorem numEq_iff_numLe {a b : Value} (ha : a.IsNumeric) (hb : b.IsNumeric) : numEq a b = .ok (.integer 1) ↔
    numLe a b = .ok (.integer 1) ∧ numLe b a = .ok (.integer 1) := by
  obtain ⟨x, hx, -⟩ := ha
  obtain ⟨y, hy, -⟩ := hb
  rw [numEq_eq_one_iff hx hy, numLe_eq_one_iff hx hy, numLe_eq_one_iff hy hx, and_comm]

theorem numLe_self {a : Value} (ha : a.IsNumeric) : numLe a a = .ok (.integer 1) := by
  obtain ⟨x, hx, -⟩ := ha
  exact (numLe_eq_one_iff hx hx).2 fun h => Number.before_asymm h h

/-! ### Integers that a real cannot tell apart -/

/-- A value with the view of an integer, one of a real that is the nearest word of it, and one of an integer that has
the same nearest word. -/
def Blurs (a b c : Value) (i j : Int64) : Prop :=
  ∃ d, a.toNumber = .ok (.integer i) ∧ b.toNumber = .ok (.real d) ∧ c.toNumber = .ok (.integer j) ∧ Number.Between i d j

/-- No real among the values is the nearest word of two different integers among them. -/
def Unblurred (S : Set Value) : Prop :=
  ∀ a ∈ S, ∀ b ∈ S, ∀ c ∈ S, ∀ i j, Blurs a b c i j → i = j

namespace Blurs

variable {a b c : Value} {i j : Int64}

theorem symm (h : Blurs a b c i j) : Blurs c b a j i := by
  obtain ⟨d, ha, hb, hc, hbetween⟩ := h
  exact ⟨d, hc, hb, ha, Number.between_symm hbetween⟩

theorem numEq_eq_one (h : Blurs a b c i j) :
    numEq a b = .ok (.integer 1) ∧ numEq b a = .ok (.integer 1) := by
  obtain ⟨d, ha, hb, -, hbetween⟩ := h
  have hequal := Number.not_before_of_value_eq hbetween.1
  exact ⟨(numEq_eq_one_iff ha hb).2 hequal, (numEq_eq_one_iff hb ha).2 hequal.symm⟩

theorem numLe_eq_one_iff (h : Blurs a b c i j) : numLe a c = .ok (.integer 1) ↔ i ≤ j := by
  obtain ⟨d, ha, -, hc, -⟩ := h
  exact (Value.numLe_eq_one_iff ha hc).trans Int64.not_lt

end Blurs

/-- Of three values in order, the first lies above the third exactly if the second blurs them. -/
theorem numLe_trans_iff {a b c : Value} (ha : a.IsNumeric) (hb : b.IsNumeric) (hc : c.IsNumeric)
    (hab : numLe a b = .ok (.integer 1)) (hbc : numLe b c = .ok (.integer 1)) :
    numLe a c = .ok (.integer 1) ↔ ¬∃ i j, j < i ∧ Blurs a b c i j := by
  constructor
  · rintro hac ⟨i, j, hji, hblurs⟩
    exact Int64.not_le.2 hji (hblurs.numLe_eq_one_iff.1 hac)
  · intro hclear
    obtain ⟨x, hx, hxo⟩ := ha
    obtain ⟨y, hy, hyo⟩ := hb
    obtain ⟨z, hz, hzo⟩ := hc
    rw [numLe_eq_one_iff hx hy] at hab
    rw [numLe_eq_one_iff hy hz] at hbc
    rw [numLe_eq_one_iff hx hz, Number.before_iff_between hxo hyo hzo hab hbc]
    rintro ⟨i, d, j, rfl, rfl, rfl, hji, hbetween⟩
    exact hclear ⟨i, j, hji, d, hx, hy, hz, hbetween⟩

section

variable {S : Set Value} (hS : ∀ v ∈ S, v.IsNumeric)
include hS

theorem numLe_transitive_iff : (∀ a ∈ S, ∀ b ∈ S, ∀ c ∈ S, numLe a b = .ok (.integer 1) →
    numLe b c = .ok (.integer 1) → numLe a c = .ok (.integer 1)) ↔ Unblurred S := by
  constructor
  · intro htrans a ha b hb c hc i j hblurs
    have hle {a b c : Value} (ha : a ∈ S) (hb : b ∈ S) (hc : c ∈ S) {i j : Int64} (h : Blurs a b c i j) : i ≤ j := by
      have hab := ((numEq_iff_numLe (hS a ha) (hS b hb)).1 h.numEq_eq_one.1).1
      have hbc := ((numEq_iff_numLe (hS b hb) (hS c hc)).1 h.symm.numEq_eq_one.2).1
      exact h.numLe_eq_one_iff.1 (htrans a ha b hb c hc hab hbc)
    exact Int64.le_antisymm (hle ha hb hc hblurs) (hle hc hb ha hblurs.symm)
  · intro hclear a ha b hb c hc hab hbc
    refine (numLe_trans_iff (hS a ha) (hS b hb) (hS c hc) hab hbc).2 ?_
    rintro ⟨i, j, hji, hblurs⟩
    exact Int64.ne_of_lt hji (hclear a ha b hb c hc i j hblurs).symm

theorem numEq_equivalence_iff :
    Equivalence (fun a b : S => numEq a b = .ok (.integer 1)) ↔ Unblurred S := by
  constructor
  · intro hequiv a ha b hb c hc i j hblurs
    have hac : numEq a c = .ok (.integer 1) :=
      hequiv.trans (x := ⟨a, ha⟩) (y := ⟨b, hb⟩) (z := ⟨c, hc⟩) hblurs.numEq_eq_one.1 hblurs.symm.numEq_eq_one.2
    obtain ⟨hle, hge⟩ := (numEq_iff_numLe (hS a ha) (hS c hc)).1 hac
    exact Int64.le_antisymm (hblurs.numLe_eq_one_iff.1 hle) (hblurs.symm.numLe_eq_one_iff.1 hge)
  · intro hclear
    have htrans := (numLe_transitive_iff hS).2 hclear
    refine ⟨fun a => ?_, fun {a b} hab => ?_, fun {a b c} hab hbc => ?_⟩
    · have hself := numLe_self (hS a a.2)
      exact (numEq_iff_numLe (hS a a.2) (hS a a.2)).2 ⟨hself, hself⟩
    · exact (numEq_iff_numLe (hS b b.2) (hS a a.2)).2 ((numEq_iff_numLe (hS a a.2) (hS b b.2)).1 hab).symm
    · rw [numEq_iff_numLe (hS a a.2) (hS b b.2)] at hab
      rw [numEq_iff_numLe (hS b b.2) (hS c c.2)] at hbc
      rw [numEq_iff_numLe (hS a a.2) (hS c c.2)]
      exact ⟨htrans a a.2 b b.2 c c.2 hab.1 hbc.1, htrans c c.2 b b.2 a a.2 hbc.2 hab.2⟩

end

theorem unblurred_of_natAbs_le {S : Set Value}
    (h : ∀ v ∈ S, ∀ i, v.toNumber = .ok (.integer i) → i.toInt.natAbs ≤ 0x20000000000000) : Unblurred S := by
  rintro a ha b - c hc i j ⟨d, hi, -, hj, hbetween⟩
  exact Number.eq_of_between (h a ha i hi) (h c hc j hj) hbetween

/-- Numeric order is transitive up to the integers that a real blurs. On a set of values it is transitive, and numeric
equality an equivalence, exactly if no real of the set is the nearest word of two of its integers; integers up to
`2 ^ 53` always have words of their own. -/
theorem numeric_order_iff (S : Set Value) (hS : ∀ v ∈ S, v.IsNumeric) :
    (∀ a ∈ S, ∀ b ∈ S, ∀ c ∈ S, numLe a b = .ok (.integer 1) → numLe b c = .ok (.integer 1) →
      (numLe a c = .ok (.integer 1) ↔ ¬∃ i j, j < i ∧ Blurs a b c i j)) ∧
    ((∀ a ∈ S, ∀ b ∈ S, ∀ c ∈ S, numLe a b = .ok (.integer 1) → numLe b c = .ok (.integer 1) →
      numLe a c = .ok (.integer 1)) ↔ Unblurred S) ∧
    (Equivalence (fun a b : S => numEq a b = .ok (.integer 1)) ↔ Unblurred S) ∧
    ((∀ v ∈ S, ∀ i, v.toNumber = .ok (.integer i) → i.toInt.natAbs ≤ 0x20000000000000) → Unblurred S) :=
  ⟨fun a ha b hb c hc => numLe_trans_iff (hS a ha) (hS b hb) (hS c hc), numLe_transitive_iff hS,
    numEq_equivalence_iff hS, unblurred_of_natAbs_le⟩

/-- The last integer before the gaps between words exceed one, as an integer, a real and a text, and the empty value,
which counts as zero. -/
def exactEnd : Set Value :=
  {.empty, .integer 9007199254740992, .float ⟨0x4340000000000000⟩, .string (ascii "9007199254740992")}

theorem numeric_order_iff_exactEnd : (∀ v ∈ exactEnd, v.IsNumeric) ∧
    Equivalence (fun a b : exactEnd => numEq a b = .ok (.integer 1)) := by
  have htext : (Value.string (ascii "9007199254740992")).toNumber = .ok (.integer 9007199254740992) := by
    decide +kernel
  have hnumeric : ∀ v ∈ exactEnd, v.IsNumeric := by
    rintro v (rfl | rfl | rfl | rfl)
    · exact ⟨_, rfl, Number.isOrdered_integer 0⟩
    · exact ⟨_, rfl, Number.isOrdered_integer _⟩
    · exact ⟨_, rfl, by rw [Number.IsOrdered]; decide⟩
    · exact ⟨_, htext, Number.isOrdered_integer _⟩
  have horder := numeric_order_iff exactEnd hnumeric
  refine ⟨hnumeric, horder.2.2.1.2 (horder.2.2.2 ?_)⟩
  rintro v (rfl | rfl | rfl | rfl) i hi
  · obtain rfl : 0 = i := Number.integer.inj (Except.ok.inj hi)
    decide
  · obtain rfl : 9007199254740992 = i := Number.integer.inj (Except.ok.inj hi)
    decide
  · cases hi
  · obtain rfl : 9007199254740992 = i := Number.integer.inj (Except.ok.inj (htext.symm.trans hi))
    decide

/-- The first integer past `2 ^ 53` is rounded to `2 ^ 53`. -/
theorem numLe_not_transitive :
    numLe (.integer 9007199254740993) (.float ⟨0x4340000000000000⟩) = .ok (.integer 1) ∧
    numLe (.float ⟨0x4340000000000000⟩) (.integer 9007199254740992) = .ok (.integer 1) ∧
    numLe (.integer 9007199254740993) (.integer 9007199254740992) = .ok (.integer 0) :=
  ⟨rfl, rfl, rfl⟩

end Value
end TagFormula

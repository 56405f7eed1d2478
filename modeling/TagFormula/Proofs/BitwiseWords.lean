import TagFormula.Proofs.ExactPower
import TagFormula.Proofs.RoundingOrder

/-!
The words of bitwise operators. A word without its top bit is returned as an integer, any other one as the nearest
real, and the next operator reads a word from that again. Main statement: which words come back unchanged, and when
the three operators are associative.
-/

namespace TagFormula

namespace Double

/-- Words of 64 bits are rounded to multiples of `2 ^ 11`. -/
theorem ofInt_word {n : Nat} (hlow : 0x8000000000000000 ≤ n) (hhigh : n < 0x10000000000000000) :
    (ofInt n).isNegative = false ∧ (ofInt n).magnitude = 1085 * fractionSize + roundHalfEven n 2048 ∧
      (ofInt n).size = (2048 * roundHalfEven n 2048 : Nat) := by
  have hpos : 0 < n := by omega
  have hlt : (n : ℚ) < overflow := by
    have h := abs_intCast_lt_overflow (i := n) (by omega)
    rwa [Int.cast_natCast, Nat.abs_cast] at h
  obtain ⟨m, -, hm, hmagnitude, hsize⟩ := size_ofFraction_one false hpos hlt
  -- the leading bit fixes the spacing
  have hlog : floorLogTwo n 1 = 63 := by
    have hbelow := (floorLogTwo_lt_iff (k := 64) hpos).2 hhigh
    have habove := mt (floorLogTwo_lt_iff (k := 63) hpos).1 (Nat.not_lt.2 hlow)
    omega
  have hq : max (floorLogTwo n 1 - 52) (-1074) = 11 := by
    rw [hlog]
    rfl
  rw [hq] at hm hmagnitude hsize
  have hm : m = roundHalfEven n 2048 := by
    rw [hm]
    exact congrArg (roundHalfEven · 2048) (Nat.mul_one n)
  have hofInt : ofInt n = ofFraction false n 1 := by
    rw [ofInt, decide_eq_false (by omega), Int.natAbs_natCast]
  rw [hofInt, isNegative_ofFraction, hmagnitude, hsize, hm]
  refine ⟨rfl, rfl, ?_⟩
  push_cast
  ring

end Double

/-! ### Words on their way -/

namespace Word

/-- The number that a word is returned as. -/
def returned (w : UInt64) : Nat :=
  if w.toNat < 0x8000000000000000 then w.toNat else 2048 * roundHalfEven w.toNat 2048

/-- The word that is read from that number. -/
def reread (w : UInt64) : UInt64 := (min (returned w) 0xffffffffffffffff).toUInt64

/-- Words that come back as they were. -/
def Kept (w : UInt64) : Prop :=
  w.toNat < 0x8000000000000000 ∨ 2048 ∣ w.toNat ∨ w.toNat = 0xffffffffffffffff

instance (w : UInt64) : Decidable (Kept w) := inferInstanceAs (Decidable (_ ∨ _))

theorem reread_eq_self_iff {w : UInt64} : reread w = w ↔ Kept w := by
  have hlt := w.toNat_lt
  have hreread : (reread w).toNat = min (returned w) 0xffffffffffffffff :=
    UInt64.toNat_ofNat_of_lt' ((min_le_right _ _).trans_lt (by decide))
  rw [← UInt64.toNat_inj, hreread, returned, Kept, Nat.dvd_iff_mod_eq_zero, roundHalfEven]
  split_ifs <;> omega

end Word

namespace Number

open Word

theorem ofWord_of_lt {w : UInt64} (h : w.toNat < 0x8000000000000000) : ofWord w = .integer w.toInt64 :=
  if_pos (UInt64.lt_iff_toNat_lt.2 h)

theorem ofWord_of_le {w : UInt64} (h : 0x8000000000000000 ≤ w.toNat) :
    ofWord w = .real (Double.ofInt w.toNat) :=
  if_neg fun hlt => absurd h (Nat.not_le.2 (UInt64.lt_iff_toNat_lt.1 hlt))

/-- Whole numbers that are not negative are read as words, at most the largest one. -/
theorem toWord_real {d : Double} {n : Nat} (hfinite : d.isFinite) (hsign : d.isNegative = false)
    (hsize : d.size = n) : toWord (.real d) = (min n 0xffffffffffffffff).toUInt64 := by
  have hnan := Double.isNaN_of_isFinite hfinite
  have hinfinite : d.isInfinite = false := by
    rw [Double.isFinite, decide_eq_true_eq] at hfinite
    rw [Double.isInfinite, beq_eq_false_iff_ne]
    omega
  have hzero : d.isBelowZero = false := by
    simp [Double.isBelowZero, Double.key, hsign]
  simp only [toWord, hnan, hzero, hinfinite, Double.toInt_of_size_eq hsign hsize, Bool.false_or,
    Bool.false_eq_true, if_false, decide_eq_true_eq, Int.toNat_natCast]
  split
  · rename_i hle
    rw [min_eq_right (by omega)]
    rfl
  · rename_i hlt
    rw [min_eq_left (by omega)]

theorem toWord_ofWord (w : UInt64) : (ofWord w).toWord = reread w := by
  rcases Nat.lt_or_ge w.toNat 0x8000000000000000 with hlt | hle
  · rw [ofWord_of_lt hlt, reread_eq_self_iff.2 (Or.inl hlt)]
    exact w.toUInt64_toInt64
  · have hfinite := Double.isFinite_ofInt (i := w.toNat) (by have := w.toNat_lt; omega)
    obtain ⟨hsign, -, hsize⟩ := Double.ofInt_word hle w.toNat_lt
    rw [ofWord_of_le hle, toWord_real hfinite hsign hsize, reread, returned, if_neg (Nat.not_lt.2 hle)]

theorem ofWord_ne_of_top_bit {v w : UInt64} (hv : v.toNat < 0x8000000000000000)
    (hw : 0x8000000000000000 ≤ w.toNat) : ofWord v ≠ ofWord w ∧ returned v ≠ returned w := by
  constructor
  · rw [ofWord_of_lt hv, ofWord_of_le hw]
    intro h
    cases h
  · rw [returned, returned, if_pos hv, if_neg (Nat.not_lt.2 hw), roundHalfEven]
    split_ifs <;> omega

/-- Words are told apart by the numbers they are returned as. -/
theorem ofWord_eq_ofWord_iff {v w : UInt64} : ofWord v = ofWord w ↔ returned v = returned w := by
  rcases Nat.lt_or_ge v.toNat 0x8000000000000000 with hv | hv <;>
    rcases Nat.lt_or_ge w.toNat 0x8000000000000000 with hw | hw
  · rw [ofWord_of_lt hv, ofWord_of_lt hw, returned, returned, if_pos hv, if_pos hw, integer.injEq,
      UInt64.toNat_inj]
    constructor
    · intro h
      rw [← v.toUInt64_toInt64, h, w.toUInt64_toInt64]
    · intro h
      rw [h]
  · exact iff_of_false (ofWord_ne_of_top_bit hv hw).1 (ofWord_ne_of_top_bit hv hw).2
  · exact iff_of_false (ofWord_ne_of_top_bit hw hv).1.symm (ofWord_ne_of_top_bit hw hv).2.symm
  · obtain ⟨hvsign, hvmagnitude, -⟩ := Double.ofInt_word hv v.toNat_lt
    obtain ⟨hwsign, hwmagnitude, -⟩ := Double.ofInt_word hw w.toNat_lt
    rw [ofWord_of_le hv, ofWord_of_le hw, real.injEq, returned, returned, if_neg (Nat.not_lt.2 hv),
      if_neg (Nat.not_lt.2 hw)]
    constructor
    · intro h
      rw [h, hwmagnitude] at hvmagnitude
      omega
    · intro h
      exact Double.eq_of_parts (hvsign.trans hwsign.symm) (by omega)

theorem toValue_inj {x y : Number} : x.toValue = y.toValue ↔ x = y := by
  cases x <;> cases y <;> simp [toValue]

theorem operand_toValue (op : String) (x : Number) : x.toValue.operand op = .ok x := by
  cases x <;> rfl

end Number

/-! ### Operators -/

/-- The operators that combine two words bit by bit. -/
inductive BitOp where
  | and
  | or
  | xor

namespace BitOp

open Word

def onWords : BitOp → UInt64 → UInt64 → UInt64
  | .and, x, y => x &&& y
  | .or, x, y => x ||| y
  | .xor, x, y => x ^^^ y

def apply : BitOp → Value → Value → Except Fault Value
  | .and => Value.bitAnd
  | .or => Value.bitOr
  | .xor => Value.bitXor

/-- The word that an operator forms from two integers. -/
def word (op : BitOp) (a b : Int64) : UInt64 := op.onWords a.toUInt64 b.toUInt64

theorem onWords_assoc (op : BitOp) (x y z : UInt64) :
    op.onWords (op.onWords x y) z = op.onWords x (op.onWords y z) := by
  cases op with
  | and => exact UInt64.and_assoc x y z
  | or => exact UInt64.or_assoc x y z
  | xor => exact UInt64.xor_assoc x y z

/-- An operator returns the word of its operands' words. -/
theorem apply_toValue (op : BitOp) (x y : Number) :
    op.apply x.toValue y.toValue = .ok (Number.ofWord (op.onWords x.toWord y.toWord)).toValue := by
  cases op <;> cases x <;> cases y <;> rfl

/-- The two ways to combine three values come to the same value. -/
def Associates (op : BitOp) (a b c : Value) : Prop :=
  ∃ v, (do op.apply (← op.apply a b) c) = .ok v ∧ (do op.apply a (← op.apply b c)) = .ok v

section

variable (op : BitOp) (a b c : Int64)

theorem apply_integers : op.apply (.integer a) (.integer b) = .ok (Number.ofWord (op.word a b)).toValue :=
  op.apply_toValue (.integer a) (.integer b)

theorem apply_left : (do op.apply (← op.apply (.integer a) (.integer b)) (.integer c))
    = .ok (Number.ofWord (op.onWords (reread (op.word a b)) c.toUInt64)).toValue := by
  rw [apply_integers, ← Number.toWord_ofWord]
  exact op.apply_toValue _ (.integer c)

theorem apply_right : (do op.apply (.integer a) (← op.apply (.integer b) (.integer c)))
    = .ok (Number.ofWord (op.onWords a.toUInt64 (reread (op.word b c)))).toValue := by
  rw [apply_integers, ← Number.toWord_ofWord]
  exact op.apply_toValue (.integer a) _

/-- The next operator reads the rounded word. -/
theorem wordOperand_apply (symbol : String) : ∃ v, op.apply (.integer a) (.integer b) = .ok v ∧
    v.wordOperand symbol = .ok (reread (op.word a b)) := by
  refine ⟨_, op.apply_integers a b, ?_⟩
  rw [Value.wordOperand, Number.operand_toValue, ← Number.toWord_ofWord]
  rfl

theorem associates_iff : op.Associates (.integer a) (.integer b) (.integer c) ↔
    returned (op.onWords (reread (op.word a b)) c.toUInt64)
      = returned (op.onWords a.toUInt64 (reread (op.word b c))) := by
  rw [Associates, apply_left, apply_right, ← Number.ofWord_eq_ofWord_iff, ← Number.toValue_inj]
  constructor
  · rintro ⟨v, hleft, hright⟩
    exact Except.ok.inj (hleft.trans hright.symm)
  · intro h
    exact ⟨_, rfl, by rw [h]⟩

theorem associates_of_kept (hab : Kept (op.word a b)) (hbc : Kept (op.word b c)) :
    op.Associates (.integer a) (.integer b) (.integer c) := by
  rw [associates_iff, reread_eq_self_iff.2 hab, reread_eq_self_iff.2 hbc, word, word, onWords_assoc]

end

/-- The word that a bitwise operator returns is read again by any operator, as it was exactly if it has no top bit, is a
multiple of `2 ^ 11` or is the largest word. The operators are associative where both words in between come back as
they were, and in general exactly where the rounded words in between lead to the same number. -/
theorem associative_iff_reread (op : BitOp) (a b c : Int64) :
    (∀ symbol, ∃ v, op.apply (.integer a) (.integer b) = .ok v ∧
      v.wordOperand symbol = .ok (reread (op.word a b)) ∧
      (v.wordOperand symbol = .ok (op.word a b) ↔ Kept (op.word a b))) ∧
    (Kept (op.word a b) → Kept (op.word b c) → op.Associates (.integer a) (.integer b) (.integer c)) ∧
    (op.Associates (.integer a) (.integer b) (.integer c) ↔
      returned (op.onWords (reread (op.word a b)) c.toUInt64)
        = returned (op.onWords a.toUInt64 (reread (op.word b c)))) := by
  refine ⟨fun symbol => ?_, op.associates_of_kept a b c, op.associates_iff a b c⟩
  obtain ⟨v, happly, hread⟩ := op.wordOperand_apply a b symbol
  refine ⟨v, happly, hread, ?_⟩
  rw [hread, Except.ok.injEq, reread_eq_self_iff]

/-- With a bit below the last one that a real has, none of the three is associative. -/
theorem not_associative_top_bit :
    (do Value.bitAnd (← Value.bitAnd (.integer (-3)) (.integer (-1))) (.integer 2)) = .ok (.integer 2) ∧
      (do Value.bitAnd (.integer (-3)) (← Value.bitAnd (.integer (-1)) (.integer 2))) = .ok (.integer 0) ∧
      ¬BitOp.and.Associates (.integer (-3)) (.integer (-1)) (.integer 2) ∧
      ¬BitOp.or.Associates (.integer Int64.minValue) (.integer 1025) (.integer 2048) ∧
      ¬BitOp.xor.Associates (.integer (-3)) (.integer 1) (.integer (-1)) := by
  refine ⟨BitOp.and.apply_left (-3) (-1) 2, BitOp.and.apply_right (-3) (-1) 2, ?_, ?_, ?_⟩
  all_goals
    rw [associates_iff]
    decide +kernel

end BitOp
end TagFormula

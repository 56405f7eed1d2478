import Mathlib.Data.List.Basic
import Mathlib.Data.List.TakeWhile
import Mathlib.Data.Nat.Basic
import Mathlib.Tactic.Common
import TagFormula.Literal.Number

/-!
Decimal number tokens. Digits without a leading zero are read as their value, and the decimal text of a
number that has 64 bits with a sign is read as that number.
-/

namespace TagFormula

namespace Byte

theorem isDigit_iff {b : UInt8} : isDigit b ↔ 48 ≤ b.toNat ∧ b.toNat ≤ 57 := by
  simp [isDigit, UInt8.le_iff_toNat_le]

theorem digitValue?_ten {b : UInt8} (h : isDigit b) : digitValue? 10 b = some (b.toNat - 48) := by
  have hb := isDigit_iff.1 h
  rw [digitValue?, if_pos h, if_pos (by omega)]

/-- A digit is none of the other bytes that number tokens give a meaning to. -/
theorem ne_of_isDigit {b c : UInt8} (h : isDigit b) (hc : isDigit c = false) : b ≠ c := by
  rintro rfl
  rw [h] at hc
  cases hc

end Byte

namespace Text

/-- Decimal digits without a leading zero, or `0` alone. -/
structure IsDecimal (t : Text) : Prop where
  nonempty : t ≠ []
  digits : ∀ b ∈ t, Byte.isDigit b
  canonical : t.head? = some (ch '0') → t = [ch '0']

theorem natValue?_of_digits {t : Text} (h : ∀ b ∈ t, Byte.isDigit b) :
    natValue? 10 t = some (natValue t) := by
  have go : ∀ (t : Text) (acc : Nat), (∀ b ∈ t, Byte.isDigit b) →
      t.foldlM (fun acc b => (Byte.digitValue? 10 b).map (10 * acc + ·)) acc
        = some (t.foldl (fun acc b => 10 * acc + (b.toNat - 48)) acc) := by
    intro t
    induction t with
    | nil => intro acc _; rfl
    | cons b t ih =>
      intro acc h
      rw [List.foldlM_cons, Byte.digitValue?_ten (h b (List.mem_cons_self ..))]
      exact ih _ fun c hc => h c (List.mem_cons_of_mem _ hc)
  exact go t 0 h

/-! ### The decimal text of a number -/

theorem toNat_ch_digitChar {d : Nat} (h : d < 10) : (ch d.digitChar).toNat = 48 + d := by
  rw [ch, Nat.toNat_digitChar_of_lt_ten h]
  simp
  omega

theorem ofNat_of_lt {n : Nat} (h : n < 10) : ofNat n = [ch n.digitChar] := by
  rw [ofNat, ofNatBase, Nat.toDigits_of_lt_base h]
  rfl

theorem ofNat_of_le {n : Nat} (h : 10 ≤ n) : ofNat n = ofNat (n / 10) ++ [ch (n % 10).digitChar] := by
  rw [ofNat, ofNatBase, Nat.toDigits_of_base_le (by decide) h, List.map_append]
  rfl

theorem natValue_append_singleton (t : Text) (b : UInt8) :
    natValue (t ++ [b]) = 10 * natValue t + (b.toNat - 48) := by
  simp [natValue, List.foldl_append]

theorem natValue_ofNat (n : Nat) : natValue (ofNat n) = n := by
  induction n using Nat.strong_induction_on with
  | _ n ih =>
    by_cases h : n < 10
    · rw [ofNat_of_lt h]
      simp [natValue, toNat_ch_digitChar h]
    · rw [ofNat_of_le (by omega), natValue_append_singleton, ih (n / 10) (by omega),
        toNat_ch_digitChar (Nat.mod_lt _ (by decide))]
      omega

theorem ofNat_ne_nil (n : Nat) : ofNat n ≠ [] := by
  by_cases h : n < 10
  · simp [ofNat_of_lt h]
  · simp [ofNat_of_le (Nat.le_of_not_lt h)]

theorem isDigit_of_mem_ofNat (n : Nat) : ∀ b ∈ ofNat n, Byte.isDigit b := by
  induction n using Nat.strong_induction_on with
  | _ n ih =>
    intro b hb
    by_cases h : n < 10
    · rw [ofNat_of_lt h, List.mem_singleton] at hb
      rw [hb, Byte.isDigit_iff, toNat_ch_digitChar h]
      omega
    · rw [ofNat_of_le (by omega), List.mem_append, List.mem_singleton] at hb
      rcases hb with hb | rfl
      · exact ih (n / 10) (by omega) b hb
      · rw [Byte.isDigit_iff, toNat_ch_digitChar (Nat.mod_lt _ (by decide))]
        omega

theorem head?_ofNat_ne_zero {n : Nat} (h : 0 < n) : (ofNat n).head? ≠ some (ch '0') := by
  induction n using Nat.strong_induction_on with
  | _ n ih =>
    by_cases hn : n < 10
    · rw [ofNat_of_lt hn, List.head?_cons]
      intro heq
      have hnat := congrArg UInt8.toNat (Option.some.inj heq)
      rw [toNat_ch_digitChar hn] at hnat
      have hzero : (ch '0').toNat = 48 := rfl
      omega
    · rw [ofNat_of_le (by omega), List.head?_append_of_ne_nil _ (ofNat_ne_nil _)]
      exact ih (n / 10) (by omega) (by omega)

theorem isDecimal_ofNat (n : Nat) : IsDecimal (ofNat n) where
  nonempty := ofNat_ne_nil n
  digits := isDigit_of_mem_ofNat n
  canonical h := by
    rcases Nat.eq_zero_or_pos n with rfl | hpos
    · rfl
    · exact absurd h (head?_ofNat_ne_zero hpos)

end Text

/-! ### Reading a decimal token -/

namespace DigitRun

theorem read?_of_digits {t : Text} (hne : t ≠ []) (h : ∀ b ∈ t, Byte.isDigit b) :
    read? 10 t = some ⟨false, Text.natValue t, []⟩ := by
  match t, hne with
  | b :: rest, _ =>
    have hb := h b (List.mem_cons_self ..)
    have hspace : Text.dropSpaces (b :: rest) = b :: rest := by
      have hb' := Byte.isDigit_iff.1 hb
      rw [Text.dropSpaces, List.dropWhile_cons_of_neg]
      simp [Byte.isSpace, UInt8.le_iff_toNat_le, ← UInt8.toNat_inj]
      omega
    have hsign : Double.readSign (b :: rest) = (false, b :: rest) := by
      have hminus : b ≠ ch '-' := Byte.ne_of_isDigit hb rfl
      have hplus : b ≠ ch '+' := Byte.ne_of_isDigit hb rfl
      simp [Double.readSign, hminus, hplus]
    have hall : ∀ c ∈ b :: rest, (Byte.digitValue? 10 c).isSome := by
      intro c hc
      rw [Byte.digitValue?_ten (h c hc)]
      rfl
    simp only [read?, hspace, hsign, if_neg (show ¬(10 = 16) by decide)]
    rw [List.takeWhile_eq_self_iff.2 hall, List.dropWhile_eq_nil_iff.2 hall]
    simp only [Text.natValue?_of_digits h, Option.getD_some]

end DigitRun

namespace Literal

/-- The literal of decimal digits: an integer where it has 64 bits with a sign, else a real. -/
def ofDecimal (t : Text) : Literal :=
  if Text.natValue t < 0x10000000000000000 then ofNat (Text.natValue t) else .float (leadingReal t)

theorem ofDigits_of_digits {t : Text} (hne : t ≠ []) (h : ∀ b ∈ t, Byte.isDigit b) :
    ofDigits 10 t = some (ofDecimal t) := by
  have hzero : t.upToZero = t :=
    List.takeWhile_eq_self_iff.2 fun b hb => by simpa using Byte.ne_of_isDigit (h b hb) rfl
  rw [ofDigits, hzero, DigitRun.read?_of_digits hne h]
  simp only [List.isEmpty_iff, hne, DigitRun.word?, ofDecimal]
  by_cases hlt : Text.natValue t < 0x10000000000000000
  · have hmod : Text.natValue t % 0x10000000000000000 = Text.natValue t := Nat.mod_eq_of_lt hlt
    simp [hlt, hmod]
  · simp [hlt]

/-- A token of decimal digits is read as their value. -/
theorem ofNumberToken_of_isDecimal {t : Text} (h : t.IsDecimal) :
    ofNumberToken t = some (ofDecimal t) := by
  have hfilter : t.filter (· != ch '_') = t :=
    List.filter_eq_self.2 fun b hb => by simpa using Byte.ne_of_isDigit (h.digits b hb) rfl
  have hpoint : (t.any fun b => (ascii ".eE").contains b) = false := by
    refine List.any_eq_false.2 fun b hb => ?_
    have hne : ∀ c, Byte.isDigit c = false → b ≠ c := fun c => Byte.ne_of_isDigit (h.digits b hb)
    simp [ascii, hne (ch '.') rfl, hne (ch 'e') rfl, hne (ch 'E') rfl]
  have hread := ofDigits_of_digits h.nonempty h.digits
  have hmark : ∀ letter, markedDigits? letter t = none := by
    intro letter
    match t, h with
    | [], _ => rfl
    | [_], _ => rfl
    | [_, _], _ => rfl
    | z :: m :: b :: rest, h =>
      have hz : z ≠ ch '0' := fun heq => by simpa using h.canonical (by rw [heq]; rfl)
      simp [markedDigits?, hz]
  have hempty : t.isEmpty = false := by simpa using h.nonempty
  simp only [ofNumberToken, hfilter, hempty, hmark, hpoint]
  match t, h with
  | [], h => exact hread
  | [_], h => exact hread
  | z :: b :: rest, h =>
    have hz : z ≠ ch '0' := fun heq => by simpa using h.canonical (by rw [heq]; rfl)
    simpa [hz] using hread

theorem ofDecimal_ofInt {i : Int64} (h : 0 ≤ i) : ofDecimal (Text.ofInt i.toInt) = .integer i := by
  have hi : 0 ≤ i.toInt := by simpa [Int64.le_iff_toInt_le] using h
  have hlt := Int64.toInt_lt i
  have hvalue : Text.natValue (Text.ofInt i.toInt) = i.toInt.natAbs := by
    rw [Text.ofInt, if_neg (by omega), Text.natValue_ofNat]
  have habs : (i.toInt.natAbs : Int) = i.toInt := Int.natAbs_of_nonneg hi
  have hword : i.toInt.natAbs < 0x10000000000000000 := by omega
  have hfits : i.toInt.natAbs < 0x8000000000000000 := by omega
  rw [ofDecimal, hvalue, if_pos hword, ofNat, if_pos hfits, ← Int64.ofInt_eq_ofNat, habs,
    Int64.ofInt_toInt]

theorem isDecimal_ofInt {i : Int64} (h : 0 ≤ i) : (Text.ofInt i.toInt).IsDecimal := by
  have hi : 0 ≤ i.toInt := by simpa [Int64.le_iff_toInt_le] using h
  rw [Text.ofInt, if_neg (by omega)]
  exact Text.isDecimal_ofNat _

/-- The decimal text of an integer is read as that integer. -/
theorem ofNumberToken_ofInt {i : Int64} (h : 0 ≤ i) :
    ofNumberToken (Text.ofInt i.toInt) = some (.integer i) := by
  rw [ofNumberToken_of_isDecimal (isDecimal_ofInt h), ofDecimal_ofInt h]

end Literal
end TagFormula

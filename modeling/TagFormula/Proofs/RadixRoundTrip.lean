import Mathlib.Tactic.IntervalCases
import TagFormula.Proofs.ExactArithmetic
import TagFormula.Proofs.NumericPrefix
import TagFormula.Value.Format
import TagFormula.Value.Function

/-!
Digits in bases two, eight and sixteen. They are accumulated in a word that goes on wrapping around after an
overflow. Main statement: what is read is the exact value of the digits below `2 ^ 63` and a real from there on,
and so it undoes formatting in bases eight and sixteen.
-/

namespace TagFormula

/-! ### The accumulator -/

namespace Number.Accumulator

/-- An accumulator for digits of the value `v`: the word is `v` modulo `2 ^ 64`, and an overflow is known
exactly if `v` is not the word itself. -/
structure Holds (a : Accumulator) (v : Nat) : Prop where
  word : a.word.toNat = v % 0x10000000000000000
  overflowed : a.overflowed = true ↔ 0x10000000000000000 ≤ v

theorem holds_empty : empty.Holds 0 := ⟨rfl, by decide⟩

/-- The comparison before the multiplication is exact while the word is. -/
theorem lt_word_iff {base digit : Nat} (hdigit : digit < base) (hbase : base ≤ 16) (w : UInt64) :
    (0xffffffffffffffff - digit.toUInt64) / base.toUInt64 < w ↔
      0x10000000000000000 ≤ base * w.toNat + digit := by
  have hd : digit.toUInt64.toNat = digit := by simp; omega
  have hb : base.toUInt64.toNat = base := by simp; omega
  have hmax : (0xffffffffffffffff : UInt64).toNat = 0xffffffffffffffff := rfl
  have hle : digit.toUInt64 ≤ 0xffffffffffffffff := by
    rw [UInt64.le_iff_toNat_le, hd, hmax]
    omega
  rw [UInt64.lt_iff_toNat_lt, UInt64.toNat_div, UInt64.toNat_sub_of_le _ _ hle, hd, hb, hmax,
    Nat.div_lt_iff_lt_mul (by omega), Nat.mul_comm]
  omega

/-- One digit more. An overflow stays one, since the value only grows. -/
theorem Holds.push {a : Accumulator} {v base digit : Nat} (h : a.Holds v) (hdigit : digit < base)
    (hbase : base ≤ 16) : (a.push base digit).Holds (base * v + digit) := by
  have hd : digit.toUInt64.toNat = digit := by simp; omega
  have hb : base.toUInt64.toNat = base := by simp; omega
  have hmod : ∀ m, (v % m * base % m + digit) % m = (base * v + digit) % m := by
    intro m
    rw [Nat.mod_add_mod, Nat.add_mod, Nat.mul_mod, Nat.mod_mod, ← Nat.mul_mod, ← Nat.add_mod, Nat.mul_comm]
  constructor
  · rw [Accumulator.push, UInt64.toNat_add, UInt64.toNat_mul, h.word, hd, hb]
    exact hmod _
  · have hgrows : v ≤ base * v := Nat.le_mul_of_pos_left v (by omega)
    rw [Accumulator.push, Bool.or_eq_true, decide_eq_true_eq, lt_word_iff hdigit hbase, h.word, h.overflowed]
    rcases Nat.lt_or_ge v 0x10000000000000000 with hlt | hge
    · rw [Nat.mod_eq_of_lt hlt]
      omega
    · omega

/-- A run over all digits. -/
theorem holds_foldl {base : Nat} (hbase : base ≤ 16) (digits : List Nat) (h : ∀ d ∈ digits, d < base) :
    (digits.foldl (Accumulator.push base) empty).Holds (Nat.ofDigits base digits.reverse) := by
  induction digits using List.reverseRecOn with
  | nil => exact holds_empty
  | append_singleton digits d ih =>
    rw [List.foldl_append, List.reverse_append, List.reverse_singleton, List.singleton_append, Nat.ofDigits_cons,
      Nat.add_comm]
    exact (ih fun c hc => h c (by simp [hc])).push (h d (by simp)) hbase

/-- The number of an accumulator is the value, exactly where that has 63 bits. -/
theorem Holds.toNumber_eq {a : Accumulator} {v : Nat} (h : a.Holds v) : a.toNumber = exactOr v a.real := by
  have hmax : (0x7fffffffffffffff : UInt64).toNat = 0x7fffffffffffffff := rfl
  have hguard : (a.overflowed || 0x7fffffffffffffff < a.word) = true ↔ 0x8000000000000000 ≤ v := by
    rw [Bool.or_eq_true, decide_eq_true_eq, UInt64.lt_iff_toNat_lt, h.overflowed, h.word, hmax]
    omega
  rw [Accumulator.toNumber]
  split
  · rename_i hlarge
    rw [hguard] at hlarge
    exact (exactOr_of_not_fits (fun hfits => by have := hfits.2; omega) _).symm
  · rename_i hsmall
    rw [hguard] at hsmall
    refine (exactOr_eq_integer_iff.2 ?_).symm
    have hword : a.word.toBitVec.toNat = v := by
      rw [UInt64.toNat_toBitVec, h.word, Nat.mod_eq_of_lt (by omega)]
    have hsigned : a.word.toBitVec.toInt = a.word.toBitVec.toNat :=
      BitVec.toInt_eq_toNat_of_lt (by rw [hword]; omega)
    rw [← hword, ← hsigned]
    rfl

end Number.Accumulator

/-! ### Runs of digits -/

namespace Byte

/-- What the byte with a given number counts as a digit; `base` if it is none. -/
def digitRank (base n : Nat) : Nat :=
  if 48 ≤ n ∧ n ≤ 57 then n - 48
  else if 97 ≤ n ∧ n ≤ 102 then n - 87
  else if 65 ≤ n ∧ n ≤ 70 then n - 55
  else base

theorem digitValue?_eq_rank (base : Nat) (b : UInt8) : digitValue? base b
    = if digitRank base b.toNat < base then some (digitRank base b.toNat) else none := by
  simp only [digitValue?, digitRank, isDigit, Bool.and_eq_true, decide_eq_true_eq, UInt8.le_iff_toNat_le,
    UInt8.reduceToNat]
  split_ifs <;> rfl

theorem lt_of_digitValue? {base d : Nat} {b : UInt8} (h : digitValue? base b = some d) : d < base := by
  rw [digitValue?_eq_rank, Option.ite_none_right_eq_some] at h
  exact Option.some.inj h.2 ▸ h.1

theorem digitValue?_underscore (base : Nat) : digitValue? base (ch '_') = none := by
  have hrank : digitRank base (ch '_').toNat = base := rfl
  rw [digitValue?_eq_rank, hrank, if_neg (lt_irrefl base)]

theorem toNat_toUpper (b : UInt8) :
    (toUpper b).toNat = if 97 ≤ b.toNat ∧ b.toNat ≤ 122 then b.toNat - 32 else b.toNat := by
  simp only [toUpper, isLower, Bool.and_eq_true, decide_eq_true_eq, UInt8.le_iff_toNat_le, UInt8.reduceToNat]
  split_ifs with h
  · refine UInt8.toNat_sub_of_le _ _ ?_
    rw [UInt8.le_iff_toNat_le, show (32 : UInt8).toNat = 32 from rfl]
    omega
  · rfl

/-- The case of a letter does not matter to its value. -/
theorem digitValue?_toUpper (base : Nat) (b : UInt8) : digitValue? base (toUpper b) = digitValue? base b := by
  have hrank : digitRank base (toUpper b).toNat = digitRank base b.toNat := by
    rw [toNat_toUpper, digitRank, digitRank]
    split_ifs <;> omega
  rw [digitValue?_eq_rank, digitValue?_eq_rank, hrank]

theorem digitValue?_digitChar {base d : Nat} (hd : d < base) (hbase : base ≤ 16) :
    digitValue? base (ch d.digitChar) = some d := by
  have hrank : digitRank base (ch d.digitChar).toNat = d := by
    have hsixteen : d < 16 := by omega
    interval_cases d <;> rfl
  rw [digitValue?_eq_rank, hrank, if_pos hd]

end Byte

namespace Text

/-- What a run of digits of a base is made of. -/
def isInRun (base : Nat) (b : UInt8) : Bool := b == ch '_' || (Byte.digitValue? base b).isSome

/-- The digits of the longest run at the start of a text; underscores in the run are skipped. -/
def runDigits (base : Nat) (t : Text) : Text := (t.takeWhile (isInRun base)).filter (· != ch '_')

theorem leadingDigits_eq (base : Nat) (t : Text) :
    leadingDigits base t = (runDigits base t).map fun b => (Byte.digitValue? base b).getD 0 := by
  induction t with
  | nil => rfl
  | cons b t ih =>
    rw [leadingDigits, runDigits]
    by_cases hb : b = ch '_'
    · have hrun : isInRun base b = true := by simp [isInRun, hb]
      rw [if_pos (by simpa using hb), ih, List.takeWhile_cons_of_pos hrun, List.filter_cons_of_neg (by simpa using hb)]
      rfl
    · rw [if_neg (by simpa using hb)]
      cases hd : Byte.digitValue? base b with
      | some d =>
        have hrun : isInRun base b = true := by simp [isInRun, hd]
        rw [List.takeWhile_cons_of_pos hrun, List.filter_cons_of_pos (by simpa using hb), List.map_cons, hd, ih]
        rfl
      | none =>
        have hrun : isInRun base b ≠ true := by simp [isInRun, hd, hb]
        rw [List.takeWhile_cons_of_neg hrun]
        rfl

theorem lt_of_mem_leadingDigits {base d : Nat} {t : Text} (h : d ∈ leadingDigits base t) : d < base := by
  induction t with
  | nil => simp [leadingDigits] at h
  | cons b t ih =>
    rw [leadingDigits] at h
    split at h
    · exact ih h
    · split at h
      · rename_i d' hd
        rcases List.mem_cons.1 h with rfl | h
        · exact Byte.lt_of_digitValue? hd
        · exact ih h
      · simp at h

theorem runDigits_of_digits {base : Nat} {t : Text} (h : ∀ b ∈ t, (Byte.digitValue? base b).isSome) :
    runDigits base t = t := by
  have hrun : ∀ b ∈ t, isInRun base b = true := fun b hb => by simp [isInRun, h b hb]
  rw [runDigits, List.takeWhile_eq_self_iff.2 hrun, List.filter_eq_self]
  intro b hb
  rw [bne_iff_ne]
  rintro rfl
  have hnone := h _ hb
  rw [Byte.digitValue?_underscore] at hnone
  cases hnone

end Text

/-- Reading digits gives the exact value of the run where it has 63 bits. -/
theorem Number.ofDigits_leadingDigits {base : Nat} (hbase : base ≤ 16) (t : Text) : ∃ d,
    ofDigits base (Text.leadingDigits base t) = exactOr (Text.valueIn base (Text.runDigits base t)) d := by
  have hholds := Accumulator.holds_foldl hbase (Text.leadingDigits base t) fun d => Text.lt_of_mem_leadingDigits
  have hvalue : Nat.ofDigits base (Text.leadingDigits base t).reverse
      = Text.valueIn base (Text.runDigits base t) := by
    rw [Text.leadingDigits_eq, ← List.map_reverse]
    rfl
  rw [hvalue] at hholds
  exact ⟨_, hholds.toNumber_eq⟩

/-! ### Marks of a base -/

namespace Text

/-- A letter in either case, alone or behind a zero. -/
def letterMarks (lower upper : Char) : List Text :=
  [[ch '0', ch lower], [ch '0', ch upper], [ch lower], [ch upper]]

/-- The marks that may stand in front of hexadecimal digits, with the base they name. -/
def hexMarks : List (Text × Nat) := (letterMarks 'x' 'X').map (·, 16)

/-- The marks that may stand in front of digits read as octal otherwise. -/
def octMarks : List (Text × Nat) :=
  hexMarks ++ (letterMarks 'b' 'B').map (·, 2) ++ (letterMarks 'o' 'O').map (·, 8)

/-- The base that the mark at the start of a text names, and what stands behind the mark. -/
def afterMark (marks : List (Text × Nat)) (base : Nat) (t : Text) : Nat × Text :=
  match marks.find? fun m => m.1.isPrefixOf t with
  | some m => (m.2, t.drop m.1.length)
  | none => (base, t)

/-- The value of the longest run of digits behind blanks and a mark. -/
def markedValue (marks : List (Text × Nat)) (base : Nat) (t : Text) : Nat :=
  let r := afterMark marks base (dropSpaces t)
  valueIn r.1 (runDigits r.1 r.2)

theorem afterMark_cases (marks : List (Text × Nat)) (base : Nat) (t : Text) :
    (∃ m ∈ marks, ∃ rest, t = m.1 ++ rest ∧ afterMark marks base t = (m.2, rest)) ∨
      (∀ m ∈ marks, ¬m.1 <+: t) ∧ afterMark marks base t = (base, t) := by
  rw [afterMark]
  cases hfind : marks.find? fun m => m.1.isPrefixOf t with
  | some m =>
    have hstart : m.1.isPrefixOf t = true := List.find?_some (p := fun m : Text × Nat => m.1.isPrefixOf t) hfind
    obtain ⟨rest, rfl⟩ := List.isPrefixOf_iff_prefix.1 hstart
    exact .inl ⟨m, List.mem_of_find?_eq_some hfind, rest, rfl, congrArg (Prod.mk m.2) List.drop_left⟩
  | none =>
    refine .inr ⟨fun m hm => ?_, rfl⟩
    rw [← List.isPrefixOf_iff_prefix]
    exact List.find?_eq_none.1 hfind m hm

/-- A letter of either case that is read starts the text. -/
theorem dropLetter?_eq_none {lower upper : Char} (hlower : Byte.isLower (ch lower))
    (hupper : ch lower - 32 = ch upper) {t : Text} (h : ∀ c ∈ t.head?, c ≠ ch lower ∧ c ≠ ch upper) :
    Value.dropLetter? lower t = none := by
  cases t with
  | nil => rfl
  | cons b t =>
    rw [Value.dropLetter?, if_neg]
    rw [beq_iff_eq, Byte.toLower_eq_iff hlower, hupper, not_or]
    exact h b rfl

theorem dropMarker?_eq_none (lower upper : Char) (hlower : Byte.isLower (ch lower))
    (hupper : ch lower - 32 = ch upper) {t : Text} (h : ∀ m ∈ letterMarks lower upper, ¬m <+: t) :
    Value.dropMarker? lower t = none := by
  simp only [letterMarks, List.forall_mem_cons, List.not_mem_nil, false_implies, implies_true, and_true] at h
  obtain ⟨hzeroLower, hzeroUpper, hletterLower, hletterUpper⟩ := h
  have hstart : ∀ {c : UInt8} {u v : Text}, c ∈ v.head? → u ++ v = t → u ++ [c] <+: t := by
    rintro c u v hc rfl
    obtain ⟨rest, rfl⟩ := List.head?_eq_some_iff.1 hc
    exact ⟨rest, by simp⟩
  cases t with
  | nil => rfl
  | cons b t =>
    rw [Value.dropMarker?]
    split
    · rename_i hb
      rw [beq_iff_eq] at hb
      refine dropLetter?_eq_none hlower hupper fun c hc => ⟨?_, ?_⟩
      · rintro rfl
        exact hzeroLower (hstart (u := [ch '0']) hc (by rw [hb]; rfl))
      · rintro rfl
        exact hzeroUpper (hstart (u := [ch '0']) hc (by rw [hb]; rfl))
    · refine dropLetter?_eq_none hlower hupper fun c hc => ⟨?_, ?_⟩
      · rintro rfl
        exact hletterLower (hstart (u := []) hc rfl)
      · rintro rfl
        exact hletterUpper (hstart (u := []) hc rfl)

theorem afterMark_hexMarks (t : Text) : afterMark hexMarks 16 t = (16, (Value.dropMarker? 'x' t).getD t) := by
  rcases afterMark_cases hexMarks 16 t with ⟨m, hm, rest, rfl, hafter⟩ | ⟨hnone, hafter⟩
  · rw [hafter]
    simp only [hexMarks, letterMarks, List.map_cons, List.map_nil, List.mem_cons, List.not_mem_nil, or_false] at hm
    rcases hm with rfl | rfl | rfl | rfl <;> rfl
  · rw [hafter, dropMarker?_eq_none 'x' 'X' (by decide) (by decide)
      fun m hm => hnone (m, 16) (List.mem_map_of_mem hm)]
    rfl

theorem afterMark_octMarks (t : Text) : afterMark octMarks 8 t
    = match Value.dropMarker? 'x' t, Value.dropMarker? 'b' t, Value.dropMarker? 'o' t with
      | some rest, _, _ => (16, rest)
      | _, some rest, _ => (2, rest)
      | _, _, some rest => (8, rest)
      | none, none, none => (8, t) := by
  rcases afterMark_cases octMarks 8 t with ⟨m, hm, rest, rfl, hafter⟩ | ⟨hnone, hafter⟩
  · rw [hafter]
    simp only [octMarks, hexMarks, letterMarks, List.map_cons, List.map_nil, List.mem_append, List.mem_cons,
      List.not_mem_nil, or_false] at hm
    rcases hm with ((rfl | rfl | rfl | rfl) | rfl | rfl | rfl | rfl) | rfl | rfl | rfl | rfl <;> rfl
  · simp only [octMarks, hexMarks, List.forall_mem_append, List.forall_mem_map] at hnone
    rw [hafter, dropMarker?_eq_none 'x' 'X' (by decide) (by decide) hnone.1.1,
      dropMarker?_eq_none 'b' 'B' (by decide) (by decide) hnone.1.2,
      dropMarker?_eq_none 'o' 'O' (by decide) (by decide) hnone.2]

end Text

namespace Value

/-- Hexadecimal digits are read behind blanks and a mark. -/
theorem hex_eq {v : Value} {t : Text} (h : v.toText = .ok t) : hex v = .ok
    (let r := Text.afterMark Text.hexMarks 16 (Text.dropSpaces t)
     Number.ofDigits r.1 (Text.leadingDigits r.1 r.2)).toValue := by
  rw [hex, h, Text.afterMark_hexMarks]
  rfl

theorem oct_eq {v : Value} {t : Text} (h : v.toText = .ok t) : oct v = .ok
    (let r := Text.afterMark Text.octMarks 8 (Text.dropSpaces t)
     Number.ofDigits r.1 (Text.leadingDigits r.1 r.2)).toValue := by
  rw [oct, h, Text.afterMark_octMarks]
  rfl

theorem exactOr_afterMark {marks : List (Text × Nat)} (hmarks : marks.all (·.2 ≤ 16)) {base : Nat}
    (hbase : base ≤ 16) (t : Text) : ∃ d, ExactOr (.ok
      (let r := Text.afterMark marks base (Text.dropSpaces t)
       Number.ofDigits r.1 (Text.leadingDigits r.1 r.2)).toValue) (Text.markedValue marks base t) d := by
  have hle : (Text.afterMark marks base (Text.dropSpaces t)).1 ≤ 16 := by
    rcases Text.afterMark_cases marks base (Text.dropSpaces t) with ⟨m, hm, rest, -, hafter⟩ | ⟨-, hafter⟩
    · rw [hafter]
      exact of_decide_eq_true (List.all_eq_true.1 hmarks m hm)
    · rw [hafter]
      exact hbase
  obtain ⟨d, hd⟩ := Number.ofDigits_leadingDigits hle (Text.afterMark marks base (Text.dropSpaces t)).2
  exact ⟨d, hd ▸ exactOr_toValue _ d⟩

theorem hex_exact {v : Value} {t : Text} (h : v.toText = .ok t) :
    ∃ d, ExactOr (hex v) (Text.markedValue Text.hexMarks 16 t) d := by
  rw [hex_eq h]
  exact exactOr_afterMark (by decide) le_rfl t

theorem oct_exact {v : Value} {t : Text} (h : v.toText = .ok t) :
    ∃ d, ExactOr (oct v) (Text.markedValue Text.octMarks 8 t) d := by
  rw [oct_eq h]
  exact exactOr_afterMark (by decide) (by decide) t

theorem exists_toText {v : Value} (h : v.kind ≠ .list) : ∃ t, v.toText = .ok t := by
  cases v with
  | list items => exact absurd rfl h
  | empty | integer | float | string | bytes => exact ⟨_, rfl⟩

end Value

/-! ### Formatting in a base -/

namespace Text

theorem ofNatBase_of_lt {base n : Nat} (h : n < base) : ofNatBase base n = [ch n.digitChar] := by
  rw [ofNatBase, Nat.toDigits_of_lt_base h]
  rfl

theorem ofNatBase_of_le {base n : Nat} (hbase : 1 < base) (h : base ≤ n) :
    ofNatBase base n = ofNatBase base (n / base) ++ [ch (n % base).digitChar] := by
  rw [ofNatBase, Nat.toDigits_of_base_le hbase h, List.map_append]
  rfl

theorem ofNatBase_ne_nil (base n : Nat) : ofNatBase base n ≠ [] := by
  rw [ofNatBase, ne_eq, List.map_eq_nil_iff]
  exact Nat.toDigits_ne_nil

/-- The digits of a number are digits of the base, and their value is the number. -/
theorem ofNatBase_spec {base : Nat} (hbase : 1 < base) (hle : base ≤ 16) (n : Nat) :
    (∀ b ∈ ofNatBase base n, (Byte.digitValue? base b).isSome) ∧ valueIn base (ofNatBase base n) = n := by
  induction n using Nat.strong_induction_on with
  | _ n ih =>
    by_cases h : n < base
    · have hdigit := Byte.digitValue?_digitChar h hle
      rw [ofNatBase_of_lt h, List.forall_mem_singleton, valueIn]
      simp [hdigit]
    · have hlt : n % base < base := Nat.mod_lt _ (by omega)
      have hdigit := Byte.digitValue?_digitChar hlt hle
      obtain ⟨hdigits, hvalue⟩ := ih (n / base) (Nat.div_lt_self (by omega) hbase)
      rw [ofNatBase_of_le hbase (by omega), List.forall_mem_append, List.forall_mem_singleton, valueIn_concat,
        hvalue, hdigit]
      exact ⟨⟨hdigits, rfl⟩, Nat.div_add_mod n base⟩

theorem valueIn_toUpper (base : Nat) (t : Text) : valueIn base (toUpper t) = valueIn base t := by
  rw [valueIn, toUpper, ← List.map_reverse, List.map_map, valueIn]
  congr 2
  funext b
  simp only [Function.comp, Byte.digitValue?_toUpper]

/-- Digits that no mark can stand for are read from the start. -/
theorem markedValue_of_digits {marks : List (Text × Nat)} {base : Nat}
    (hmarks : marks.all fun m => m.1.any fun b => (Byte.digitValue? base b).isNone) {t : Text}
    (h : ∀ b ∈ t, (Byte.digitValue? base b).isSome) : markedValue marks base t = valueIn base t := by
  have hafter : afterMark marks base t = (base, t) := by
    rcases afterMark_cases marks base t with ⟨m, hm, rest, rfl, -⟩ | ⟨-, hafter⟩
    · obtain ⟨b, hb, hnone⟩ := List.any_eq_true.1 (List.all_eq_true.1 hmarks m hm)
      have hsome := h b (List.mem_append_left _ hb)
      rw [Option.isNone_iff_eq_none.1 hnone] at hsome
      cases hsome
    · exact hafter
  rw [markedValue, dropSpaces_of_hexDigits fun b hb => Byte.isHexDigit_of_digitValue? (h b hb), hafter,
    runDigits_of_digits h]

/-- Digits behind the mark of base sixteen. -/
theorem markedValue_zero_x {marks : List (Text × Nat)} {base : Nat} {t : Text}
    (hmarks : afterMark marks base (ascii "0x" ++ t) = (16, t)) (h : ∀ b ∈ t, (Byte.digitValue? 16 b).isSome) :
    markedValue marks base (ascii "0x" ++ t) = valueIn 16 t := by
  have hspaces : dropSpaces (ascii "0x" ++ t) = ascii "0x" ++ t := dropSpaces_of_head (by rintro _ ⟨⟩; rfl)
  rw [markedValue, hspaces, hmarks, runDigits_of_digits h]

end Text

namespace Format

/-- A field without width takes what is written. -/
theorem Field.pad_of_width_zero {f : Field} (h : f.width = 0) (zeros : Bool) (sign body : Text) :
    f.pad zeros sign body = sign ++ body := by
  rw [Field.pad, h]
  simp

theorem Field.digits_of_no_precision {f : Field} (h : f.precision = none) (base n : Nat) :
    f.digits base n = Text.ofNatBase base n := by
  have hpos := List.length_pos_of_ne_nil (Text.ofNatBase_ne_nil base n)
  have hfill : 1 - (Text.ofNatBase base n).length = 0 := by omega
  simp [Field.digits, h, hfill]

/-- The field of a directive with at most the flag of the alternate form. -/
def plainField (alternate : Bool) : Field := ⟨{ alternate }, 0, none⟩

/-- Directives that are read back as hexadecimal digits, each with its flag and letter. -/
def hexTemplates : List (String × Bool × Char) := [("%x", false, 'x'), ("%X", false, 'X'), ("%#x", true, 'x')]

/-- Directives that are read back as octal digits. -/
def octTemplates : List (String × Bool × Char) := [("%o", false, 'o'), ("%#o", true, 'o'), ("%#x", true, 'x')]

theorem parse_template : ∀ f ∈ hexTemplates ++ octTemplates,
    parse (ascii f.1) = [.directive ⟨{ alternate := f.2.1 }, none, none⟩ (ch f.2.2)] := by
  have hall : (hexTemplates ++ octTemplates).all fun f =>
      parse (ascii f.1) == [.directive ⟨{ alternate := f.2.1 }, none, none⟩ (ch f.2.2)] := by decide +kernel
  exact fun f hf => beq_iff_eq.1 (List.all_eq_true.1 hall f hf)

theorem letter_template : ∀ f ∈ hexTemplates ++ octTemplates,
    ¬(ascii "di").contains (ch f.2.2) ∧ (ascii "uoxX").contains (ch f.2.2) := by
  have hall : (hexTemplates ++ octTemplates).all fun f =>
      !(ascii "di").contains (ch f.2.2) && (ascii "uoxX").contains (ch f.2.2) := by decide +kernel
  exact fun f hf => by simpa using List.all_eq_true.1 hall f hf

/-- What is written by one of these directives: a mark, perhaps a zero, and the digits of the number. -/
theorem unsignedText_plainField (alternate : Bool) (letter : UInt8) (w : UInt64) :
    (plainField alternate).unsignedText letter w
      = (let base := if letter == ch 'u' then 10 else if letter == ch 'o' then 8 else 16
         let digits := Text.ofNatBase base w.toNat
         let digits := if base == 8 && alternate && digits.head? != some (ch '0') then ch '0' :: digits else digits
         let text := (if base == 16 && alternate && w != 0 then ascii "0x" else []) ++ digits
         if letter == ch 'X' then Text.toUpper text else text) := by
  simp only [Field.unsignedText, Field.pad_of_width_zero (f := plainField alternate) rfl,
    Field.digits_of_no_precision (f := plainField alternate) rfl]
  rfl

/-- A word has at most 64 digits, and a mark or a zero may stand in front of them. -/
theorem length_unsignedText_plainField_le (alternate : Bool) (letter : UInt8) (w : UInt64) :
    ((plainField alternate).unsignedText letter w).length ≤ 67 := by
  have hdigits : ∀ base, 1 < base → (Text.ofNatBase base w.toNat).length ≤ 64 := by
    intro base hbase
    rw [Text.ofNatBase, List.length_map, Nat.length_toDigits_le_iff hbase (by decide)]
    exact w.toNat_lt.trans_le (Nat.pow_le_pow_left hbase 64)
  have hbase : 1 < if letter == ch 'u' then 10 else if letter == ch 'o' then 8 else 16 := by split_ifs <;> decide
  have hle := hdigits _ hbase
  rw [unsignedText_plainField]
  generalize (if letter == ch 'u' then 10 else if letter == ch 'o' then 8 else 16) = base at hle ⊢
  simp only [apply_ite List.length, Text.toUpper, List.length_map, List.length_append, List.length_cons,
    List.length_nil, show (ascii "0x").length = 2 from rfl]
  split_ifs <;> omega

theorem write_plainField {letter : UInt8} (hsigned : ¬(ascii "di").contains letter)
    (hunsigned : (ascii "uoxX").contains letter) (alternate : Bool) (i : Int64) :
    (plainField alternate).write letter (.integer i)
      = .ok ((plainField alternate).unsignedText letter i.toUInt64) := by
  have hlength := length_unsignedText_plainField_le alternate letter i.toUInt64
  rw [Field.write, if_neg hsigned, if_pos hunsigned]
  refine congrArg Except.ok ((Field.guarded_of_plain rfl rfl _ _).trans (if_neg ?_))
  exact Nat.not_lt.2 (Nat.le_trans hlength (by decide))

/-- Formatting by one of these directives writes the word of the argument. -/
theorem format_template {f : String × Bool × Char} (hf : f ∈ hexTemplates ++ octTemplates) (i : Int64) :
    Value.format [.string (ascii f.1), .integer i]
      = .ok (.string ((plainField f.2.1).unsignedText (ch f.2.2) i.toUInt64)) := by
  have hparse := parse_template f hf
  obtain ⟨hsigned, hunsigned⟩ := letter_template f hf
  have hwrite : writeAll [.directive ⟨{ alternate := f.2.1 }, none, none⟩ (ch f.2.2)] [.integer i]
      = .ok ((plainField f.2.1).unsignedText (ch f.2.2) i.toUInt64 ++ []) := by
    change (((plainField f.2.1).write (ch f.2.2) (.integer i)).bind _).bind _ = _
    rw [write_plainField hsigned hunsigned]
    rfl
  have hformat : Value.format [.string (ascii f.1), .integer i]
      = (writeAll (parse (ascii f.1)) [.integer i]).map .string := by
    rw [Value.format]
    change (writeAll (parse (ascii f.1)) [.integer i]).bind _ = _
    cases writeAll (parse (ascii f.1)) [.integer i] <;> rfl
  rw [hformat, hparse, hwrite, List.append_nil]
  rfl

end Format

namespace Value

/-- The directives of base sixteen are undone by reading hexadecimal digits. -/
theorem markedValue_unsignedText_hex {f : String × Bool × Char}
    (hf : f ∈ Format.hexTemplates) (w : UInt64) :
    Text.markedValue Text.hexMarks 16 ((Format.plainField f.2.1).unsignedText (ch f.2.2) w) = w.toNat := by
  obtain ⟨hdigits, hvalue⟩ := Text.ofNatBase_spec (by decide : 1 < 16) le_rfl w.toNat
  have hmarks : Text.hexMarks.all fun m => m.1.any fun b => (Byte.digitValue? 16 b).isNone := by decide
  rw [Format.unsignedText_plainField]
  simp only [Format.hexTemplates, List.mem_cons, List.not_mem_nil, or_false] at hf
  rcases hf with rfl | rfl | rfl
  · change Text.markedValue _ 16 (Text.ofNatBase 16 w.toNat) = _
    rw [Text.markedValue_of_digits hmarks hdigits, hvalue]
  · change Text.markedValue _ 16 (Text.toUpper (Text.ofNatBase 16 w.toNat)) = _
    have hupper : ∀ b ∈ Text.toUpper (Text.ofNatBase 16 w.toNat), (Byte.digitValue? 16 b).isSome := by
      intro b hb
      obtain ⟨c, hc, rfl⟩ := List.mem_map.1 hb
      rw [Byte.digitValue?_toUpper]
      exact hdigits c hc
    rw [Text.markedValue_of_digits hmarks hupper, Text.valueIn_toUpper, hvalue]
  · change Text.markedValue _ 16 ((if w != 0 then ascii "0x" else []) ++ Text.ofNatBase 16 w.toNat) = _
    split
    · rw [Text.markedValue_zero_x rfl hdigits, hvalue]
    · rw [List.nil_append, Text.markedValue_of_digits hmarks hdigits, hvalue]

/-- The directives of base eight, and the marked one of base sixteen, are undone by reading octal digits. -/
theorem markedValue_unsignedText_oct {f : String × Bool × Char}
    (hf : f ∈ Format.octTemplates) (w : UInt64) :
    Text.markedValue Text.octMarks 8 ((Format.plainField f.2.1).unsignedText (ch f.2.2) w) = w.toNat := by
  obtain ⟨hdigits, hvalue⟩ := Text.ofNatBase_spec (by decide : 1 < 8) (by decide) w.toNat
  have hmarks : Text.octMarks.all fun m => m.1.any fun b => (Byte.digitValue? 8 b).isNone := by decide
  rw [Format.unsignedText_plainField]
  simp only [Format.octTemplates, List.mem_cons, List.not_mem_nil, or_false] at hf
  rcases hf with rfl | rfl | rfl
  · change Text.markedValue _ 8 (Text.ofNatBase 8 w.toNat) = _
    rw [Text.markedValue_of_digits hmarks hdigits, hvalue]
  · change Text.markedValue _ 8 (if (Text.ofNatBase 8 w.toNat).head? != some (ch '0') then
      ch '0' :: Text.ofNatBase 8 w.toNat else Text.ofNatBase 8 w.toNat) = _
    split
    · -- a zero in front is a digit that adds nothing
      have hzero : Text.valueIn 8 (ch '0' :: Text.ofNatBase 8 w.toNat) = Text.valueIn 8 (Text.ofNatBase 8 w.toNat) := by
        rw [← List.singleton_append, Text.valueIn_append, show Text.valueIn 8 [ch '0'] = 0 from rfl, zero_mul,
          zero_add]
      rw [Text.markedValue_of_digits hmarks (List.forall_mem_cons.2 ⟨rfl, hdigits⟩), hzero, hvalue]
    · rw [Text.markedValue_of_digits hmarks hdigits, hvalue]
  · change Text.markedValue _ 8 ((if w != 0 then ascii "0x" else []) ++ Text.ofNatBase 16 w.toNat) = _
    split
    · obtain ⟨hdigits, hvalue⟩ := Text.ofNatBase_spec (by decide : 1 < 16) le_rfl w.toNat
      rw [Text.markedValue_zero_x rfl hdigits, hvalue]
    · rename_i hw
      obtain rfl : w = 0 := by simpa using hw
      exact Text.markedValue_of_digits hmarks hdigits

/-- A number is read back from what a directive writes, if the text has its value in the base read. -/
theorem read_format {read : Value → Except Fault Value} {marks : List (Text × Nat)} {base : Nat}
    (hread : ∀ t, ∃ d, ExactOr (read (.string t)) (Text.markedValue marks base t) d) {f : String × Bool × Char}
    (hf : f ∈ Format.hexTemplates ++ Format.octTemplates) (hvalue : ∀ w : UInt64,
      Text.markedValue marks base ((Format.plainField f.2.1).unsignedText (ch f.2.2) w) = w.toNat)
    {n : Nat} (hn : n < 0x8000000000000000) :
    ∃ s, format [.string (ascii f.1), .integer (Int64.ofNat n)] = .ok s ∧
      read s = .ok (.integer (Int64.ofNat n)) := by
  have hword : (Int64.ofNat n).toUInt64.toNat = n := by
    simp
    omega
  have hint : (Int64.ofNat n).toInt = n := by
    rw [← Int64.ofInt_eq_ofNat]
    exact Int64.toInt_ofInt_of_le (by omega) (by omega)
  refine ⟨_, Format.format_template hf _, ?_⟩
  obtain ⟨d, hd⟩ := hread ((Format.plainField f.2.1).unsignedText (ch f.2.2) (Int64.ofNat n).toUInt64)
  rw [hd.integer, hvalue, hword, hint]

/-- Reading digits of bases two, eight and sixteen is exact. For a value other than a list, take the value of
the longest run of digits behind blanks and the mark of a base: the result is the integer with that value if it
is below `2 ^ 63`, no other integer, and a real otherwise. So a number below `2 ^ 63` is read back from its
text in base sixteen and in base eight, in small or capital letters and with or without a mark. -/
theorem hex_oct_exact (v : Value) (hv : v.kind ≠ .list) (n : Nat) (hn : n < 0x8000000000000000) :
    (∃ t, v.toText = .ok t ∧ (∃ d, ExactOr (hex v) (Text.markedValue Text.hexMarks 16 t) d) ∧
      ∃ d, ExactOr (oct v) (Text.markedValue Text.octMarks 8 t) d) ∧
    (∀ f ∈ ["%x", "%X", "%#x"], ∃ s, format [.string (ascii f), .integer (Int64.ofNat n)] = .ok s ∧
      hex s = .ok (.integer (Int64.ofNat n))) ∧
    ∀ f ∈ ["%o", "%#o", "%#x"], ∃ s, format [.string (ascii f), .integer (Int64.ofNat n)] = .ok s ∧
      oct s = .ok (.integer (Int64.ofNat n)) := by
  refine ⟨?_, ?_, ?_⟩
  · obtain ⟨t, ht⟩ := exists_toText hv
    exact ⟨t, ht, hex_exact ht, oct_exact ht⟩
  · have hnames : ["%x", "%X", "%#x"] = Format.hexTemplates.map (·.1) := rfl
    rw [hnames, List.forall_mem_map]
    intro f hf
    exact read_format (fun t => hex_exact rfl) (List.mem_append_left _ hf) (markedValue_unsignedText_hex hf) hn
  · have hnames : ["%o", "%#o", "%#x"] = Format.octTemplates.map (·.1) := rfl
    rw [hnames, List.forall_mem_map]
    intro f hf
    exact read_format (fun t => oct_exact rfl) (List.mem_append_right _ hf) (markedValue_unsignedText_oct hf) hn

/-- Sixteen digits past 63 bits give a real although the word has dropped a digit by then, and the largest
number is read back. -/
theorem hex_oct_exact_largest :
    (∃ d, hex (.string (ascii " 0x1_0000_0000_0000_0005")) = .ok (.float d)) ∧
    ∃ s, format [.string (ascii "%#o"), .integer (Int64.ofNat 0x7fffffffffffffff)] = .ok s ∧
      oct s = .ok (.integer (Int64.ofNat 0x7fffffffffffffff)) := by
  obtain ⟨⟨t, ht, ⟨d, hd⟩, -⟩, -, hoct⟩ := hex_oct_exact (.string (ascii " 0x1_0000_0000_0000_0005")) (by decide)
    0x7fffffffffffffff (by decide)
  have hvalue : Text.markedValue Text.hexMarks 16 (ascii " 0x1_0000_0000_0000_0005") = 0x10000000000000005 := by
    decide +kernel
  obtain rfl : ascii " 0x1_0000_0000_0000_0005" = t := Except.ok.inj ht
  rw [hvalue] at hd
  exact ⟨⟨d, hd.float (by decide)⟩, hoct "%#o" (by decide)⟩

end Value

end TagFormula

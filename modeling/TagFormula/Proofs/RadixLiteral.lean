import Mathlib.Data.Nat.Digits.Defs
import TagFormula.NormalForm
import TagFormula.Proofs.Rounding

/-!
Integers in number tokens: digits of one of four bases behind the mark of the base. Main statement: a token
written so stands for the value of its digits, exactly or as the nearest word. The exception are digits of
another base than ten from `2 ^ 64` on, which are read a second time, as a decimal.
-/

namespace TagFormula

namespace Byte

theorem isHexDigit_iff {b : UInt8} : isHexDigit b ↔ (48 ≤ b.toNat ∧ b.toNat ≤ 57) ∨
    (97 ≤ b.toNat ∧ b.toNat ≤ 102) ∨ (65 ≤ b.toNat ∧ b.toNat ≤ 70) := by
  simp only [isHexDigit, digitValue?, isDigit, Bool.and_eq_true, decide_eq_true_eq, UInt8.le_iff_toNat_le,
    UInt8.reduceToNat]
  split_ifs <;> simp <;> omega

theorem isHexDigit_of_digitValue? {base : Nat} {b : UInt8} (h : (digitValue? base b).isSome) :
    isHexDigit b := by
  rw [isHexDigit_iff]
  simp only [digitValue?, isDigit, Bool.and_eq_true, decide_eq_true_eq, UInt8.le_iff_toNat_le,
    UInt8.reduceToNat] at h
  split_ifs at h <;> simp_all

theorem isDigit_of_digitValue? {base : Nat} (hbase : base ≤ 10) {b : UInt8}
    (h : (digitValue? base b).isSome) : isDigit b := by
  simp only [digitValue?, Bool.and_eq_true, decide_eq_true_eq, UInt8.le_iff_toNat_le, UInt8.reduceToNat] at h
  split_ifs at h <;> simp_all <;> omega

/-- A digit is none of the other bytes that the readers give a meaning to. -/
theorem ne_of_isHexDigit {b c : UInt8} (h : isHexDigit b) (hc : isHexDigit c = false) : b ≠ c := by
  rintro rfl
  rw [h] at hc
  cases hc

theorem isSpace_of_isHexDigit {b : UInt8} (h : isHexDigit b) : isSpace b = false := by
  rw [isHexDigit_iff] at h
  simp [isSpace, UInt8.le_iff_toNat_le, ← UInt8.toNat_inj]
  omega

theorem toNat_toLower (b : UInt8) :
    (toLower b).toNat = if 65 ≤ b.toNat ∧ b.toNat ≤ 90 then b.toNat + 32 else b.toNat := by
  simp only [toLower, isUpper, Bool.and_eq_true, decide_eq_true_eq, UInt8.le_iff_toNat_le,
    UInt8.reduceToNat]
  split_ifs with h
  · rw [UInt8.toNat_add]
    simp
    omega
  · rfl

/-- A letter in either case. -/
theorem toLower_eq_iff {b c : UInt8} (hc : isLower c) : toLower b = c ↔ b = c ∨ b = c - 32 := by
  simp only [isLower, Bool.and_eq_true, decide_eq_true_eq, UInt8.le_iff_toNat_le, UInt8.reduceToNat] at hc
  have hle : 32 ≤ c := by
    rw [UInt8.le_iff_toNat_le]
    simp
    omega
  have hsub : (c - 32).toNat = c.toNat - 32 := UInt8.toNat_sub_of_le c 32 hle
  rw [← UInt8.toNat_inj, ← UInt8.toNat_inj, ← UInt8.toNat_inj, toNat_toLower, hsub]
  split_ifs <;> omega

theorem toLower_eq_zero_iff {b : UInt8} : toLower b = ch '0' ↔ b = ch '0' := by
  have hzero : (ch '0').toNat = 48 := rfl
  rw [← UInt8.toNat_inj, ← UInt8.toNat_inj, toNat_toLower, hzero]
  split_ifs <;> omega

theorem isHexDigit_toLower {b : UInt8} (h : isHexDigit b) : isHexDigit (toLower b) := by
  rw [isHexDigit_iff] at h ⊢
  rw [toNat_toLower]
  split_ifs <;> omega

end Byte

namespace Text

/-- The number that the digits of a base stand for, the most significant one in front. -/
def valueIn (base : Nat) (t : Text) : Nat :=
  Nat.ofDigits base (t.reverse.map fun b => (Byte.digitValue? base b).getD 0)

theorem valueIn_concat (base : Nat) (t : Text) (b : UInt8) :
    valueIn base (t ++ [b]) = base * valueIn base t + (Byte.digitValue? base b).getD 0 := by
  rw [valueIn, List.reverse_append, List.reverse_singleton, List.singleton_append, List.map_cons,
    Nat.ofDigits_cons, Nat.add_comm]
  rfl

theorem natValue?_eq_valueIn {base : Nat} {t : Text} (h : ∀ b ∈ t, (Byte.digitValue? base b).isSome) :
    natValue? base t = some (valueIn base t) := by
  induction t using List.reverseRecOn with
  | nil => rfl
  | append_singleton t b ih =>
    obtain ⟨d, hd⟩ := Option.isSome_iff_exists.1 (h b (by simp))
    have ht := ih fun c hc => h c (by simp [hc])
    rw [natValue?] at ht ⊢
    simp [List.foldlM_append, ht, hd, valueIn_concat]

theorem natValue_eq_valueIn {t : Text} (h : ∀ b ∈ t, Byte.isDigit b) : natValue t = valueIn 10 t := by
  refine Option.some.inj ((natValue?_of_digits h).symm.trans (natValue?_eq_valueIn fun b hb => ?_))
  rw [Byte.digitValue?_ten (h b hb)]
  rfl

/-- The number that a text starts with, as a decimal with an exponent. -/
def decimalReading (t : Text) : ℚ :=
  valueIn 10 (t.takeWhile Byte.isDigit) * 10 ^ exponent (t.dropWhile Byte.isDigit)
where
  exponent : Text → Nat
    | [] => 0
    | b :: rest => if b = ch 'e' ∨ b = ch 'E' then valueIn 10 (rest.takeWhile Byte.isDigit) else 0

theorem decimalReading_of_digits {t : Text} (h : ∀ b ∈ t, Byte.isDigit b) :
    decimalReading t = valueIn 10 t := by
  rw [decimalReading, List.takeWhile_eq_self_iff.2 h, List.dropWhile_eq_nil_iff.2 h, decimalReading.exponent,
    pow_zero, mul_one]

theorem dropSpaces_append {blanks rest : Text} (hblanks : ∀ b ∈ blanks, Byte.isSpace b)
    (hrest : ∀ b ∈ rest.head?, Byte.isSpace b = false) : dropSpaces (blanks ++ rest) = rest := by
  rw [dropSpaces, List.dropWhile_append_of_pos hblanks]
  cases rest with
  | nil => rfl
  | cons b rest => exact List.dropWhile_cons_of_neg (by simp [hrest b rfl])

theorem dropSpaces_of_hexDigits {t : Text} (h : ∀ b ∈ t, Byte.isHexDigit b) : dropSpaces t = t :=
  dropSpaces_append (List.forall_mem_nil _) fun b hb =>
    Byte.isSpace_of_isHexDigit (h b (List.mem_of_mem_head? hb))

end Text

/-! ### Reading digits as a real -/

namespace Double

theorem readSign_of_hexDigits {t : Text} (h : ∀ b ∈ t.head?, Byte.isHexDigit b) :
    readSign t = (false, t) := by
  cases t with
  | nil => rfl
  | cons b rest =>
    have hb := h b rfl
    simp [readSign, Byte.ne_of_isHexDigit hb (c := ch '-') rfl, Byte.ne_of_isHexDigit hb (c := ch '+') rfl]

/-- Digits do not start with a word that has another letter. -/
theorem dropWord?_of_hexDigits (word : String) {c : UInt8} (hc : c ∈ ascii word)
    (hdigit : Byte.isHexDigit c = false) {t : Text} (h : ∀ b ∈ t, Byte.isHexDigit b) :
    dropWord? word t = none := by
  rw [dropWord?, if_neg]
  intro heq
  rw [beq_iff_eq.1 heq, Text.toLower, List.mem_map] at hc
  obtain ⟨b, hb, rfl⟩ := hc
  rw [Byte.isHexDigit_toLower (h b (List.mem_of_mem_take hb))] at hdigit
  cases hdigit

theorem exists_of_dropWord? {word : String} {t rest : Text} (h : dropWord? word t = some rest) :
    ∃ start, Text.toLower start = ascii word ∧ t = start ++ rest := by
  rw [dropWord?] at h
  split_ifs at h with heq
  cases h
  exact ⟨_, (beq_iff_eq.1 heq).symm, (List.take_append_drop ..).symm⟩

theorem readDigits?_of_hexDigits {t : Text} (h : ∀ b ∈ t, Byte.isHexDigit b) :
    readDigits? Byte.isDigit t = if (t.takeWhile Byte.isDigit).isEmpty then none
      else some (t.takeWhile Byte.isDigit, 0, t.dropWhile Byte.isDigit) := by
  unfold readDigits?
  cases hrest : t.dropWhile Byte.isDigit with
  | nil => rfl
  | cons b rest =>
    have hb : b ∈ t := (List.dropWhile_sublist _).mem (hrest ▸ List.mem_cons_self ..)
    simp [Byte.ne_of_isHexDigit (h b hb) (c := ch '.') rfl]

theorem readExponent_of_hexDigits {t : Text} (h : ∀ b ∈ t, Byte.isHexDigit b) :
    (readExponent (ch 'e') (ch 'E') t).1 = Text.decimalReading.exponent t := by
  cases t with
  | nil => rfl
  | cons b rest =>
    have hsign : readSign rest = (false, rest) :=
      readSign_of_hexDigits fun c hc => h c (List.mem_cons_of_mem _ (List.mem_of_mem_head? hc))
    have hvalue := Text.natValue_eq_valueIn (t := rest.takeWhile Byte.isDigit) fun c hc =>
      List.mem_takeWhile_imp hc
    rw [readExponent, Text.decimalReading.exponent, hsign]
    by_cases hletter : b = ch 'e' ∨ b = ch 'E'
    · -- without digits behind the letter the exponent is zero either way
      cases hrun : rest.takeWhile Byte.isDigit with
      | nil => simp [hrun, Text.valueIn]
      | cons c run =>
        rw [hrun] at hvalue
        simp [hrun, hletter, hvalue]
    · have hnone : (b == ch 'e' || b == ch 'E') = false := by simpa using hletter
      simp [hletter, hnone]

/-- Digits in any base are read as the decimal they start with. -/
theorem isNearest_leadingReal {t : Text} (h : ∀ b ∈ t, Byte.isHexDigit b) :
    IsNearest t.decimalReading (Literal.leadingReal t) := by
  have hread : read? t = readDecimal? false t := by
    simp only [read?, Text.dropSpaces_of_hexDigits h,
      readSign_of_hexDigits fun b hb => h b (List.mem_of_mem_head? hb),
      dropWord?_of_hexDigits "infinity" (c := ch 'n') (by decide) rfl h,
      dropWord?_of_hexDigits "inf" (c := ch 'n') (by decide) rfl h,
      dropWord?_of_hexDigits "nan" (c := ch 'n') (by decide) rfl h,
      dropWord?_of_hexDigits "0x" (c := ch 'x') (by decide) rfl h, Option.bind_none]
  rw [Literal.leadingReal, hread, readDecimal?, readDigits?_of_hexDigits h]
  split
  · rename_i hnone
    rw [List.isEmpty_iff] at hnone
    rw [Text.decimalReading, hnone]
    have hzero : IsNearest 0 zero := isNearest_tiny false le_rfl (by positivity)
    simpa [Text.valueIn] using hzero
  · have hvalue := Text.natValue_eq_valueIn (t := t.takeWhile Byte.isDigit) fun b hb =>
      List.mem_takeWhile_imp hb
    have hexponent := readExponent_of_hexDigits (t := t.dropWhile Byte.isDigit) fun b hb =>
      h b ((List.dropWhile_sublist _).mem hb)
    have hnearest := isNearest_ofDecimal false (Text.valueIn 10 (t.takeWhile Byte.isDigit))
      (Text.decimalReading.exponent (t.dropWhile Byte.isDigit))
    rw [zpow_natCast] at hnearest
    simpa [hvalue, hexponent, Text.decimalReading, signed] using hnearest

theorem value_of_nonneg {d : Double} (h : d.isNegative = false) : d.value = d.significand * 2 ^ d.exponent := by
  rw [value, if_neg (by simp [h]), size]

theorem two_pow_lt_overflow {n : Nat} (hn : n ≤ 971) : (2 : ℚ) ^ n < overflow := by
  have hp : (2 : ℚ) ^ (n : Int) ≤ 2 ^ (971 : Int) := zpow_le_zpow_right₀ one_le_two (by omega)
  have hpos : (0 : ℚ) < 2 ^ (n : Int) := by positivity
  rw [zpow_natCast] at hp hpos
  rw [overflow_eq]
  generalize (2 : ℚ) ^ (971 : Int) = p at hp ⊢
  linarith

end Double

/-! ### Bases -/

/-- The bases that integers are written in. -/
inductive Radix where
  | binary
  | octal
  | decimal
  | hexadecimal
  deriving DecidableEq

namespace Radix

def base : Radix → Nat
  | .binary => 2
  | .octal => 8
  | .decimal => 10
  | .hexadecimal => 16

/-- What stands in front of the digits. -/
def marks : Radix → List Text
  | .binary => [ascii "0b", ascii "0B"]
  | .octal => [ascii "0"]
  | .decimal => [[]]
  | .hexadecimal => [ascii "0x", ascii "0X"]

def isDigit (r : Radix) (b : UInt8) : Bool := (Byte.digitValue? r.base b).isSome

theorem isHexDigit {r : Radix} {b : UInt8} (h : r.isDigit b) : Byte.isHexDigit b :=
  Byte.isHexDigit_of_digitValue? h

/-- A text is the mark of a base with something behind it. Without a mark, only zero itself starts with a
zero. -/
structure Marks (r : Radix) (body t : Text) : Prop where
  mark : ∃ m ∈ r.marks, t = m ++ body
  nonempty : body ≠ []
  unmarked : r = .decimal → body.head? = some (ch '0') → body = [ch '0']

theorem marks_of_ne_decimal {r : Radix} (hr : r ≠ .decimal) {body t : Text} (hne : body ≠ [])
    (hmark : ∃ m ∈ r.marks, t = m ++ body) : r.Marks body t :=
  ⟨hmark, hne, fun h => absurd h hr⟩

theorem Marks.ne_nil {r : Radix} {body t : Text} (h : r.Marks body t) : t ≠ [] := by
  obtain ⟨m, -, rfl⟩ := h.mark
  exact List.append_ne_nil_of_right_ne_nil m h.nonempty

/-- A text is the mark of a base with digits of that base behind it. -/
structure Spells (r : Radix) (digits t : Text) : Prop extends Marks r digits t where
  all : ∀ b ∈ digits, r.isDigit b

/-- What may stand in front of digits for their sign. -/
inductive Sign : Bool → Text → Prop
  | absent : Sign false []
  | plus : Sign false [ch '+']
  | minus : Sign true [ch '-']

/-- Digits behind blanks, a sign and, in base sixteen, the mark. -/
inductive Run (r : Radix) (negative : Bool) (digits : Text) : Text → Prop
  | mk {blanks sign mark : Text} (hblanks : ∀ b ∈ blanks, Byte.isSpace b) (hsign : Sign negative sign)
      (hmark : mark = [] ∨ r = .hexadecimal ∧ mark ∈ r.marks) (hne : digits ≠ [])
      (hdigits : ∀ b ∈ digits, r.isDigit b) : Run r negative digits (blanks ++ (sign ++ (mark ++ digits)))

/-- With or without the mark of base sixteen, a run starts with a digit behind its sign. -/
theorem isDigit_head {r : Radix} {mark digits : Text} (hmark : mark = [] ∨ r = .hexadecimal ∧ mark ∈ r.marks)
    (hdigits : ∀ b ∈ digits, r.isDigit b) : ∀ b ∈ (mark ++ digits).head?, r.isDigit b := by
  intro b hb
  rcases hmark with rfl | ⟨rfl, hmark⟩
  · exact hdigits b (List.mem_of_mem_head? hb)
  · simp only [marks, List.mem_cons, List.not_mem_nil, or_false] at hmark
    rcases hmark with rfl | rfl <;> cases hb <;> rfl

/-- What is read behind a mark: a run up to the first zero byte, or nothing at all in front of it. -/
def Accepts (r : Radix) (body : Text) : Prop :=
  body.upToZero = [] ∨ ∃ negative digits, r.Run negative digits body.upToZero

end Radix

/-! ### Runs of digits -/

namespace DigitRun

open Radix

theorem readSign_append {negative : Bool} {sign : Text} (h : Sign negative sign) {t : Text}
    (ht : ∀ b ∈ t.head?, Byte.isHexDigit b) : Double.readSign (sign ++ t) = (negative, t) := by
  cases h with
  | absent => exact Double.readSign_of_hexDigits ht
  | plus => rfl
  | minus => rfl

theorem exists_sign (t : Text) :
    ∃ sign, Sign (Double.readSign t).1 sign ∧ t = sign ++ (Double.readSign t).2 := by
  cases t with
  | nil => exact ⟨[], .absent, rfl⟩
  | cons b rest =>
    rw [Double.readSign]
    split_ifs with hminus hplus
    · exact ⟨_, .minus, by rw [beq_iff_eq.1 hminus]; rfl⟩
    · exact ⟨_, .plus, by rw [beq_iff_eq.1 hplus]; rfl⟩
    · exact ⟨[], .absent, rfl⟩

theorem dropHexMark_append {mark digits : Text} (hmark : mark = [] ∨ mark ∈ hexadecimal.marks)
    (hne : digits ≠ []) (hdigits : ∀ b ∈ digits, Byte.isHexDigit b) :
    dropHexMark (mark ++ digits) = digits := by
  obtain ⟨b, rest, rfl⟩ := List.exists_cons_of_ne_nil hne
  have hb := hdigits b (List.mem_cons_self ..)
  simp only [marks, List.mem_cons, List.not_mem_nil, or_false] at hmark
  rcases hmark with rfl | rfl | rfl
  · rw [List.nil_append, dropHexMark, Double.dropWord?_of_hexDigits "0x" (c := ch 'x') (by decide) rfl hdigits]
  · have hword : Double.dropWord? "0x" (ascii "0x" ++ b :: rest) = some (b :: rest) := rfl
    simp only [dropHexMark, hword, hb, if_true]
  · have hword : Double.dropWord? "0x" (ascii "0X" ++ b :: rest) = some (b :: rest) := rfl
    simp only [dropHexMark, hword, hb, if_true]

theorem exists_hexMark (t : Text) :
    ∃ mark, (mark = [] ∨ mark ∈ hexadecimal.marks) ∧ t = mark ++ dropHexMark t := by
  unfold dropHexMark
  split
  · rename_i b rest hword
    split
    · obtain ⟨start, hstart, rfl⟩ := Double.exists_of_dropWord? hword
      refine ⟨start, Or.inr ?_, rfl⟩
      obtain ⟨z, more, rfl, hz, hmore⟩ := List.map_eq_cons_iff.1 hstart
      obtain ⟨x, more, rfl, hx, hnil⟩ := List.map_eq_cons_iff.1 hmore
      obtain rfl := List.map_eq_nil_iff.1 hnil
      rw [Byte.toLower_eq_zero_iff.1 hz]
      rcases (Byte.toLower_eq_iff (c := ch 'x') rfl).1 hx with rfl | rfl <;> decide
    · exact ⟨[], Or.inl rfl, rfl⟩
  · exact ⟨[], Or.inl rfl, rfl⟩

/-- The text behind blanks, a sign and the mark, if there are any. -/
def bodyOf (r : Radix) (t : Text) : Text :=
  let body := (Double.readSign (Text.dropSpaces t)).2
  if r.base = 16 then dropHexMark body else body

theorem read?_eq (r : Radix) (t : Text) :
    read? r.base t = if (bodyOf r t).takeWhile r.isDigit = [] then none
      else some ⟨(Double.readSign (Text.dropSpaces t)).1,
        Text.valueIn r.base ((bodyOf r t).takeWhile r.isDigit), (bodyOf r t).dropWhile r.isDigit⟩ := by
  have hvalue := Text.natValue?_eq_valueIn (t := (bodyOf r t).takeWhile r.isDigit) fun b hb =>
    List.mem_takeWhile_imp (p := r.isDigit) hb
  cases hrun : (bodyOf r t).takeWhile r.isDigit with
  | nil =>
    unfold bodyOf Radix.isDigit at hrun
    simp only [read?, hrun, if_true]
  | cons b run =>
    rw [hrun] at hvalue
    unfold bodyOf Radix.isDigit at hrun ⊢
    simp [read?, hrun, hvalue]

section

variable {r : Radix} {negative : Bool} {digits t : Text}

/-- A run is read to its end. -/
theorem read?_of_run (h : r.Run negative digits t) :
    read? r.base t = some ⟨negative, Text.valueIn r.base digits, []⟩ := by
  obtain ⟨hblanks, hsign, hmark, hne, hdigits⟩ := h
  rename_i blanks sign mark
  have hhex : ∀ b ∈ digits, Byte.isHexDigit b := fun b hb => isHexDigit (hdigits b hb)
  have hhead : ∀ b ∈ (mark ++ digits).head?, Byte.isHexDigit b := fun b hb =>
    isHexDigit (isDigit_head hmark hdigits b hb)
  have hfirst : ∀ b ∈ (sign ++ (mark ++ digits)).head?, Byte.isSpace b = false := by
    intro b hb
    cases hsign with
    | absent => exact Byte.isSpace_of_isHexDigit (hhead b hb)
    | plus | minus => cases hb; rfl
  have hsigned : Double.readSign (Text.dropSpaces (blanks ++ (sign ++ (mark ++ digits))))
      = (negative, mark ++ digits) := by
    rw [Text.dropSpaces_append hblanks hfirst, readSign_append hsign hhead]
  have hbody : bodyOf r (blanks ++ (sign ++ (mark ++ digits))) = digits := by
    rw [bodyOf, hsigned]
    rcases hmark with rfl | ⟨rfl, hmark⟩
    · split_ifs
      · exact dropHexMark_append (Or.inl rfl) hne hhex
      · rfl
    · exact dropHexMark_append (Or.inr hmark) hne hhex
  rw [read?_eq, hbody, hsigned, List.takeWhile_eq_self_iff.2 hdigits, List.dropWhile_eq_nil_iff.2 hdigits,
    if_neg hne]

/-- What is read to its end is a run. -/
theorem exists_run_of_read? {run : DigitRun} (h : read? r.base t = some run) (hrest : run.rest = []) :
    ∃ digits, r.Run run.negative digits t := by
  obtain ⟨sign, hsign, hsigned⟩ := exists_sign (Text.dropSpaces t)
  obtain ⟨mark, hmark, hmarked⟩ : ∃ mark, (mark = [] ∨ r = .hexadecimal ∧ mark ∈ r.marks) ∧
      (Double.readSign (Text.dropSpaces t)).2 = mark ++ bodyOf r t := by
    cases r with
    | hexadecimal =>
      obtain ⟨mark, hmark, heq⟩ := exists_hexMark (Double.readSign (Text.dropSpaces t)).2
      exact ⟨mark, hmark.imp_right fun h => ⟨rfl, h⟩, heq⟩
    | _ => exact ⟨[], Or.inl rfl, rfl⟩
  rw [read?_eq] at h
  split_ifs at h with hnone
  cases h
  have hall := List.dropWhile_eq_nil_iff.1 hrest
  have hblanks : t = t.takeWhile Byte.isSpace ++ Text.dropSpaces t := List.takeWhile_append_dropWhile.symm
  rw [List.takeWhile_eq_self_iff.2 hall] at hnone
  refine ⟨bodyOf r t, ?_⟩
  have hrun := Run.mk (fun b hb => List.mem_takeWhile_imp (l := t) hb) hsign hmark hnone hall
  rwa [← hmarked, ← hsigned, ← hblanks] at hrun

end

end DigitRun

/-! ### Digits behind a mark -/

namespace Radix

theorem Spells.run {r : Radix} {digits t : Text} (h : r.Spells digits t) : r.Run false digits digits :=
  .mk (List.forall_mem_nil _) .absent (Or.inl rfl) h.nonempty h.all

theorem Spells.upToZero {r : Radix} {digits t : Text} (h : r.Spells digits t) :
    digits.upToZero = digits := by
  refine List.takeWhile_eq_self_iff.2 fun b hb => ?_
  simpa using Byte.ne_of_isHexDigit (isHexDigit (h.all b hb)) rfl

theorem Spells.accepts {r : Radix} {digits t : Text} (h : r.Spells digits t) : r.Accepts digits :=
  Or.inr ⟨false, digits, h.upToZero.symm ▸ h.run⟩

theorem Run.head {r : Radix} {negative : Bool} {digits t : Text} (h : r.Run negative digits t) {b : UInt8}
    (hb : b ∈ t.head?) : Byte.isSpace b ∨ b = ch '+' ∨ b = ch '-' ∨ r.isDigit b := by
  obtain ⟨hblanks, hsign, hmark, hne, hdigits⟩ := h
  rename_i blanks sign mark
  cases blanks with
  | cons c blanks =>
    cases hb
    exact Or.inl (hblanks b (List.mem_cons_self ..))
  | nil =>
    cases hsign with
    | plus => exact Or.inr (Or.inl (Option.some.inj hb).symm)
    | minus => exact Or.inr (Or.inr (Or.inl (Option.some.inj hb).symm))
    | absent => exact Or.inr (Or.inr (Or.inr (isDigit_head hmark hdigits b hb)))

/-- What is accepted starts with a zero byte, a blank, a sign or a digit. -/
theorem Accepts.head {r : Radix} {body : Text} (h : r.Accepts body) {b : UInt8} (hb : b ∈ body.head?) :
    b = 0 ∨ Byte.isSpace b ∨ b = ch '+' ∨ b = ch '-' ∨ r.isDigit b := by
  by_cases hzero : b = 0
  · exact Or.inl hzero
  · cases body with
    | nil => cases hb
    | cons c rest =>
      cases hb
      have hseen : Text.upToZero (b :: rest) = b :: Text.upToZero rest :=
        List.takeWhile_cons_of_pos (by simpa using hzero)
      rw [Accepts, hseen] at h
      rcases h with h | ⟨negative, digits, h⟩
      · cases h
      · exact Or.inr (h.head rfl)

/-- What is accepted as octal or decimal does not have the mark of another base. -/
theorem Marks.not_marks {r s : Radix} {body other t : Text} (h : r.Marks body t)
    (hr : r = octal ∨ r = decimal) (hbody : r.Accepts body) (hs : s = hexadecimal ∨ s = binary) :
    ¬s.Marks other t := by
  intro hother
  obtain ⟨m, hm, heq⟩ := hother.mark
  obtain ⟨letter, hletter, rfl⟩ : ∃ letter ∈ ascii "xXbB", m = [ch '0', letter] := by
    rcases hs with rfl | rfl <;> simp only [marks, List.mem_cons, List.not_mem_nil, or_false] at hm <;>
      rcases hm with rfl | rfl <;> exact ⟨_, by decide, rfl⟩
  obtain ⟨n, hn, rfl⟩ := h.mark
  rcases hr with rfl | rfl <;> obtain rfl := List.mem_singleton.1 hn
  · -- the letter would be the first octal digit
    have hrest : body = letter :: other := (List.cons.inj heq).2
    have hnone : ((ascii "xXbB").all fun c =>
        !(c == 0 || Byte.isSpace c || c == ch '+' || c == ch '-' || octal.isDigit c)) = true := by decide
    have hno := List.all_eq_true.1 hnone letter hletter
    have hfirst := hbody.head (b := letter) (by rw [hrest]; rfl)
    simp only [Bool.not_eq_true', Bool.or_eq_false_iff, beq_eq_false_iff_ne, and_assoc] at hno
    obtain ⟨hzero, hspace, hplus, hminus, hdigit⟩ := hno
    simp [hzero, hspace, hplus, hminus, hdigit] at hfirst
  · rw [List.nil_append] at heq
    have hsingle := h.unmarked rfl (by rw [heq]; rfl)
    rw [heq] at hsingle
    cases hsingle

end Radix

namespace Literal

open Radix

theorem isSome_ofDigits_iff {r : Radix} {body : Text} (hne : body ≠ []) :
    (ofDigits r.base body).isSome ↔ r.Accepts body := by
  rw [ofDigits, Accepts]
  simp only [List.isEmpty_iff, hne, if_false]
  by_cases hseen : body.upToZero = []
  · simp [hseen]
  · simp only [hseen, if_false, false_or]
    constructor
    · intro h
      split at h
      · cases h
      · rename_i run hrun
        by_cases hrest : run.rest = []
        · exact ⟨_, DigitRun.exists_run_of_read? hrun hrest⟩
        · simp [hrest] at h
    · rintro ⟨negative, digits, h⟩
      rw [DigitRun.read?_of_run h]
      simp only [List.isEmpty_nil, Bool.not_true, Bool.false_eq_true, if_false]
      split <;> rfl

/-- The literal of digits: their value if a word holds it, and else what they are read as in decimal. -/
theorem ofDigits_of_spells {r : Radix} {digits t : Text} (h : r.Spells digits t) :
    ofDigits r.base digits = some (if Text.valueIn r.base digits < 0x10000000000000000 then
      ofNat (Text.valueIn r.base digits) else .float (leadingReal digits)) := by
  rw [ofDigits, h.upToZero, DigitRun.read?_of_run h.run]
  simp only [List.isEmpty_iff, h.nonempty, DigitRun.word?]
  by_cases hlt : Text.valueIn r.base digits < 0x10000000000000000
  · have hmod : Text.valueIn r.base digits % 0x10000000000000000 = Text.valueIn r.base digits :=
      Nat.mod_eq_of_lt hlt
    simp [hlt, hmod]
  · simp [hlt]

/-! ### Which base a token is in -/

theorem exists_ofNat_eq_integer {n : Nat} (h : n < 2 ^ 63) :
    ∃ i : Int64, i.toInt = n ∧ ofNat n = .integer i := by
  refine ⟨Int64.ofNat n, Int64.toInt_ofNat_of_lt h, ?_⟩
  rw [ofNat, if_pos (by omega)]

theorem ofNat_eq_float {n : Nat} (h : 2 ^ 63 ≤ n) : ofNat n = .float (Double.ofInt n) := by
  rw [ofNat, if_neg (by omega)]

theorem markedDigits?_eq_some_iff {letter : Char} (hletter : Byte.isLower (ch letter)) {t body : Text} :
    markedDigits? letter t = some body ↔
      body ≠ [] ∧ ∃ m ∈ [[ch '0', ch letter], [ch '0', ch letter - 32]], t = m ++ body := by
  constructor
  · intro h
    unfold markedDigits? at h
    split at h
    · rename_i z m b rest
      split_ifs at h with hmark
      cases h
      rw [Bool.and_eq_true, beq_iff_eq, beq_iff_eq] at hmark
      rw [hmark.1]
      refine ⟨List.cons_ne_nil _ _, ?_⟩
      rcases (Byte.toLower_eq_iff hletter).1 hmark.2 with rfl | rfl
      · exact ⟨[ch '0', ch letter], by simp, rfl⟩
      · exact ⟨[ch '0', ch letter - 32], by simp, rfl⟩
    · cases h
  · rintro ⟨hne, m, hm, rfl⟩
    obtain ⟨b, rest, rfl⟩ := List.exists_cons_of_ne_nil hne
    have hlower : ∀ c, c = ch letter ∨ c = ch letter - 32 → Byte.toLower c = ch letter := fun c =>
      (Byte.toLower_eq_iff hletter).2
    simp only [List.mem_cons, List.not_mem_nil, or_false] at hm
    rcases hm with rfl | rfl
    · simp [markedDigits?, hlower (ch letter) (Or.inl rfl)]
    · simp [markedDigits?, hlower (ch letter - 32) (Or.inr rfl)]

theorem markedDigits?_hexadecimal {t body : Text} :
    markedDigits? 'x' t = some body ↔ hexadecimal.Marks body t := by
  rw [markedDigits?_eq_some_iff rfl]
  exact ⟨fun h => marks_of_ne_decimal (by decide) h.1 h.2, fun h => ⟨h.nonempty, h.mark⟩⟩

theorem markedDigits?_binary {t body : Text} :
    markedDigits? 'b' t = some body ↔ binary.Marks body t := by
  rw [markedDigits?_eq_some_iff rfl]
  exact ⟨fun h => marks_of_ne_decimal (by decide) h.1 h.2, fun h => ⟨h.nonempty, h.mark⟩⟩

/-- A token without underscores that is not written as a real: it has no point and no exponent, or the mark of
base two or sixteen with something behind it. -/
def WrittenAsInteger (t : Text) : Prop :=
  (∀ b ∈ t, b ∉ ascii ".eE") ∨ ∃ body, hexadecimal.Marks body t ∨ binary.Marks body t

theorem WrittenAsInteger.plain {t : Text} (h : WrittenAsInteger t) (hx : markedDigits? 'x' t = none)
    (hb : markedDigits? 'b' t = none) : ∀ b ∈ t, b ∉ ascii ".eE" := by
  rcases h with h | ⟨body, h | h⟩
  · exact h
  · rw [markedDigits?_hexadecimal.2 h] at hx
    cases hx
  · rw [markedDigits?_binary.2 h] at hb
    cases hb

section

variable {content t body : Text} (ht : content.filter (· != ch '_') = t)
include ht

theorem ofNumberToken_of_hexadecimal (h : hexadecimal.Marks body t) :
    ofNumberToken content = ofDigits 16 body := by
  simp [ofNumberToken, ht, h.ne_nil, markedDigits?_hexadecimal.2 h]

theorem ofNumberToken_of_binary (h : binary.Marks body t) : ofNumberToken content = ofDigits 2 body := by
  have hx : markedDigits? 'x' t = none := by
    obtain ⟨m, hm, rfl⟩ := h.mark
    obtain ⟨b, rest, rfl⟩ := List.exists_cons_of_ne_nil h.nonempty
    simp only [marks, List.mem_cons, List.not_mem_nil, or_false] at hm
    rcases hm with rfl | rfl <;> rfl
  simp [ofNumberToken, ht, h.ne_nil, hx, markedDigits?_binary.2 h]

theorem ofNumberToken_of_unmarked (hx : markedDigits? 'x' t = none) (hb : markedDigits? 'b' t = none)
    (hplain : ∀ b ∈ t, b ∉ ascii ".eE") {r : Radix} (hr : r = octal ∨ r = decimal) (h : r.Marks body t) :
    ofNumberToken content = ofDigits r.base body := by
  have hempty : t.isEmpty = false := by simpa using h.ne_nil
  have hany : (t.any fun b => (ascii ".eE").contains b) = false :=
    List.any_eq_false.2 fun b hb => by simpa using hplain b hb
  simp only [ofNumberToken, ht, hempty, hx, hb, hany]
  obtain ⟨m, hm, rfl⟩ := h.mark
  obtain ⟨b, rest, rfl⟩ := List.exists_cons_of_ne_nil h.nonempty
  rcases hr with rfl | rfl <;> obtain rfl := List.mem_singleton.1 hm
  · rfl
  · cases rest with
    | nil => rfl
    | cons c rest =>
      have hzero : b ≠ ch '0' := fun heq => by simpa using h.unmarked rfl (by rw [heq]; rfl)
      simp [hzero, base]

/-- An accepted token is read in the base of its mark. -/
theorem ofNumberToken_of_marks (hinteger : WrittenAsInteger t) {r : Radix} (h : r.Marks body t)
    (hbody : r.Accepts body) : ofNumberToken content = ofDigits r.base body := by
  have hunmarked : r = octal ∨ r = decimal → ofNumberToken content = ofDigits r.base body := by
    intro hr
    have hx : markedDigits? 'x' t = none := Option.eq_none_iff_forall_ne_some.2 fun other hother =>
      h.not_marks hr hbody (Or.inl rfl) (markedDigits?_hexadecimal.1 hother)
    have hb : markedDigits? 'b' t = none := Option.eq_none_iff_forall_ne_some.2 fun other hother =>
      h.not_marks hr hbody (Or.inr rfl) (markedDigits?_binary.1 hother)
    exact ofNumberToken_of_unmarked ht hx hb (hinteger.plain hx hb) hr h
  cases r with
  | hexadecimal => exact ofNumberToken_of_hexadecimal ht h
  | binary => exact ofNumberToken_of_binary ht h
  | octal => exact hunmarked (Or.inl rfl)
  | decimal => exact hunmarked (Or.inr rfl)

/-- A token that is not written as a real is read in one of the bases. -/
theorem exists_marks (hinteger : WrittenAsInteger t) (hne : t ≠ []) :
    ∃ (r : Radix) (body : Text), r.Marks body t ∧ ofNumberToken content = ofDigits r.base body := by
  cases hx : markedDigits? 'x' t with
  | some body =>
    have h := markedDigits?_hexadecimal.1 hx
    exact ⟨_, body, h, ofNumberToken_of_hexadecimal ht h⟩
  | none =>
    cases hb : markedDigits? 'b' t with
    | some body =>
      have h := markedDigits?_binary.1 hb
      exact ⟨_, body, h, ofNumberToken_of_binary ht h⟩
    | none =>
      have hplain := hinteger.plain hx hb
      obtain ⟨z, rest, rfl⟩ := List.exists_cons_of_ne_nil hne
      by_cases hzero : z = ch '0' ∧ rest ≠ []
      · have h : octal.Marks rest (z :: rest) :=
          marks_of_ne_decimal (by decide) hzero.2 ⟨_, List.mem_singleton_self _, by rw [hzero.1]; rfl⟩
        exact ⟨_, rest, h, ofNumberToken_of_unmarked ht hx hb hplain (Or.inl rfl) h⟩
      · have h : decimal.Marks (z :: rest) (z :: rest) := by
          refine ⟨⟨_, List.mem_singleton_self _, rfl⟩, hne, fun _ hhead => ?_⟩
          have hz : z = ch '0' := Option.some.inj hhead
          have hrest : rest = [] := by_contra fun hrest => hzero ⟨hz, hrest⟩
          rw [hz, hrest]
        exact ⟨_, z :: rest, h, ofNumberToken_of_unmarked ht hx hb hplain (Or.inr rfl) h⟩

end

end Literal

/-! ### What a token stands for -/

namespace Radix

theorem isDigit_of_base_le {r : Radix} (hr : r.base ≤ 10) {b : UInt8} (h : r.isDigit b) : Byte.isDigit b :=
  Byte.isDigit_of_digitValue? hr h

theorem Spells.writtenAsInteger {r : Radix} {digits t : Text} (h : r.Spells digits t) :
    Literal.WrittenAsInteger t := by
  have hplain : ∀ {b : UInt8}, Byte.isDigit b → b ∉ ascii ".eE" := by
    intro b hb
    have hne : ∀ c, Byte.isDigit c = false → b ≠ c := fun c => Byte.ne_of_isDigit hb
    simp [ascii, hne (ch '.') rfl, hne (ch 'e') rfl, hne (ch 'E') rfl]
  cases r with
  | hexadecimal => exact Or.inr ⟨digits, Or.inl h.toMarks⟩
  | binary => exact Or.inr ⟨digits, Or.inr h.toMarks⟩
  | octal =>
    obtain ⟨m, hm, rfl⟩ := h.mark
    obtain rfl := List.mem_singleton.1 hm
    refine Or.inl fun b hb => ?_
    rcases List.mem_cons.1 hb with rfl | hb
    · exact hplain rfl
    · exact hplain (isDigit_of_base_le (by decide) (h.all b hb))
  | decimal =>
    obtain ⟨m, hm, rfl⟩ := h.mark
    obtain rfl := List.mem_singleton.1 hm
    exact Or.inl fun b hb => hplain (isDigit_of_base_le (by decide) (h.all b hb))

theorem Spells.ofNumberToken {r : Radix} {digits content : Text}
    (h : r.Spells digits (content.filter (· != ch '_'))) :
    Literal.ofNumberToken content = some (if Text.valueIn r.base digits < 0x10000000000000000 then
      .ofNat (Text.valueIn r.base digits) else .float (Literal.leadingReal digits)) := by
  rw [Literal.ofNumberToken_of_marks rfl h.writtenAsInteger h.toMarks h.accepts, Literal.ofDigits_of_spells h]

/-- A number token of digits behind the mark of their base stands for the value of the digits: it is that
integer below `2 ^ 63` and the nearest word from there on. Digits of another base than ten give the word
nearest to their value below `2 ^ 64` only, and from there on the word nearest to the decimal that they start
with. -/
theorem literal_of_spells (r : Radix) (digits : Text) (t : Token) (parts : List Expr) (hk : t.kind = .number)
    (h : r.Spells digits (t.content.filter (· != ch '_'))) :
    let v := Text.valueIn r.base digits
    let literal := Rule.leaf.reduce? (.group t parts)
    (v < 2 ^ 63 → ∃ i : Int64, i.toInt = v ∧ literal = some (.integer i)) ∧
    (2 ^ 63 ≤ v → r = .decimal ∨ v < 2 ^ 64 → ∃ d, Double.IsNearest v d ∧ literal = some (.float d)) ∧
    (2 ^ 64 ≤ v → r ≠ .decimal →
      ∃ d, Double.IsNearest digits.decimalReading d ∧ literal = some (.float d)) := by
  intro v literal
  have hliteral : literal = some (.literal (if v < 0x10000000000000000 then .ofNat v
      else .float (Literal.leadingReal digits))) := by
    simp [literal, Rule.leaf, Leaf.reduce?, hk, h.ofNumberToken, v]
  have hreal := Double.isNearest_leadingReal fun b hb => isHexDigit (h.all b hb)
  refine ⟨fun hv => ?_, fun hv hr => ?_, fun hv _ => ⟨_, hreal, ?_⟩⟩
  · obtain ⟨i, hi, heq⟩ := Literal.exists_ofNat_eq_integer hv
    refine ⟨i, hi, ?_⟩
    rw [hliteral, if_pos (by omega), heq]
    rfl
  · by_cases hword : v < 2 ^ 64
    · refine ⟨_, Double.isNearest_ofInt v, ?_⟩
      rw [hliteral, if_pos (by omega), Literal.ofNat_eq_float hv]
      rfl
    · obtain rfl : r = .decimal := hr.resolve_right hword
      rw [Text.decimalReading_of_digits fun b hb => isDigit_of_base_le (by decide) (h.all b hb)] at hreal
      refine ⟨_, hreal, ?_⟩
      rw [hliteral, if_neg (by omega)]
      rfl
  · rw [hliteral, if_neg (by omega)]
    rfl

/-- The largest word, with underscores. -/
theorem literal_of_spells_word :
    let t : Token := ⟨.number, [], ascii "0xFFFF_FFFF_FFFF_FFFF", [], none⟩
    let digits := ascii "FFFFFFFFFFFFFFFF"
    hexadecimal.Spells digits (t.content.filter (· != ch '_')) ∧ Text.valueIn 16 digits = 2 ^ 64 - 1 ∧
      ∃ d, Double.IsNearest (Text.valueIn 16 digits) d ∧ Rule.leaf.reduce? (.group t []) = some (.float d) := by
  intro t digits
  have hspells : hexadecimal.Spells digits (t.content.filter (· != ch '_')) :=
    ⟨marks_of_ne_decimal (by decide) (by decide) ⟨ascii "0x", by decide, by decide⟩,
      List.all_eq_true.1 (by decide)⟩
  have hvalue : Text.valueIn 16 digits = 2 ^ 64 - 1 := by decide
  have h := literal_of_spells hexadecimal digits t [] rfl hspells
  exact ⟨hspells, hvalue, h.2.1 (by rw [base, hvalue]; decide) (Or.inr (by rw [base, hvalue]; decide))⟩

/-- `2 ^ 64` in base sixteen is read as a power of ten. -/
theorem literal_not_nearest :
    let t : Token := ⟨.number, [], ascii "0x10000000000000000", [], none⟩
    let digits := ascii "10000000000000000"
    hexadecimal.Spells digits (t.content.filter (· != ch '_')) ∧ Text.valueIn 16 digits = 2 ^ 64 ∧
      Rule.leaf.reduce? (.group t []) = some (.float (Double.ofInt (10 ^ 16))) ∧
      ¬Double.IsNearest (2 ^ 64) (Double.ofInt (10 ^ 16)) := by
  intro t digits
  refine ⟨⟨marks_of_ne_decimal (by decide) (by decide) ⟨ascii "0x", by decide, by decide⟩,
    List.all_eq_true.1 (by decide)⟩, by decide, by rfl, fun h => ?_⟩
  have hpower : (Double.ofInt (2 ^ 64)).value = (0x10000000000000 : Nat) * 2 ^ (12 : Int) :=
    Double.value_of_nonneg (by decide)
  have hread : (Double.ofInt (10 ^ 16)).value = (0x11c37937e08000 : Nat) * 2 ^ (1 : Int) :=
    Double.value_of_nonneg (by decide)
  have hlt : |(2 ^ 64 : ℚ)| < Double.overflow := by
    rw [abs_of_nonneg (by positivity)]
    exact Double.two_pow_lt_overflow (by decide)
  have hnearest := h.nearest hlt (Double.ofInt (2 ^ 64)) (by decide)
  rw [hpower, hread] at hnearest
  norm_num at hnearest

end Radix

end TagFormula

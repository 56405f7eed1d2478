import TagFormula.Proofs.ExactPower
import TagFormula.Proofs.RadixLiteral

/-!
Numbers at the start of a text. A numeral has a sign, digits around a point and an exponent, most of which may
be absent. Main statement: a text counts as the longest numeral it starts with behind its blanks, as the
integer it writes if there is neither point nor exponent and 64 bits are enough, else as the nearest word.
-/

namespace TagFormula

namespace Text

theorem takeWhile_digits {digits rest : Text} (h : ∀ b ∈ digits, Byte.isDigit b)
    (hrest : ∀ b ∈ rest.head?, Byte.isDigit b = false) : (digits ++ rest).takeWhile Byte.isDigit = digits := by
  rw [List.takeWhile_append_of_pos h]
  cases rest with
  | nil => exact List.append_nil _
  | cons b rest => rw [List.takeWhile_cons_of_neg (by simp [hrest b rfl]), List.append_nil]

theorem dropWhile_digits {digits rest : Text} (h : ∀ b ∈ digits, Byte.isDigit b)
    (hrest : ∀ b ∈ rest.head?, Byte.isDigit b = false) : (digits ++ rest).dropWhile Byte.isDigit = rest := by
  rw [List.dropWhile_append_of_pos h]
  cases rest with
  | nil => rfl
  | cons b rest => exact List.dropWhile_cons_of_neg (by simp [hrest b rfl])

theorem dropSpaces_of_head {t : Text} (h : ∀ b ∈ t.head?, Byte.isSpace b = false) : dropSpaces t = t :=
  dropSpaces_append (List.forall_mem_nil _) h

theorem valueIn_append (base : Nat) (s t : Text) :
    valueIn base (s ++ t) = valueIn base s * base ^ t.length + valueIn base t := by
  rw [valueIn, List.reverse_append, List.map_append, Nat.ofDigits_append, List.length_map, List.length_reverse,
    Nat.add_comm, Nat.mul_comm]
  rfl

end Text

namespace Double

/-- A decimal keeps its sign, also where it is rounded to zero. -/
theorem isNegative_ofDecimal (negative : Bool) (m : Nat) (e : Int) :
    (ofDecimal negative m e).isNegative = negative := by
  simp only [ofDecimal]
  split_ifs
  · exact isNegative_ofParts negative (by decide)
  · exact isNegative_ofParts negative (by decide)
  · exact isNegative_ofParts negative (by decide)
  · exact isNegative_ofFraction negative _ _

/-- A text does not start with a word one of whose letters it does not have. -/
theorem dropWord?_of_not_mem (word : String) {c : UInt8} (hc : c ∈ ascii word) {t : Text}
    (h : ∀ b ∈ t, Byte.toLower b ≠ c) : dropWord? word t = none := by
  rw [dropWord?, if_neg]
  intro heq
  rw [beq_iff_eq.1 heq, Text.toLower, List.mem_map] at hc
  obtain ⟨b, hb, hbc⟩ := hc
  exact h b (List.mem_of_mem_take hb) hbc

end Double

namespace Number

open Radix (Sign)

/-! ### Numerals and their parts -/

/-- The exponent of a numeral. -/
structure Exponent where
  letter : UInt8
  negative : Bool
  sign : Text
  digits : Text
  isLetter : letter = ch 'e' ∨ letter = ch 'E'
  isSign : Sign negative sign
  areDigits : ∀ b ∈ digits, Byte.isDigit b
  nonempty : digits ≠ []

/-- A numeral: a sign or none, digits with or without a point among them, and an exponent or none. Digits
stand on at least one side of the point. -/
structure Spelling where
  negative : Bool
  sign : Text
  whole : Text
  /-- The digits behind the point, if there is one. -/
  part : Option Text
  exponent : Option Exponent
  isSign : Sign negative sign
  wholeDigits : ∀ b ∈ whole, Byte.isDigit b
  partDigits : ∀ p ∈ part, ∀ b ∈ p, Byte.isDigit b
  nonempty : whole ≠ [] ∨ ∃ p ∈ part, p ≠ []

def Exponent.text (e : Exponent) : Text := e.letter :: (e.sign ++ e.digits)

def Exponent.value (e : Exponent) : Int :=
  if e.negative then -(Text.valueIn 10 e.digits : Int) else Text.valueIn 10 e.digits

namespace Spelling

def partText (s : Spelling) : Text := s.part.elim [] (ch '.' :: ·)

def exponentText (s : Spelling) : Text := s.exponent.elim [] Exponent.text

def body (s : Spelling) : Text := s.whole ++ (s.partText ++ s.exponentText)

/-- The numeral as it is written. -/
def text (s : Spelling) : Text := s.sign ++ s.body

/-- Neither a point nor an exponent is written. -/
def IsInteger (s : Spelling) : Prop := s.part = none ∧ s.exponent = none

/-- The value of a numeral without point and exponent. -/
def integer (s : Spelling) : Int :=
  if s.negative then -(Text.valueIn 10 s.whole : Int) else Text.valueIn 10 s.whole

/-- The power of ten that the exponent stands for. -/
def scale (s : Spelling) : Int := s.exponent.elim 0 Exponent.value

/-- The number that a numeral stands for. -/
def value (s : Spelling) : ℚ :=
  let part := s.part.getD []
  Double.signed s.negative
    ((Text.valueIn 10 s.whole + Text.valueIn 10 part / 10 ^ part.length) * 10 ^ s.scale)

/-- A text starts with the numeral and with no longer one. -/
structure LongestIn (s : Spelling) (t : Text) : Prop where
  starts : s.text <+: t
  longest : ∀ s' : Spelling, s'.text <+: t → s'.text.length ≤ s.text.length

/-- Where a numeral stands in front of a text, that text does not continue it. -/
structure Stops (s : Spelling) (rest : Text) : Prop where
  digit : ∀ b ∈ rest.head?, Byte.isDigit b = false
  point : s.IsInteger → rest.head? ≠ some (ch '.')
  exponent : s.exponent = none → ∀ e : Exponent, ¬e.text <+: rest

/-! ### The longest numeral -/

/-- A text that starts with a numeral starts with a longest one. -/
theorem exists_longestIn {s : Spelling} {t : Text} (h : s.text <+: t) : ∃ s' : Spelling, s'.LongestIn t := by
  induction hn : t.length - s.text.length using Nat.strong_induction_on generalizing s with
  | _ n ih =>
    by_cases hlongest : ∀ s' : Spelling, s'.text <+: t → s'.text.length ≤ s.text.length
    · exact ⟨s, h, hlongest⟩
    · push Not at hlongest
      obtain ⟨s', hs', hlt⟩ := hlongest
      have hle := hs'.length_le
      exact ih _ (by omega) hs' rfl

theorem forall_mem_concat {digits : Text} {b : UInt8} (h : ∀ c ∈ digits, Byte.isDigit c) (hb : Byte.isDigit b) :
    ∀ c ∈ digits ++ [b], Byte.isDigit c :=
  List.forall_mem_append.2 ⟨h, List.forall_mem_singleton.2 hb⟩

/-- A digit behind a numeral belongs to its last run of digits. -/
theorem exists_text_concat_digit (s : Spelling) {b : UInt8} (hb : Byte.isDigit b) :
    ∃ s' : Spelling, s'.text = s.text ++ [b] := by
  obtain ⟨negative, sign, whole, part, exponent, hsign, hwhole, hpart, hne⟩ := s
  cases exponent with
  | some e =>
    obtain ⟨letter, negative', sign', digits, hletter, hsign', hdigits, hdne⟩ := e
    refine ⟨⟨negative, sign, whole, part, some ⟨letter, negative', sign', digits ++ [b], hletter, hsign',
      forall_mem_concat hdigits hb, by simp⟩, hsign, hwhole, hpart, hne⟩, ?_⟩
    simp [text, body, partText, exponentText, Exponent.text]
  | none =>
    cases part with
    | some p =>
      refine ⟨⟨negative, sign, whole, some (p ++ [b]), none, hsign, hwhole, ?_, .inr ⟨_, rfl, by simp⟩⟩, ?_⟩
      · rintro _ ⟨⟩
        exact forall_mem_concat (hpart p rfl) hb
      · simp [text, body, partText, exponentText]
    | none =>
      refine ⟨⟨negative, sign, whole ++ [b], none, none, hsign, forall_mem_concat hwhole hb, hpart,
        .inl (by simp)⟩, ?_⟩
      simp [text, body, partText, exponentText]

/-- A point behind an integer makes a numeral with a point. -/
theorem exists_text_concat_point (s : Spelling) (hs : s.IsInteger) :
    ∃ s' : Spelling, s'.text = s.text ++ [ch '.'] := by
  obtain ⟨negative, sign, whole, part, exponent, hsign, hwhole, hpart, hne⟩ := s
  obtain ⟨rfl, rfl⟩ := hs
  have hwne : whole ≠ [] := hne.resolve_right (by rintro ⟨p, ⟨⟩, -⟩)
  refine ⟨⟨negative, sign, whole, some [], none, hsign, hwhole, ?_, .inl hwne⟩, ?_⟩
  · rintro _ ⟨⟩
    exact List.forall_mem_nil _
  · simp [text, body, partText, exponentText]

theorem exists_text_append_exponent (s : Spelling) (hs : s.exponent = none) (e : Exponent) :
    ∃ s' : Spelling, s'.text = s.text ++ e.text :=
  ⟨{ s with exponent := some e }, by simp [text, body, partText, exponentText, hs]⟩

/-- Nothing that would make a longer numeral stands behind the longest one. -/
theorem LongestIn.not_longer {s s' : Spelling} {rest more : Text} (h : s.LongestIn (s.text ++ rest))
    (htext : s'.text = s.text ++ more) (hne : more ≠ []) : ¬more <+: rest := by
  intro hmore
  have hle := h.longest s' (htext ▸ (List.prefix_append_right_inj _).2 hmore)
  have hpos := List.length_pos_of_ne_nil hne
  rw [htext, List.length_append] at hle
  omega

theorem singleton_isPrefix_of_mem_head? {b : UInt8} {rest : Text} (h : b ∈ rest.head?) : [b] <+: rest := by
  obtain ⟨rest', rfl⟩ := List.head?_eq_some_iff.1 h
  exact ⟨rest', rfl⟩

theorem LongestIn.stops {s : Spelling} {rest : Text} (h : s.LongestIn (s.text ++ rest)) : s.Stops rest := by
  refine ⟨fun b hb => ?_, fun hs hpoint => ?_, fun hs e => ?_⟩
  · rw [Bool.eq_false_iff]
    intro hdigit
    obtain ⟨s', hs'⟩ := s.exists_text_concat_digit hdigit
    exact h.not_longer hs' (by simp) (singleton_isPrefix_of_mem_head? hb)
  · obtain ⟨s', hs'⟩ := s.exists_text_concat_point hs
    exact h.not_longer hs' (by simp) (singleton_isPrefix_of_mem_head? hpoint)
  · obtain ⟨s', hs'⟩ := s.exists_text_append_exponent hs e
    exact h.not_longer hs' (by simp [Exponent.text])

/-! ### Reading a numeral -/

theorem readSign_sign_append {negative : Bool} {sign t : Text} (h : Sign negative sign)
    (ht : ∀ b ∈ t.head?, b ≠ ch '-' ∧ b ≠ ch '+') : Double.readSign (sign ++ t) = (negative, t) := by
  cases h with
  | plus => rfl
  | minus => rfl
  | absent =>
    cases t with
    | nil => rfl
    | cons b t => simp [Double.readSign, ht b rfl]

/-- The body of a numeral starts with a digit or with the point. -/
theorem isDigit_head_body (s : Spelling) (rest : Text) : ∀ b ∈ (s.body ++ rest).head?, Byte.isDigit b ∨ b = ch '.' := by
  intro b hb
  obtain ⟨negative, sign, whole, part, exponent, hsign, hwhole, hpart, hne⟩ := s
  cases whole with
  | cons c whole =>
    cases hb
    exact .inl (hwhole _ (List.mem_cons_self ..))
  | nil =>
    obtain ⟨p, hp, -⟩ := hne.resolve_left (fun h => h rfl)
    cases hp
    cases hb
    exact .inr rfl

theorem readSign_text (s : Spelling) (rest : Text) :
    Double.readSign (s.text ++ rest) = (s.negative, s.body ++ rest) := by
  rw [text, List.append_assoc]
  refine readSign_sign_append s.isSign fun b hb => ?_
  rcases s.isDigit_head_body rest b hb with hdigit | rfl
  · exact ⟨Byte.ne_of_isDigit hdigit rfl, Byte.ne_of_isDigit hdigit rfl⟩
  · decide

theorem readExponent_text (e : Exponent) {rest : Text} (h : ∀ b ∈ rest.head?, Byte.isDigit b = false) :
    Double.readExponent (ch 'e') (ch 'E') (e.text ++ rest) = (e.value, rest) := by
  have hsign : Double.readSign (e.sign ++ (e.digits ++ rest)) = (e.negative, e.digits ++ rest) := by
    refine readSign_sign_append e.isSign fun b hb => ?_
    rw [List.head?_append_of_ne_nil _ e.nonempty] at hb
    have hdigit := e.areDigits b (List.mem_of_mem_head? hb)
    exact ⟨Byte.ne_of_isDigit hdigit rfl, Byte.ne_of_isDigit hdigit rfl⟩
  have hletter : (e.letter == ch 'e' || e.letter == ch 'E') = true := by simpa using e.isLetter
  rw [Exponent.text, List.cons_append, List.append_assoc, Double.readExponent, hsign]
  simp only [Text.takeWhile_digits e.areDigits h, Text.dropWhile_digits e.areDigits h, hletter,
    Text.natValue_eq_valueIn e.areDigits]
  simp [e.nonempty, Exponent.value]

/-- An exponent is read where one is written. -/
theorem readExponent_of_forall_not {rest : Text} (h : ∀ e : Exponent, ¬e.text <+: rest) :
    Double.readExponent (ch 'e') (ch 'E') rest = (0, rest) := by
  cases rest with
  | nil => rfl
  | cons b rest =>
    obtain ⟨sign, hsign, hrest⟩ := DigitRun.exists_sign rest
    rw [Double.readExponent]
    dsimp only
    split
    · rename_i hexp
      rw [Bool.and_eq_true, Bool.or_eq_true, beq_iff_eq, beq_iff_eq] at hexp
      refine absurd ?_ (h ⟨b, _, sign, (Double.readSign rest).2.takeWhile Byte.isDigit, hexp.1, hsign,
        fun c hc => List.mem_takeWhile_imp hc, by simpa using hexp.2⟩)
      have hrun : sign ++ (Double.readSign rest).2.takeWhile Byte.isDigit <+: sign ++ (Double.readSign rest).2 :=
        (List.prefix_append_right_inj _).2 (List.takeWhile_prefix _)
      rw [← hrest] at hrun
      exact List.cons_prefix_cons.2 ⟨rfl, hrun⟩
    · rfl

theorem readExponent_exponentText (s : Spelling) {rest : Text} (h : s.Stops rest) :
    Double.readExponent (ch 'e') (ch 'E') (s.exponentText ++ rest) = (s.scale, rest) := by
  rw [exponentText, scale]
  cases he : s.exponent with
  | some e => exact readExponent_text e h.digit
  | none => exact readExponent_of_forall_not (h.exponent he)

/-- The digits of a numeral, those on both sides of the point together. -/
def digits (s : Spelling) : Text := s.whole ++ s.part.getD []

theorem digit_exponentText (s : Spelling) {rest : Text} (h : s.Stops rest) :
    ∀ b ∈ (s.exponentText ++ rest).head?, Byte.isDigit b = false := by
  rw [exponentText]
  cases s.exponent with
  | some e =>
    rintro b ⟨⟩
    rcases e.isLetter with hletter | hletter <;> rw [hletter] <;> rfl
  | none => exact h.digit

theorem point_exponentText (s : Spelling) {rest : Text} (h : s.Stops rest) (hpart : s.part = none) :
    (s.exponentText ++ rest).head? ≠ some (ch '.') := by
  rw [exponentText]
  cases he : s.exponent with
  | some e =>
    intro hhead
    rcases e.isLetter with hletter | hletter <;>
      exact absurd (hletter.symm.trans (Option.some.inj hhead)) (by decide)
  | none => exact h.point ⟨hpart, he⟩

/-- Behind the digits in front of the point stands the point, or what is behind all digits. -/
theorem dropWhile_body (s : Spelling) {rest : Text} (h : s.Stops rest) :
    (s.body ++ rest).takeWhile Byte.isDigit = s.whole ∧
      (s.body ++ rest).dropWhile Byte.isDigit = s.partText ++ (s.exponentText ++ rest) := by
  have hbehind : ∀ b ∈ (s.partText ++ (s.exponentText ++ rest)).head?, Byte.isDigit b = false := by
    rw [partText]
    cases s.part with
    | some p =>
      rintro b ⟨⟩
      rfl
    | none => exact s.digit_exponentText h
  rw [body, List.append_assoc, List.append_assoc]
  exact ⟨Text.takeWhile_digits s.wholeDigits hbehind, Text.dropWhile_digits s.wholeDigits hbehind⟩

theorem readDigits?_body (s : Spelling) {rest : Text} (h : s.Stops rest) :
    Double.readDigits? Byte.isDigit (s.body ++ rest)
      = some (s.digits, (s.part.getD []).length, s.exponentText ++ rest) := by
  obtain ⟨htake, hdrop⟩ := s.dropWhile_body h
  have hdigit := s.digit_exponentText h
  have hpoint := s.point_exponentText h
  rw [Double.readDigits?, htake, hdrop, partText, digits]
  generalize s.exponentText ++ rest = behind at hdigit hpoint
  cases hpart : s.part with
  | some p =>
    have hp := s.partDigits p hpart
    have hne : ¬(s.whole = [] ∧ p = []) := by
      rintro ⟨hwhole, hempty⟩
      obtain ⟨p', hp', hne⟩ := s.nonempty.resolve_left (fun h => h hwhole)
      rw [hpart, Option.mem_some_iff] at hp'
      exact hne (hp' ▸ hempty)
    simp [Text.takeWhile_digits hp hdigit, Text.dropWhile_digits hp hdigit, hne]
  | none =>
    have hne : s.whole ≠ [] := s.nonempty.resolve_right (by
      rintro ⟨p, hp, -⟩
      rw [hpart] at hp
      cases hp)
    cases behind with
    | nil => simp [hne]
    | cons b behind =>
      have hb : b ≠ ch '.' := fun hb => hpoint hpart (by rw [hb]; rfl)
      simp [hne, hb]

theorem hasPoint_body (s : Spelling) {rest : Text} (h : s.Stops rest) :
    (((s.body ++ rest).dropWhile Byte.isDigit).head? == some (ch '.')) = s.part.isSome := by
  rw [(s.dropWhile_body h).2, partText]
  cases hpart : s.part with
  | some p => rfl
  | none => simpa using s.point_exponentText h hpart

/-- The reader takes a numeral apart where nothing continues it. -/
theorem read?_text (s : Spelling) {rest : Text} (h : s.Stops rest) : Numeral.read? (s.text ++ rest)
    = some ⟨s.negative, s.digits, (s.part.getD []).length, s.scale, s.part.isNone && s.exponent.isNone⟩ := by
  have hlength : (rest.length == (s.exponentText ++ rest).length) = s.exponent.isNone := by
    rw [exponentText, Bool.eq_iff_iff, beq_iff_eq, List.length_append]
    cases s.exponent <;> simp [Exponent.text]
  simp only [Numeral.read?, s.readSign_text, s.readDigits?_body h, s.hasPoint_body h, Option.bind_eq_bind,
    Option.bind_some, s.readExponent_exponentText h, hlength, Option.pure_def, Option.not_isSome]

/-- Digits that are read stand around a point or alone. -/
theorem exists_of_readDigits? {t : Text} {r : Text × Nat × Text}
    (h : Double.readDigits? Byte.isDigit t = some r) : ∃ (whole : Text) (part : Option Text),
      (∀ b ∈ whole, Byte.isDigit b) ∧ (∀ p ∈ part, ∀ b ∈ p, Byte.isDigit b) ∧
      (whole ≠ [] ∨ ∃ p ∈ part, p ≠ []) ∧ whole ++ part.elim [] (ch '.' :: ·) <+: t := by
  have hwhole : ∀ b ∈ t.takeWhile Byte.isDigit, Byte.isDigit b := fun b hb => List.mem_takeWhile_imp hb
  by_cases hne : t.takeWhile Byte.isDigit = []
  · rw [Double.readDigits?] at h
    cases hdrop : t.dropWhile Byte.isDigit with
    | nil => simp [hdrop, hne] at h
    | cons b rest =>
      have ht : t = b :: rest := by
        rw [← List.takeWhile_append_dropWhile (p := Byte.isDigit) (l := t), hne, hdrop]
        rfl
      rw [hdrop] at h
      by_cases hb : b = ch '.'
      · have hpart : rest.takeWhile Byte.isDigit ≠ [] := by
          intro hpart
          simp [hb, hne, hpart] at h
        refine ⟨[], some (rest.takeWhile Byte.isDigit), List.forall_mem_nil _, ?_, .inr ⟨_, rfl, hpart⟩, ?_⟩
        · rintro _ ⟨⟩ c hc
          exact List.mem_takeWhile_imp hc
        · rw [ht, hb]
          exact List.cons_prefix_cons.2 ⟨rfl, List.takeWhile_prefix _⟩
      · simp [hb, hne] at h
  · -- digits in front are a numeral by themselves
    exact ⟨_, none, hwhole, by rintro _ ⟨⟩, .inl hne, by simpa using List.takeWhile_prefix _⟩

/-- What is read is a numeral. -/
theorem exists_text_of_read? {t : Text} {n : Numeral} (h : Numeral.read? t = some n) :
    ∃ s : Spelling, s.text <+: t := by
  obtain ⟨r, hr, -⟩ : ∃ r, Double.readDigits? Byte.isDigit (Double.readSign t).2 = some r ∧ _ :=
    Option.bind_eq_some_iff.1 h
  obtain ⟨sign, hsign, ht⟩ := DigitRun.exists_sign t
  obtain ⟨whole, part, hwhole, hpart, hne, hstart⟩ := exists_of_readDigits? hr
  refine ⟨⟨_, sign, whole, part, none, hsign, hwhole, hpart, hne⟩, ?_⟩
  have hstarts := (List.prefix_append_right_inj sign).2 hstart
  rw [← ht] at hstarts
  simpa [text, body, partText, exponentText] using hstarts

/-! ### The value of a numeral -/

theorem natValue_digits (s : Spelling) : Text.natValue s.digits = Text.valueIn 10 s.digits := by
  refine Text.natValue_eq_valueIn (List.forall_mem_append.2 ⟨s.wholeDigits, ?_⟩)
  cases hpart : s.part with
  | some p => exact s.partDigits p hpart
  | none => exact List.forall_mem_nil _

theorem value_eq (s : Spelling) : s.value
    = Double.signed s.negative (Text.valueIn 10 s.digits * 10 ^ (s.scale - (s.part.getD []).length)) := by
  have hpow : (10 : ℚ) ^ (s.part.getD []).length ≠ 0 := by positivity
  rw [value, digits, Text.valueIn_append, zpow_sub₀ (by norm_num), zpow_natCast]
  push_cast
  congr 1
  field_simp

theorem value_of_isInteger {s : Spelling} (h : s.IsInteger) : s.value = s.integer := by
  have hzero : Text.valueIn 10 [] = 0 := rfl
  rw [value, scale, h.1, h.2, Option.getD_none, Option.elim_none, hzero, integer, Double.signed]
  split <;> simp

/-- The word that a numeral is rounded to. -/
def rounded (s : Spelling) : Double :=
  Double.ofDecimal s.negative (Text.valueIn 10 s.digits) (s.scale - (s.part.getD []).length)

theorem isNearest_rounded (s : Spelling) : Double.IsNearest s.value s.rounded := by
  rw [s.value_eq]
  exact Double.isNearest_ofDecimal ..

theorem isNegative_rounded (s : Spelling) : s.rounded.isNegative = s.negative :=
  Double.isNegative_ofDecimal ..

theorem stops_nil (s : Spelling) : s.Stops [] :=
  ⟨by rintro _ ⟨⟩, by rintro _ ⟨⟩, fun _ e he => by simp [Exponent.text] at he⟩

theorem mem_sign {negative : Bool} {sign : Text} (h : Sign negative sign) : ∀ b ∈ sign, b ∈ ascii "+-" := by
  cases h with
  | absent => exact List.forall_mem_nil _
  | plus => exact List.forall_mem_singleton.2 (by decide)
  | minus => exact List.forall_mem_singleton.2 (by decide)

theorem mem_exponentText (s : Spelling) : ∀ b ∈ s.exponentText, Byte.isDigit b ∨ b ∈ ascii "eE+-" := by
  intro b hb
  rw [exponentText] at hb
  cases he : s.exponent with
  | none => simp [he] at hb
  | some e =>
    rw [he, Option.elim_some, Exponent.text, List.mem_cons, List.mem_append] at hb
    rcases hb with rfl | hb | hb
    · rcases e.isLetter with hletter | hletter <;> rw [hletter] <;> exact .inr (by decide)
    · exact .inr (List.mem_cons_of_mem _ (List.mem_cons_of_mem _ (mem_sign e.isSign b hb)))
    · exact .inl (e.areDigits b hb)

/-- A numeral behind its sign has no letters but those of an exponent. -/
theorem mem_body (s : Spelling) : ∀ b ∈ s.body, Byte.isDigit b ∨ b ∈ ascii ".eE+-" := by
  intro b hb
  rw [body, List.mem_append, List.mem_append] at hb
  rcases hb with hb | hb | hb
  · exact .inl (s.wholeDigits b hb)
  · rw [partText] at hb
    cases hpart : s.part with
    | none => simp [hpart] at hb
    | some p =>
      rw [hpart, Option.elim_some, List.mem_cons] at hb
      rcases hb with rfl | hb
      · exact .inr (by decide)
      · exact .inl (s.partDigits p hpart b hb)
  · exact (s.mem_exponentText b hb).imp_right (List.mem_cons_of_mem _)

theorem toLower_ne_of_mem_body (s : Spelling) {c : UInt8} (hc : c = ch 'n' ∨ c = ch 'x') :
    ∀ b ∈ s.body, Byte.toLower b ≠ c := by
  intro b hb hbc
  rcases s.mem_body b hb with hdigit | hother
  · have hvalue := Byte.toNat_toLower b
    rw [Byte.isDigit_iff] at hdigit
    rw [if_neg (by omega), hbc] at hvalue
    have hn : (ch 'n').toNat = 110 := rfl
    have hx : (ch 'x').toNat = 120 := rfl
    rcases hc with rfl | rfl <;> omega
  · have hnone : (ascii ".eE+-").all fun b => Byte.toLower b != ch 'n' && Byte.toLower b != ch 'x' := by decide
    have hb := List.all_eq_true.1 hnone b hother
    rw [Bool.and_eq_true, bne_iff_ne, bne_iff_ne, hbc] at hb
    rcases hc with rfl | rfl
    · exact hb.1 rfl
    · exact hb.2 rfl

theorem dropSpaces_text (s : Spelling) (rest : Text) : Text.dropSpaces (s.text ++ rest) = s.text ++ rest := by
  refine Text.dropSpaces_of_head fun b hb => ?_
  rw [text, List.append_assoc] at hb
  by_cases hsign : s.sign = []
  · rw [hsign, List.nil_append] at hb
    rcases s.isDigit_head_body rest b hb with hdigit | rfl
    · exact Byte.isSpace_of_isHexDigit (Byte.isHexDigit_iff.2 (.inl (Byte.isDigit_iff.1 hdigit)))
    · rfl
  · rw [List.head?_append_of_ne_nil _ hsign] at hb
    have hmem := mem_sign s.isSign b (List.mem_of_mem_head? hb)
    rcases List.mem_pair.1 hmem with rfl | rfl <;> rfl

/-- The reader of reals takes a numeral as a whole and rounds it. -/
theorem read?_eq_rounded (s : Spelling) : Double.read? s.text = some (s.rounded, []) := by
  have hsign := s.readSign_text []
  have hdigits := s.readDigits?_body s.stops_nil
  have hexponent := s.readExponent_exponentText s.stops_nil
  have hspaces := s.dropSpaces_text []
  rw [List.append_nil] at hsign hdigits hexponent hspaces
  rw [List.append_nil] at hsign hdigits
  have hletter {c : UInt8} (hc : c = ch 'n' ∨ c = ch 'x') := s.toLower_ne_of_mem_body hc
  simp only [Double.read?, hspaces, hsign,
    Double.dropWord?_of_not_mem "infinity" (by decide) (hletter (.inl rfl)),
    Double.dropWord?_of_not_mem "inf" (by decide) (hletter (.inl rfl)),
    Double.dropWord?_of_not_mem "nan" (by decide) (hletter (.inl rfl)),
    Double.dropWord?_of_not_mem "0x" (by decide) (hletter (.inr rfl)), Option.bind_none]
  simp only [Double.readDecimal?, hdigits, Option.bind_eq_bind, Option.bind_some, hexponent, natValue_digits]
  rfl

/-- What a text counts as if it has a numeral that nothing continues behind its blanks. -/
theorem ofText_of_stops {s : Spelling} {t rest : Text} (ht : Text.dropSpaces t = s.text ++ rest)
    (h : s.Stops rest) : (s.IsInteger ∧ FitsInt64 s.integer → ofText t = .integer (Int64.ofInt s.integer)) ∧
      (¬(s.IsInteger ∧ FitsInt64 s.integer) → ofText t = .real s.rounded) := by
  have hread : ofText t = Numeral.value ⟨s.negative, s.digits, (s.part.getD []).length, s.scale,
      s.part.isNone && s.exponent.isNone⟩ := by
    rw [ofText, ht, s.read?_text h]
    rfl
  have hflag : (s.part.isNone && s.exponent.isNone) = true ↔ s.IsInteger := by
    rw [Bool.and_eq_true, Option.isNone_iff_eq_none, Option.isNone_iff_eq_none]
    rfl
  simp only [hread, Numeral.value, natValue_digits]
  by_cases hint : s.IsInteger
  · have hwhole : (if s.negative then -(Text.valueIn 10 s.digits : Int) else Text.valueIn 10 s.digits)
        = s.integer := by
      rw [integer, digits, hint.1, Option.getD_none, List.append_nil]
    rw [if_pos (hflag.2 hint), hwhole]
    constructor
    · intro hfits
      rw [int64?_of_fits hfits.2]
      rfl
    · intro hfits
      rw [int64?_of_not_fits fun h => hfits ⟨hint, h⟩]
      rfl
  · rw [if_neg fun h => hint (hflag.1 h)]
    exact ⟨fun h => absurd h.1 hint, fun _ => rfl⟩

/-! ### Integers as numerals -/

/-- The decimal text of an integer, taken as a numeral. -/
def ofInt (i : Int) : Spelling where
  negative := i < 0
  sign := if i < 0 then [ch '-'] else []
  whole := Text.ofNat i.natAbs
  part := none
  exponent := none
  isSign := by
    by_cases h : i < 0
    · simpa [h] using Sign.minus
    · simpa [h] using Sign.absent
  wholeDigits := Text.isDigit_of_mem_ofNat _
  partDigits := by rintro _ ⟨⟩
  nonempty := .inl (Text.ofNat_ne_nil _)

theorem text_ofInt (i : Int) : (ofInt i).text = Text.ofInt i := by
  rw [text, body, partText, exponentText, Text.ofInt, ofInt]
  by_cases h : i < 0 <;> simp [h]

theorem integer_ofInt (i : Int) : (ofInt i).integer = i := by
  have hvalue : Text.valueIn 10 (Text.ofNat i.natAbs) = i.natAbs := by
    rw [← Text.natValue_eq_valueIn (Text.isDigit_of_mem_ofNat _), Text.natValue_ofNat]
  rw [integer, ofInt, hvalue]
  by_cases h : i < 0
  · rw [if_pos (decide_eq_true h)]
    omega
  · rw [if_neg (by simpa using h)]
    omega

end Spelling

/-- Let the longest numeral be taken that a text starts with behind its blanks. Without one the text counts as
zero. A numeral with neither point nor exponent counts as the integer it writes if that has 64 bits, and every
other one as the word that the reader of reals gives for it, which is the nearest one with the sign written. An
integer is read back from its decimal text in front of anything that does not continue it. -/
theorem ofText_longest (t : Text) :
    ((¬∃ s : Spelling, s.LongestIn (Text.dropSpaces t)) → ofText t = .integer 0) ∧
    (∀ s : Spelling, s.LongestIn (Text.dropSpaces t) →
      (s.IsInteger ∧ FitsInt64 s.integer → ofText t = .integer (Int64.ofInt s.integer)) ∧
      (¬(s.IsInteger ∧ FitsInt64 s.integer) → ∃ d, ofText t = .real d ∧ Double.read? s.text = some (d, []) ∧
        Double.IsNearest s.value d ∧ d.isNegative = s.negative)) ∧
    ∀ (n : Int64) (suffix : Text),
      (∀ b ∈ suffix.head?, ¬Byte.isDigit b ∧ b ≠ ch '.' ∧ b ≠ ch 'e' ∧ b ≠ ch 'E') →
      ofText (Text.ofInt n.toInt ++ suffix) = .integer n := by
  refine ⟨fun hnone => ?_, fun s hs => ?_, fun n suffix hsuffix => ?_⟩
  · cases hread : Numeral.read? (Text.dropSpaces t) with
    | none =>
      rw [ofText, hread]
      rfl
    | some numeral =>
      obtain ⟨s, hs⟩ := Spelling.exists_text_of_read? hread
      exact absurd (Spelling.exists_longestIn hs) hnone
  · obtain ⟨rest, hrest⟩ := hs.starts
    rw [← hrest] at hs
    obtain ⟨hinteger, hreal⟩ := Spelling.ofText_of_stops hrest.symm hs.stops
    exact ⟨hinteger, fun h => ⟨s.rounded, hreal h, s.read?_eq_rounded, s.isNearest_rounded,
      s.isNegative_rounded⟩⟩
  · have hstops : (Spelling.ofInt n.toInt).Stops suffix := by
      refine ⟨fun b hb => by simpa using (hsuffix b hb).1, fun _ hpoint => (hsuffix _ hpoint).2.1 rfl, ?_⟩
      rintro - e ⟨rest, hrest⟩
      have hletter := (hsuffix e.letter (by rw [← hrest]; rfl)).2.2
      exact e.isLetter.elim hletter.1 hletter.2
    have hspaces := (Spelling.ofInt n.toInt).dropSpaces_text suffix
    have hread := (Spelling.ofText_of_stops hspaces hstops).1
      ⟨⟨rfl, rfl⟩, by rw [Spelling.integer_ofInt]; exact fitsInt64_toInt n⟩
    rwa [Spelling.integer_ofInt, Int64.ofInt_toInt, Spelling.text_ofInt] at hread

/-- Both sides of the lower end of the range: one below it is the nearest word, and the least integer is read
in front of a unit. -/
theorem ofText_longest_least :
    (∃ d, ofText (ascii " -9223372036854775809") = .real d ∧ Double.IsNearest (-9223372036854775809) d) ∧
    ofText (ascii "-9223372036854775808mm") = .integer Int64.minValue := by
  have htext : (Spelling.ofInt (-9223372036854775809)).text = Text.dropSpaces (ascii " -9223372036854775809") := by
    rw [Spelling.text_ofInt]
    decide +kernel
  have hlongest : (Spelling.ofInt (-9223372036854775809)).LongestIn
      (Text.dropSpaces (ascii " -9223372036854775809")) := by
    rw [← htext]
    exact ⟨List.prefix_refl _, fun s hs => hs.length_le⟩
  have hvalue : (Spelling.ofInt (-9223372036854775809)).value = -9223372036854775809 := by
    rw [Spelling.value_of_isInteger ⟨rfl, rfl⟩, Spelling.integer_ofInt]
    rfl
  constructor
  · obtain ⟨d, hd, -, hnearest, -⟩ := ((ofText_longest _).2.1 _ hlongest).2 fun h => by
      rw [Spelling.integer_ofInt] at h
      exact absurd h.2 (by decide)
    exact ⟨d, hd, hvalue ▸ hnearest⟩
  · have hleast := (ofText_longest []).2.2 Int64.minValue (ascii "mm") (by rintro b ⟨⟩; decide)
    have htext : Text.ofInt Int64.minValue.toInt ++ ascii "mm" = ascii "-9223372036854775808mm" := by
      decide +kernel
    rwa [htext] at hleast

end Number
end TagFormula

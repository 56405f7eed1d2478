import TagFormula.Proofs.ByteOrder

/-!
Skips in templates. Each one moves the position by its count, in a 64-bit word and without a test. Main
statement: a number behind skips is read from positions counted modulo `2 ^ 64`. So past the end of the data it
is zero as long as the skips and the number together stay below that, and may come from the data otherwise.
-/

namespace TagFormula

namespace Template

/-! ### Skips as they are written -/

/-- What stands behind the letter of a skip. -/
inductive Amount where
  | nothing
  | star
  | digits (t : Text) (areDigits : ∀ b ∈ t, Byte.isDigit b) (nonempty : t ≠ [])

namespace Amount

def text : Amount → Text
  | nothing => []
  | star => [ch '*']
  | digits t _ _ => t

/-- How many bytes are skipped: one if nothing is written, none for a star. -/
def size : Amount → Nat
  | nothing => 1
  | star => 0
  | digits t _ _ => Text.valueIn 10 t

/-- The count that is read. -/
def count : Amount → Count
  | nothing => .times 1
  | star => .all
  | digits t _ _ => .ofDigits t

end Amount

/-- A skip: blanks, the letter and its count. -/
structure Skip where
  blanks : Text
  amount : Amount
  areBlanks : ∀ b ∈ blanks, Byte.isSpace b

def Skip.text (s : Skip) : Text := s.blanks ++ ch 'x' :: s.amount.text

def Skip.item (s : Skip) : Item := ⟨ch 'x', s.amount.count⟩

/-- How many bytes skips add up to. -/
def totalSize : List Skip → Nat
  | [] => 0
  | s :: skips => s.amount.size + totalSize skips

/-- A template of skips and one letter behind them, which may have blanks around it. -/
def skipTemplate (skips : List Skip) (before : Text) (letter : UInt8) (after : Text) : Text :=
  skips.flatMap Skip.text ++ (before ++ letter :: after)

/-! ### Reading the template -/

/-- A text that does not go on with the count of an item. -/
def EndsCount (t : Text) : Prop := ∀ b ∈ t.head?, Byte.isDigit b = false ∧ b ≠ ch '*'

theorem isDigit_of_isSpace {b : UInt8} (h : Byte.isSpace b) : Byte.isDigit b = false ∧ b ≠ ch '*' := by
  have hstar : (ch '*').toNat = 42 := rfl
  simp only [Byte.isSpace, Byte.isDigit, Bool.or_eq_true, Bool.and_eq_true, beq_iff_eq, decide_eq_true_eq,
    Bool.and_eq_false_iff, decide_eq_false_iff_not, UInt8.le_iff_toNat_le, ne_eq, ← UInt8.toNat_inj, hstar,
    UInt8.reduceToNat] at h ⊢
  omega

theorem endsCount_append {blanks : Text} (hblanks : ∀ b ∈ blanks, Byte.isSpace b) {c : UInt8}
    (hc : Byte.isDigit c = false ∧ c ≠ ch '*') (t : Text) : EndsCount (blanks ++ c :: t) := by
  cases blanks with
  | nil =>
    rintro b ⟨⟩
    exact hc
  | cons b blanks =>
    rintro b ⟨⟩
    exact isDigit_of_isSpace (List.forall_mem_cons.1 hblanks).1

theorem readCount_of_endsCount {t : Text} (h : EndsCount t) : readCount t = (.times 1, t) := by
  cases t with
  | nil => rfl
  | cons b t =>
    obtain ⟨hdigit, hstar⟩ := h b rfl
    rw [readCount, if_neg (by simpa using hstar), if_neg (by simp [hdigit])]

theorem readCount_amount (a : Amount) {rest : Text} (h : EndsCount rest) :
    readCount (a.text ++ rest) = (a.count, rest) := by
  cases a with
  | nothing => exact readCount_of_endsCount h
  | star => rfl
  | digits t areDigits nonempty =>
    have hrest : ∀ b ∈ rest.head?, Byte.isDigit b = false := fun b hb => (h b hb).1
    have htake := Text.takeWhile_digits areDigits hrest
    have hdrop := Text.dropWhile_digits areDigits hrest
    obtain ⟨b, t, rfl⟩ := List.exists_cons_of_ne_nil nonempty
    have hb := (List.forall_mem_cons.1 areDigits).1
    have hstar : ¬(b == ch '*') = true := by
      rw [beq_iff_eq]
      rintro rfl
      exact absurd hb (by decide)
    rw [Amount.text, List.cons_append] at *
    rw [readCount, if_neg hstar, if_pos hb, htake, hdrop]
    rfl

theorem parse_blanks {blanks : Text} (h : ∀ b ∈ blanks, Byte.isSpace b) (t : Text) :
    parse (blanks ++ t) = parse t := by
  induction blanks with
  | nil => rfl
  | cons b blanks ih =>
    obtain ⟨hb, hblanks⟩ := List.forall_mem_cons.1 h
    rw [List.cons_append, parse_of_space hb, ih hblanks]

theorem parse_skips (skips : List Skip) {rest : Text} (h : EndsCount rest) {items : List Item}
    (hrest : parse rest = .ok items) :
    EndsCount (skips.flatMap Skip.text ++ rest) ∧
      parse (skips.flatMap Skip.text ++ rest) = .ok (skips.map Skip.item ++ items) := by
  induction skips with
  | nil => exact ⟨h, hrest⟩
  | cons s skips ih =>
    obtain ⟨hends, hparse⟩ := ih
    have htext : (s :: skips).flatMap Skip.text ++ rest
        = s.blanks ++ ch 'x' :: (s.amount.text ++ (skips.flatMap Skip.text ++ rest)) := by
      simp [Skip.text]
    rw [htext]
    refine ⟨endsCount_append s.areBlanks (by decide) _, ?_⟩
    rw [parse_blanks s.areBlanks, parse_of_letter (by decide) (by decide), readCount_amount s.amount hends, hparse]
    rfl

/-- The letters of unsigned numbers that stand behind the skips. -/
def unsignedLetters : List Char := ['C', 'N', 'V']

theorem parse_skipTemplate (skips : List Skip) {before after : Text} (hbefore : ∀ b ∈ before, Byte.isSpace b)
    (hafter : ∀ b ∈ after, Byte.isSpace b) {letter : Char} (hletter : letter ∈ unsignedLetters) :
    parse (skipTemplate skips before (ch letter) after)
      = .ok (skips.map Skip.item ++ [⟨ch letter, .times 1⟩]) := by
  have hchecked : unsignedLetters.all fun c => !Byte.isSpace (ch c) && letters.contains (ch c) &&
      !Byte.isDigit (ch c) && ch c != ch '*' := by decide +kernel
  have hknown := List.all_eq_true.1 hchecked _ hletter
  simp only [Bool.and_eq_true, Bool.not_eq_true', bne_iff_ne] at hknown
  obtain ⟨⟨⟨hspace, hmember⟩, hdigit⟩, hstar⟩ := hknown
  have hempty : parse after = .ok [] := by
    have hblanks := parse_blanks hafter []
    rw [List.append_nil] at hblanks
    rw [hblanks, parse]
  have hends : EndsCount after := fun b hb => isDigit_of_isSpace (hafter b (List.mem_of_mem_head? hb))
  have hlast : parse (before ++ ch letter :: after) = .ok [⟨ch letter, .times 1⟩] := by
    rw [parse_blanks hbefore, parse_of_letter (Bool.eq_false_iff.1 hspace) hmember, readCount_of_endsCount hends,
      hempty]
    rfl
  exact (parse_skips skips (endsCount_append hbefore ⟨hdigit, hstar⟩ after) hlast).2

/-! ### Moving the position -/

/-- Counts of 63 bits are taken as they are written. -/
theorem reach_item {s : Skip} (h : s.amount.size < 0x8000000000000000) : s.item.reach = s.amount.size := by
  obtain ⟨blanks, amount, areBlanks⟩ := s
  cases amount with
  | nothing => rfl
  | star => rfl
  | digits t areDigits nonempty =>
    change Text.valueIn 10 t < _ at h
    have hword : (Int64.ofNat (Text.valueIn 10 t)).toUInt64.toNat = Text.valueIn 10 t := by
      simp
      omega
    have hcount : Count.ofDigits t = .times (Int64.ofNat (Text.valueIn 10 t)) := by
      rw [Count.ofDigits, Text.natValue_eq_valueIn areDigits]
      refine if_neg fun hneg => ?_
      rw [hneg] at hword
      exact absurd hword (by rw [show (-1 : Int64).toUInt64.toNat = 0xffffffffffffffff from rfl]; omega)
    change Item.reach ⟨ch 'x', .ofDigits t⟩ = Text.valueIn 10 t
    rw [hcount]
    exact hword

/-- Skips read nothing and move the position by what they add up to, in a word that may wrap around. -/
theorem read_skips {skips : List Skip} (h : ∀ s ∈ skips, s.amount.size < 0x8000000000000000) (data : Text)
    (offset : UInt64) : readItems data (skips.map Skip.item) offset = [] ∧
      offsetAfter data (skips.map Skip.item) offset = offset + (totalSize skips).toUInt64 := by
  induction skips generalizing offset with
  | nil => exact ⟨rfl, (UInt64.add_zero offset).symm⟩
  | cons s skips ih =>
    obtain ⟨hs, hskips⟩ := List.forall_mem_cons.1 h
    have hread : s.item.read data offset = ([], offset + s.amount.size.toUInt64) := by
      rw [Item.read_of_skip rfl, reach_item hs]
    obtain ⟨hnone, hoffset⟩ := ih hskips (offset + s.amount.size.toUInt64)
    constructor
    · rw [List.map_cons, readItems, hread, hnone]
      rfl
    · have hsum : (totalSize (s :: skips)).toUInt64 = s.amount.size.toUInt64 + (totalSize skips).toUInt64 :=
        UInt64.ofNat_add _ _
      rw [hsum, ← UInt64.add_assoc, ← hoffset, List.map_cons, offsetAfter, List.foldl_cons, hread]
      rfl

/-! ### The number behind the skips -/

theorem byteAt_eq (data : Text) (n k : Nat) :
    byteAt data (n.toUInt64 + k.toUInt64) = (data[(n + k) % 0x10000000000000000]?).getD 0 := by
  have hword : (n.toUInt64 + k.toUInt64).toNat = (n + k) % 0x10000000000000000 := by
    rw [show n.toUInt64 + k.toUInt64 = (n + k).toUInt64 from (UInt64.ofNat_add n k).symm]
    exact UInt64.toNat_ofNat'
  rw [byteAt, hword]

theorem valueOf_eq_zero_iff (bytes : Text) : valueOf bytes = 0 ↔ ∀ b ∈ bytes, b = 0 := by
  induction bytes using List.reverseRecOn with
  | nil => simp [valueOf]
  | append_singleton bytes b ih =>
    have hlow := (valueOf_bounds bytes).1
    have hbyte : b = 0 ↔ b.toNat = 0 := UInt8.toNat_inj.symm
    rw [valueOf_concat, List.forall_mem_append, List.forall_mem_singleton, ← ih, hbyte]
    omega

section

variable {l : Layout} (hunsigned : l.signed = false)
include hunsigned

theorem decode_of_unsigned (bytes : Text) : l.decode bytes = valueOf (l.fromTop bytes) := by
  simp [Layout.decode, hunsigned]

theorem readNumber_bounds (hwidth : l.width ≤ 4) (data : Text) (offset : UInt64) :
    0 ≤ readNumber l data offset ∧ readNumber l data offset < 256 ^ 4 := by
  rw [readNumber_eq, decode_of_unsigned hunsigned]
  obtain ⟨hlow, hhigh⟩ := valueOf_bounds
    (l.fromTop ((List.range l.width).map fun k => byteAt data (offset + k.toUInt64)))
  rw [Layout.length_fromTop, List.length_map, List.length_range] at hhigh
  exact ⟨hlow, hhigh.trans_le (pow_le_pow_right₀ (by decide) hwidth)⟩

/-- An unsigned number is zero exactly if its bytes are. -/
theorem readNumber_eq_zero_iff (data : Text) (n : Nat) : readNumber l data n.toUInt64 = 0 ↔
    ∀ k < l.width, ∀ b ∈ data[(n + k) % 0x10000000000000000]?, b = 0 := by
  have hmem : ∀ bytes : Text, (∀ b ∈ l.fromTop bytes, b = 0) ↔ ∀ b ∈ bytes, b = 0 := by
    intro bytes
    rw [Layout.fromTop]
    split
    · rfl
    · simp only [List.mem_reverse]
  rw [readNumber_eq, decode_of_unsigned hunsigned, valueOf_eq_zero_iff, hmem, List.forall_mem_map]
  simp only [List.mem_range, byteAt_eq]
  refine forall₂_congr fun k _ => ?_
  cases data[(n + k) % 0x10000000000000000]? with
  | none => simp
  | some b => simp

end

end Template

namespace Value

open Template

/-- A number behind skips. For skips with counts below `2 ^ 63` and one of the letters of unsigned numbers behind
them, exactly one number is read, from the positions that the skips add up to, counted modulo `2 ^ 64`: it is
zero exactly if the bytes of the data at these positions are. So past the end of the data it is zero where the
skips and the number end at `2 ^ 64` or before. -/
theorem unpack_skips (skips : List Skip) (hskips : ∀ s ∈ skips, s.amount.size < 0x8000000000000000)
    (before after : Text) (hbefore : ∀ b ∈ before, Byte.isSpace b) (hafter : ∀ b ∈ after, Byte.isSpace b)
    (letter : Char) (hletter : letter ∈ unsignedLetters) (d : Value) (data : Text) (hd : d.toText = .ok data) :
    ∃ n : Int64, unpack (.string (skipTemplate skips before (ch letter) after)) d = .ok (.list [.integer n]) ∧
      (n = 0 ↔ ∀ k < (layout (ch letter)).width,
        ∀ b ∈ data[(totalSize skips + k) % 0x10000000000000000]?, b = 0) ∧
      (data.length ≤ totalSize skips →
        totalSize skips + (layout (ch letter)).width ≤ 0x10000000000000000 → n = 0) := by
  have hitems := parse_skipTemplate skips hbefore hafter hletter
  obtain ⟨hnone, hoffset⟩ := read_skips hskips data 0
  rw [UInt64.zero_add] at hoffset
  -- what is known of the three letters: one number is read, and it has no sign
  have hlayout : (layout (ch letter)).signed = false ∧ ∀ offset, readItems data [⟨ch letter, .times 1⟩] offset
      = [.integer (Int64.ofInt (readNumber (layout (ch letter)) data offset))] := by
    simp only [unsignedLetters, List.mem_cons, List.not_mem_nil, or_false] at hletter
    rcases hletter with rfl | rfl | rfl <;> exact ⟨rfl, fun _ => rfl⟩
  obtain ⟨hunsigned, hone⟩ := hlayout
  have hread : readItems data (skips.map Skip.item ++ [⟨ch letter, .times 1⟩]) 0
      = [.integer (Int64.ofInt (readNumber (layout (ch letter)) data (totalSize skips).toUInt64))] := by
    rw [readItems_append, hnone, hoffset, hone]
    rfl
  have hzero : Int64.ofInt (readNumber (layout (ch letter)) data (totalSize skips).toUInt64) = 0 ↔
      ∀ k < (layout (ch letter)).width, ∀ b ∈ data[(totalSize skips + k) % 0x10000000000000000]?, b = 0 := by
    rw [← readNumber_eq_zero_iff hunsigned]
    obtain ⟨hlow, hhigh⟩ := readNumber_bounds hunsigned (layout_width _).2 data (totalSize skips).toUInt64
    rw [← Int64.toInt_inj, Int64.toInt_ofInt_of_le (by omega) (by omega)]
    rfl
  refine ⟨_, unpack_eq_ok_iff.2 ⟨_, data, hitems, hd, congrArg list hread.symm⟩, hzero, fun hpast hend => ?_⟩
  refine hzero.2 fun k hk b hb => ?_
  rw [Nat.mod_eq_of_lt (by omega), List.getElem?_eq_none (by omega)] at hb
  cases hb

/-- Skips of three bytes, none and one. -/
def shortSkips : List Skip :=
  [⟨[], .digits (ascii "3") (List.all_eq_true.1 (by decide)) (by decide), List.forall_mem_nil _⟩,
    ⟨ascii " ", .star, List.all_eq_true.1 (by decide)⟩, ⟨ascii " ", .nothing, List.all_eq_true.1 (by decide)⟩]

/-- The skips take the position to the end of the data. -/
theorem unpack_skips_to_end :
    unpack (.string (ascii "x3 x* x N")) (.string (ascii "abcd")) = .ok (.list [.integer 0]) := by
  have hsizes : shortSkips.all fun s => s.amount.size < 0x8000000000000000 := by decide +kernel
  obtain ⟨n, hn, -, hzero⟩ := unpack_skips shortSkips (by simpa using hsizes) (ascii " ") []
    (List.all_eq_true.1 (by decide)) (List.forall_mem_nil _) 'N' (by decide) (.string (ascii "abcd"))
    (ascii "abcd") rfl
  rw [hzero (by decide) (by decide)] at hn
  exact hn

/-- Skips that add up to `2 ^ 64`. -/
def farSkips : List Skip :=
  [⟨[], .digits (ascii "9223372036854775807") (List.all_eq_true.1 (by decide)) (by decide), List.forall_mem_nil _⟩,
    ⟨ascii " ", .digits (ascii "9223372036854775807") (List.all_eq_true.1 (by decide)) (by decide),
      List.all_eq_true.1 (by decide)⟩,
    ⟨ascii " ", .digits (ascii "2") (List.all_eq_true.1 (by decide)) (by decide), List.all_eq_true.1 (by decide)⟩]

/-- Past the end of the data the position comes back to its first byte, and the number read is not zero. -/
theorem unpack_skips_come_back :
    (∀ s ∈ farSkips, s.amount.size < 0x8000000000000000) ∧ (ascii "A").length ≤ totalSize farSkips ∧
    skipTemplate farSkips (ascii " ") (ch 'C') [] = ascii "x9223372036854775807 x9223372036854775807 x2 C" ∧
    unpack (.string (ascii "x9223372036854775807 x9223372036854775807 x2 C")) (.string (ascii "A"))
      = .ok (.list [.integer 65]) := by
  have hsizes : farSkips.all fun s => s.amount.size < 0x8000000000000000 := by decide +kernel
  have hparse : Template.parse (ascii "x9223372036854775807 x9223372036854775807 x2 C")
      = .ok [⟨ch 'x', .times 0x7fffffffffffffff⟩, ⟨ch 'x', .times 0x7fffffffffffffff⟩, ⟨ch 'x', .times 2⟩,
        ⟨ch 'C', .times 1⟩] := by decide +kernel
  exact ⟨by simpa using hsizes, by decide +kernel, rfl, unpack_eq_ok_iff.2 ⟨_, _, hparse, rfl, rfl⟩⟩

end Value

end TagFormula

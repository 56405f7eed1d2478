import Mathlib.Data.List.Basic
import Mathlib.Tactic.Common
import TagFormula.Value.Template

/-!
Unpacking from left to right. Positions are 64-bit words, and every kind of item moves them in its own way: to
the end of the data at most, or past it. Main statement: two templates one after the other unpack what the
first one unpacks, and then what the second one does on the data behind the position that the first one ends at.
-/

namespace TagFormula

namespace Template

/-! ### Templates one after the other -/

theorem takeWhile_append_stop {p : UInt8 → Bool} {c : UInt8} (hc : p c = false) (t g : Text) :
    (t ++ c :: g).takeWhile p = t.takeWhile p ∧ (t ++ c :: g).dropWhile p = t.dropWhile p ++ c :: g := by
  induction t with
  | nil => simp [hc]
  | cons b t ih =>
    by_cases hb : p b
    · simp [hb, ih]
    · simp [hb]

/-- A blank ends a count. -/
theorem readCount_append_space (t g : Text) :
    readCount (t ++ ch ' ' :: g) = ((readCount t).1, (readCount t).2 ++ ch ' ' :: g) := by
  cases t with
  | nil => rfl
  | cons b t =>
    obtain ⟨htake, hdrop⟩ := takeWhile_append_stop (show Byte.isDigit (ch ' ') = false from rfl) (b :: t) g
    rw [List.cons_append] at htake hdrop ⊢
    rw [readCount, readCount, htake, hdrop]
    split_ifs <;> rfl

theorem parse_of_space {b : UInt8} (h : Byte.isSpace b) (t : Text) : parse (b :: t) = parse t := by
  rw [parse, if_pos h]

theorem parse_of_letter {b : UInt8} (hspace : ¬Byte.isSpace b) (hletter : letters.contains b) (t : Text) :
    parse (b :: t) = (parse (readCount t).2).map (⟨b, (readCount t).1⟩ :: ·) := by
  rw [parse, if_neg hspace, if_pos hletter]
  cases parse (readCount t).2 <;> rfl

theorem parse_of_unknown {b : UInt8} (hspace : ¬Byte.isSpace b) (hletter : ¬letters.contains b) (t : Text) :
    parse (b :: t) = .error (.unknownTemplateLetter b) := by
  rw [parse, if_neg hspace, if_neg hletter]

/-- The items of two templates with a blank between them, or the first fault. -/
theorem parse_append_space (f g : Text) :
    parse (f ++ ch ' ' :: g) = (parse f).bind fun fs => (parse g).map (fs ++ ·) := by
  induction f using parse.induct with
  | case1 =>
    rw [List.nil_append, parse_of_space (by decide), parse]
    cases parse g <;> rfl
  | case2 b f hspace ih => rw [List.cons_append, parse_of_space hspace, parse_of_space hspace, ih]
  | case3 b f hspace hletter ih =>
    rw [List.cons_append, parse_of_letter hspace hletter, parse_of_letter hspace hletter, readCount_append_space, ih]
    cases parse (readCount f).2 with
    | error e => rfl
    | ok fs => cases parse g <;> rfl
  | case4 b f hspace hletter =>
    rw [List.cons_append, parse_of_unknown hspace hletter, parse_of_unknown hspace hletter]
    rfl

/-! ### Positions -/

theorem toNat_add_of_lt {a b : UInt64} (h : a.toNat + b.toNat < 0x10000000000000000) :
    (a + b).toNat = a.toNat + b.toNat := by
  rw [UInt64.toNat_add]
  exact Nat.mod_eq_of_lt h

theorem toNat_toUInt64_of_lt {n : Nat} (h : n < 0x10000000000000000) : n.toUInt64.toNat = n :=
  UInt64.toNat_ofNat_of_lt h

theorem toNat_add_toUInt64 {a : UInt64} {n : Nat} (h : a.toNat + n < 0x10000000000000000) :
    (a + n.toUInt64).toNat = a.toNat + n := by
  have hn := toNat_toUInt64_of_lt (by omega : n < _)
  rw [toNat_add_of_lt (by omega), hn]

theorem layout_width (letter : UInt8) : 0 < (layout letter).width ∧ (layout letter).width ≤ 4 := by
  rw [layout]
  split_ifs <;> decide

/-- A position in the data behind `k` is one in the whole data, as long as it does not wrap around. -/
theorem byteAt_add {data : Text} {k at' : UInt64} (h : k.toNat + at'.toNat < 0x10000000000000000) :
    byteAt data (k + at') = byteAt (data.drop k.toNat) at' := by
  rw [byteAt, byteAt, toNat_add_of_lt h, List.getElem?_drop]

theorem readNumber_add {l : Layout} {data : Text} {k offset : UInt64}
    (h : k.toNat + offset.toNat + l.width < 0x10000000000000000) :
    readNumber l data (k + offset) = readNumber l (data.drop k.toNat) offset := by
  have hbytes : (List.range l.width).map (fun j => byteAt data (k + offset + j.toUInt64))
      = (List.range l.width).map fun j => byteAt (data.drop k.toNat) (offset + j.toUInt64) := by
    refine List.map_congr_left fun j hj => ?_
    have hj := List.mem_range.1 hj
    rw [UInt64.add_assoc, byteAt_add]
    rw [toNat_add_toUInt64] <;> omega
  rw [readNumber, readNumber, hbytes]

theorem toNat_readNumbers {l : Layout} (data : Text) {n : Nat} {offset : UInt64}
    (h : offset.toNat + n * l.width < 0x10000000000000000) :
    (readNumbers l data n offset).2.toNat = offset.toNat + n * l.width := by
  induction n generalizing offset with
  | zero => rw [Nat.zero_mul, Nat.add_zero]; rfl
  | succ n ih =>
    rw [Nat.succ_mul] at h ⊢
    have hnext := toNat_add_toUInt64 (by omega : offset.toNat + l.width < _)
    rw [readNumbers, ih (by omega), hnext]
    omega

theorem readNumbers_add {l : Layout} {data : Text} {k : UInt64} {n : Nat} {offset : UInt64}
    (h : k.toNat + offset.toNat + n * l.width < 0x10000000000000000) :
    readNumbers l data n (k + offset) = ((readNumbers l (data.drop k.toNat) n offset).1,
      k + (readNumbers l (data.drop k.toNat) n offset).2) := by
  induction n generalizing offset with
  | zero => rfl
  | succ n ih =>
    rw [Nat.succ_mul] at h
    have hnext := toNat_add_toUInt64 (by omega : offset.toNat + l.width < _)
    rw [readNumbers, readNumbers, UInt64.add_assoc, ih (by omega), readNumber_add (by omega)]

/-- Reading while data is left reads as many numbers as fit. -/
theorem readAllNumbers_eq {l : Layout} {data : Text} {offset : UInt64} (hwidth : 0 < l.width)
    (hsize : data.length + l.width < 0x10000000000000000)
    (hoffset : offset.toNat + l.width < 0x10000000000000000) :
    readAllNumbers l data offset = readNumbers l data ((data.length - offset.toNat) / l.width) offset := by
  have hgo : ∀ (fuel : Nat) (offset : UInt64), offset.toNat + l.width < 0x10000000000000000 →
      (data.length - offset.toNat) / l.width < fuel → readAllNumbers.go l data fuel offset
        = readNumbers l data ((data.length - offset.toNat) / l.width) offset := by
    intro fuel
    induction fuel with
    | zero =>
      intro offset _ hfuel
      exact absurd hfuel (Nat.not_lt_zero _)
    | succ fuel ih =>
      intro offset hoffset hfuel
      have hnext := toNat_add_toUInt64 hoffset
      rw [readAllNumbers.go, hnext]
      split
      · rename_i hfits
        have hcount : (data.length - offset.toNat) / l.width
            = (data.length - (offset.toNat + l.width)) / l.width + 1 := by
          rw [Nat.div_eq_sub_div hwidth (by omega), Nat.sub_sub]
        rw [hcount] at hfuel ⊢
        rw [readNumbers, ih _ (by omega) (by rw [hnext]; omega), hnext]
      · rw [Nat.div_eq_of_lt (by omega)]
        rfl
  have hfuel : (data.length - offset.toNat) / l.width ≤ data.length - offset.toNat := Nat.div_le_self _ _
  exact hgo _ offset hoffset (by omega)

/-! ### Items -/

/-- The letters of items that take text or digits, as far as there is data. -/
def textLetters : Text := ascii "HhaA"

/-- How far an item may move a position that is past the data: a skip by its count, numbers by their count times
their width. Text and digits stop at the end of the data, and so does what is read while data is left. -/
def Item.reach (item : Item) : Nat :=
  match item.count with
  | .all => 0
  | .times n =>
    if textLetters.contains item.letter then 0
    else if item.letter == ch 'x' then n.toUInt64.toNat
    else n.toNatClampNeg * (layout item.letter).width

/-- How far items may move a position altogether. -/
def totalReach : List Item → Nat
  | [] => 0
  | item :: rest => item.reach + totalReach rest

theorem Count.limit_le (available : Nat) (c : Count) : c.limit available ≤ available := by
  cases c with
  | times n => exact Nat.min_le_right _ _
  | all => exact Nat.le_refl _

theorem mem_textLetters {b : UInt8} : textLetters.contains b ↔
    (b == ch 'H' || b == ch 'h') = true ∨ (b == ch 'a' || b == ch 'A') = true := by
  simp [textLetters, ascii, or_assoc]

/-- Text and digits depend on the data left, and do not go past its end. -/
theorem Item.read_of_text {item : Item} (h : textLetters.contains item.letter) :
    ∃ (values : Text → List Value) (size : Text → Nat), (∀ left, size left ≤ left.length) ∧
      ∀ data offset, item.read data offset
        = (values (data.drop offset.toNat), offset + (size (data.drop offset.toNat)).toUInt64) := by
  by_cases hdigits : (item.letter == ch 'H' || item.letter == ch 'h') = true
  · refine ⟨fun left => [.string ((left.flatMap (hexPair (item.letter == ch 'h'))).take
      (item.count.limit (2 * left.length)))], fun left => (item.count.limit (2 * left.length) + 1) / 2,
      fun left => ?_, fun data offset => ?_⟩
    · have hle := item.count.limit_le (2 * left.length)
      show (item.count.limit (2 * left.length) + 1) / 2 ≤ left.length
      omega
    · rw [Item.read, if_pos hdigits]
  · have htext := (mem_textLetters.1 h).resolve_left hdigits
    refine ⟨fun left => [.string (if item.letter == ch 'A' then dropPadding (left.take (item.count.limit left.length))
      else left.take (item.count.limit left.length))], fun left => item.count.limit left.length,
      fun left => Count.limit_le _ _, fun data offset => ?_⟩
    rw [Item.read, if_neg hdigits, if_pos htext]

theorem Item.read_of_skip {item : Item} (h : item.letter = ch 'x') (data : Text) (offset : UInt64) :
    item.read data offset = ([], offset + item.reach.toUInt64) := by
  obtain ⟨letter, count⟩ := item
  obtain rfl : letter = ch 'x' := h
  cases count with
  | all => exact Prod.ext rfl (UInt64.add_zero offset).symm
  | times n =>
    have hreach : Item.reach ⟨ch 'x', .times n⟩ = n.toUInt64.toNat := rfl
    rw [hreach, show n.toUInt64.toNat.toUInt64 = n.toUInt64 from UInt64.ofNat_toNat]
    rfl

/-- How many numbers an item reads if so many bytes are left. -/
def Item.numbers (item : Item) (available : Nat) : Nat :=
  match item.count with
  | .times n => n.toNatClampNeg
  | .all => available / (layout item.letter).width

section

variable {item : Item} (htext : ¬textLetters.contains item.letter) (hskip : item.letter ≠ ch 'x')
include htext hskip

theorem Item.numbers_mul_le (available : Nat) :
    item.numbers available * (layout item.letter).width ≤ available + item.reach := by
  rw [Item.numbers, Item.reach]
  cases item.count with
  | all => exact Nat.div_mul_le_self _ _
  | times n =>
    simp only
    rw [if_neg htext, if_neg (by simpa using hskip)]
    exact Nat.le_add_left _ _

theorem Item.read_of_numbers {data : Text} {offset : UInt64}
    (h : max offset.toNat data.length + 4 < 0x10000000000000000) : item.read data offset
      = (let r := readNumbers (layout item.letter) data (item.numbers (data.length - offset.toNat)) offset
         (r.1.map fun n => .integer (Int64.ofInt n), r.2)) := by
  obtain ⟨hpos, hwidth⟩ := layout_width item.letter
  rw [mem_textLetters, not_or] at htext
  rw [Item.read, if_neg htext.1, if_neg htext.2, if_neg (by simpa using hskip), Item.numbers]
  cases item.count with
  | times n => rfl
  | all => simp only [readAllNumbers_eq hpos (by omega : data.length + _ < _) (by omega : offset.toNat + _ < _)]

end

/-- An item reads at a position what it reads at the start of the data behind that position. -/
theorem Item.read_eq {item : Item} {data : Text} {offset : UInt64}
    (h : max offset.toNat data.length + item.reach + 4 < 0x10000000000000000) :
    item.read data offset = ((item.read (data.drop offset.toNat) 0).1,
      offset + (item.read (data.drop offset.toNat) 0).2) := by
  have hlength : (data.drop offset.toNat).length = data.length - offset.toNat := List.length_drop
  by_cases htext : textLetters.contains item.letter
  · obtain ⟨values, size, -, hread⟩ := Item.read_of_text htext
    rw [hread, hread, UInt64.toNat_zero, List.drop_zero, UInt64.zero_add]
  · by_cases hskip : item.letter = ch 'x'
    · rw [Item.read_of_skip hskip, Item.read_of_skip hskip, UInt64.zero_add]
    · have hle := Item.numbers_mul_le htext hskip (data.length - offset.toNat)
      have hnumbers : readNumbers (layout item.letter) data (item.numbers (data.length - offset.toNat)) (offset + 0)
          = _ := readNumbers_add (by rw [UInt64.toNat_zero]; omega)
      rw [UInt64.add_zero] at hnumbers
      rw [Item.read_of_numbers htext hskip (by omega), Item.read_of_numbers htext hskip
        (by rw [UInt64.toNat_zero, hlength]; omega), UInt64.toNat_zero, hlength, Nat.sub_zero, hnumbers]

/-- From the start of the data, an item moves to its end and then as far as it reaches, at most. -/
theorem Item.toNat_read_le {item : Item} {data : Text} (h : data.length + item.reach + 4 < 0x10000000000000000) :
    (item.read data 0).2.toNat ≤ data.length + item.reach := by
  by_cases htext : textLetters.contains item.letter
  · obtain ⟨values, size, hsize, hread⟩ := Item.read_of_text htext
    have hle := hsize data
    rw [hread, UInt64.toNat_zero, List.drop_zero, UInt64.zero_add, toNat_toUInt64_of_lt (by omega)]
    omega
  · by_cases hskip : item.letter = ch 'x'
    · rw [Item.read_of_skip hskip, UInt64.zero_add, toNat_toUInt64_of_lt (by omega)]
      omega
    · have hle := Item.numbers_mul_le htext hskip data.length
      rw [Item.read_of_numbers htext hskip (by rw [UInt64.toNat_zero]; omega), UInt64.toNat_zero, Nat.sub_zero,
        toNat_readNumbers _ (by rw [UInt64.toNat_zero]; omega), UInt64.toNat_zero]
      omega

/-! ### A run over items -/

/-- The position behind items. -/
def offsetAfter (data : Text) (items : List Item) (offset : UInt64) : UInt64 :=
  items.foldl (fun offset item => (item.read data offset).2) offset

theorem readItems_append (data : Text) (fs gs : List Item) (offset : UInt64) :
    readItems data (fs ++ gs) offset
      = readItems data fs offset ++ readItems data gs (offsetAfter data fs offset) := by
  induction fs generalizing offset with
  | nil => rfl
  | cons item fs ih =>
    rw [List.cons_append, readItems, readItems, ih, List.append_assoc]
    rfl

/-- An item moves to the end of the data, or stays behind it, and then goes as far as it reaches, at most. -/
theorem Item.toNat_read_le_max {data : Text} {offset : UInt64} (item : Item)
    (h : max offset.toNat data.length + item.reach + 4 < 0x10000000000000000) :
    (item.read data offset).2.toNat ≤ max offset.toNat data.length + item.reach := by
  have hlength : (data.drop offset.toNat).length = data.length - offset.toNat := List.length_drop
  have hle := item.toNat_read_le (by omega : (data.drop offset.toNat).length + _ + 4 < _)
  rw [item.read_eq h, toNat_add_of_lt (by omega)]
  omega

/-- Items stay within the reach they have together. -/
theorem toNat_offsetAfter_le {data : Text} {items : List Item} {offset : UInt64}
    (h : max offset.toNat data.length + totalReach items + 4 < 0x10000000000000000) :
    (offsetAfter data items offset).toNat ≤ max offset.toNat data.length + totalReach items := by
  induction items generalizing offset with
  | nil => exact Nat.le_max_left _ _
  | cons item items ih =>
    rw [totalReach] at h ⊢
    have hle := item.toNat_read_le_max (by omega : max offset.toNat data.length + item.reach + 4 < _)
    calc (offsetAfter data items (item.read data offset).2).toNat
        ≤ max (item.read data offset).2.toNat data.length + totalReach items := ih (by omega)
      _ ≤ max offset.toNat data.length + (item.reach + totalReach items) := by omega

/-- Items read at a position what they read at the start of the data behind it. -/
theorem readItems_eq {data : Text} {items : List Item} {offset : UInt64}
    (h : max offset.toNat data.length + totalReach items + 4 < 0x10000000000000000) :
    readItems data items offset = readItems (data.drop offset.toNat) items 0 := by
  induction items generalizing data offset with
  | nil => rfl
  | cons item items ih =>
    rw [totalReach] at h
    have hlength : (data.drop offset.toNat).length = data.length - offset.toNat := List.length_drop
    have hitem : max offset.toNat data.length + item.reach + 4 < 0x10000000000000000 := by omega
    have hle := item.toNat_read_le (by omega : (data.drop offset.toNat).length + _ + 4 < _)
    have hmax := item.toNat_read_le_max hitem
    -- both sides now go on behind the same byte, one position counted from the start and one from `offset`
    have hnext : (item.read data offset).2.toNat
        = offset.toNat + (item.read (data.drop offset.toNat) 0).2.toNat := by
      rw [item.read_eq hitem, toNat_add_of_lt (by omega)]
    calc readItems data (item :: items) offset
        = (item.read data offset).1 ++ readItems data items (item.read data offset).2 := rfl
      _ = (item.read data offset).1 ++ readItems (data.drop (item.read data offset).2.toNat) items 0 := by
        rw [ih (by omega)]
      _ = (item.read (data.drop offset.toNat) 0).1 ++ readItems ((data.drop offset.toNat).drop
            (item.read (data.drop offset.toNat) 0).2.toNat) items 0 := by
        rw [hnext, item.read_eq hitem, List.drop_drop]
      _ = readItems (data.drop offset.toNat) (item :: items) 0 := by
        rw [← ih (by omega)]
        rfl

theorem readItems_append_eq {data : Text} {fs gs : List Item}
    (h : data.length + totalReach fs + totalReach gs + 4 < 0x10000000000000000) :
    readItems data (fs ++ gs) 0
      = readItems data fs 0 ++ readItems (data.drop (offsetAfter data fs 0).toNat) gs 0 := by
  have hzero : (0 : UInt64).toNat = 0 := UInt64.toNat_zero
  have hle := toNat_offsetAfter_le (by omega : max (0 : UInt64).toNat data.length + totalReach fs + 4 < _)
  have hrest : readItems data gs (offsetAfter data fs 0)
      = readItems (data.drop (offsetAfter data fs 0).toNat) gs 0 := readItems_eq (by omega)
  rw [readItems_append, hrest]

/-! ### Whole templates -/

/-- How far the items of a template may move a position past the data; a template with a fault has no items. -/
def reach (template : Text) : Nat :=
  match parse template with
  | .ok items => totalReach items
  | .error _ => 0

/-- The position behind the items of a template, from the start of the data. -/
def endOffset (template data : Text) : UInt64 :=
  match parse template with
  | .ok items => offsetAfter data items 0
  | .error _ => 0

theorem reach_of_parse {t : Text} {items : List Item} (h : parse t = .ok items) : reach t = totalReach items := by
  rw [reach, h]

theorem endOffset_of_parse {t : Text} {items : List Item} (h : parse t = .ok items) (data : Text) :
    endOffset t data = offsetAfter data items 0 := by
  rw [endOffset, h]

theorem parse_append_space_eq_ok_iff {f g : Text} {items : List Item} :
    parse (f ++ ascii " " ++ g) = .ok items ↔
      ∃ fs gs, parse f = .ok fs ∧ parse g = .ok gs ∧ items = fs ++ gs := by
  have htext : f ++ ascii " " ++ g = f ++ ch ' ' :: g := List.append_assoc f _ g
  rw [htext, parse_append_space]
  cases parse f with
  | error e => simp [Except.bind]
  | ok fs => cases parse g <;> simp [Except.bind, Except.map, eq_comm]

end Template

namespace Value

theorem unpack_eq_ok_iff {t : Text} {d r : Value} : unpack (.string t) d = .ok r ↔
    ∃ items bytes, Template.parse t = .ok items ∧ d.toText = .ok bytes ∧
      r = .list (Template.readItems bytes items 0) := by
  have hunpack : unpack (.string t) d = (Template.parse t).bind fun items =>
      d.toText.bind fun bytes => .ok (.list (Template.readItems bytes items 0)) := rfl
  rw [hunpack]
  cases Template.parse t with
  | error e => simp [Except.bind]
  | ok items => cases d.toText <;> simp [Except.bind, eq_comm]

/-- Unpacking goes from left to right. Two templates with a blank between them unpack data exactly if both do,
and give what the first one unpacks, followed by what the second one unpacks from the data behind the position
that the first one ends at. That data is empty if the position is past the end. The templates reach less than
`2 ^ 63` bytes past the data, and the data leaves that much room for a position. -/
theorem unpack_append (f g : Text) (d : Value)
    (hreach : Template.reach f + Template.reach g < 0x8000000000000000)
    (hsize : ∀ bytes, d.toText = .ok bytes → bytes.length + 4 ≤ 0x8000000000000000) :
    ((∃ r, unpack (.string (f ++ ascii " " ++ g)) d = .ok r) ↔
      (∃ r, unpack (.string f) d = .ok r) ∧ ∃ r, unpack (.string g) d = .ok r) ∧
    ∀ r, unpack (.string (f ++ ascii " " ++ g)) d = .ok r → ∃ bytes vs ws, d.toText = .ok bytes ∧
      unpack (.string f) d = .ok (.list vs) ∧
      unpack (.string g) (.string (bytes.drop (Template.endOffset f bytes).toNat)) = .ok (.list ws) ∧
      r = .list (vs ++ ws) := by
  refine ⟨⟨?_, ?_⟩, ?_⟩
  · rintro ⟨r, h⟩
    obtain ⟨items, bytes, ht, hd, -⟩ := unpack_eq_ok_iff.1 h
    obtain ⟨fs, gs, hf, hg, -⟩ := Template.parse_append_space_eq_ok_iff.1 ht
    exact ⟨⟨_, unpack_eq_ok_iff.2 ⟨fs, bytes, hf, hd, rfl⟩⟩, _, unpack_eq_ok_iff.2 ⟨gs, bytes, hg, hd, rfl⟩⟩
  · rintro ⟨⟨rf, hf⟩, rg, hg⟩
    obtain ⟨fs, bytes, hf, hd, -⟩ := unpack_eq_ok_iff.1 hf
    obtain ⟨gs, -, hg, -, -⟩ := unpack_eq_ok_iff.1 hg
    have hitems := Template.parse_append_space_eq_ok_iff.2 ⟨fs, gs, hf, hg, rfl⟩
    exact ⟨_, unpack_eq_ok_iff.2 ⟨fs ++ gs, bytes, hitems, hd, rfl⟩⟩
  · intro r h
    obtain ⟨items, bytes, ht, hd, rfl⟩ := unpack_eq_ok_iff.1 h
    obtain ⟨fs, gs, hf, hg, rfl⟩ := Template.parse_append_space_eq_ok_iff.1 ht
    have hbytes := hsize bytes hd
    rw [Template.reach_of_parse hf, Template.reach_of_parse hg] at hreach
    refine ⟨bytes, _, _, hd, unpack_eq_ok_iff.2 ⟨fs, bytes, hf, hd, rfl⟩,
      unpack_eq_ok_iff.2 ⟨gs, _, hg, rfl, rfl⟩, ?_⟩
    rw [Template.endOffset_of_parse hf, Template.readItems_append_eq (by omega)]

/-- Three digits take two bytes, the skip goes past the end and the number there is zero; the second template
then finds no data. -/
theorem unpack_append_past_end :
    unpack (.string (ascii "H3 x4 n" ++ ascii " " ++ ascii "a* C")) (.string (ascii "abcd"))
      = .ok (.list ([.string (ascii "616"), .integer 0] ++ [.string [], .integer 0])) := by
  have hf : Template.parse (ascii "H3 x4 n") = .ok [⟨ch 'H', .times 3⟩, ⟨ch 'x', .times 4⟩, ⟨ch 'n', .times 1⟩] := by
    decide +kernel
  have hg : Template.parse (ascii "a* C") = .ok [⟨ch 'a', .all⟩, ⟨ch 'C', .times 1⟩] := by
    decide +kernel
  have hfirst : unpack (.string (ascii "H3 x4 n")) (.string (ascii "abcd"))
      = .ok (.list [.string (ascii "616"), .integer 0]) := unpack_eq_ok_iff.2 ⟨_, _, hf, rfl, rfl⟩
  have hsecond : unpack (.string (ascii "a* C")) (.string []) = .ok (.list [.string [], .integer 0]) :=
    unpack_eq_ok_iff.2 ⟨_, _, hg, rfl, rfl⟩
  have hend : (ascii "abcd").drop (Template.endOffset (ascii "H3 x4 n") (ascii "abcd")).toNat = [] := by
    decide +kernel
  obtain ⟨hok, hvalue⟩ := unpack_append (ascii "H3 x4 n") (ascii "a* C") (.string (ascii "abcd"))
    (by decide +kernel) (fun bytes h => by cases h; decide)
  obtain ⟨r, hr⟩ := hok.2 ⟨⟨_, hfirst⟩, _, unpack_eq_ok_iff.2 ⟨_, _, hg, rfl, rfl⟩⟩
  obtain ⟨bytes, vs, ws, hd, hvs, hws, rfl⟩ := hvalue r hr
  cases hd
  rw [hfirst] at hvs
  rw [hend, hsecond] at hws
  cases hvs
  cases hws
  exact hr

end Value

end TagFormula

import TagFormula.Proofs.Directives
import TagFormula.Proofs.RadixRoundTrip

/-!
Conversions of text. They see a text up to its first zero byte, and a field has a largest length. Main statement:
`%s` and `%c` write the whole text exactly if it holds no zero byte and is not too long.
-/

namespace TagFormula

namespace Format

/-- What a conversion without width and precision writes of a text. -/
def writtenText (t : Text) : Text := if maxSize < t.upToZero.length then [] else t.upToZero

theorem writtenText_eq_self_iff {t : Text} : writtenText t = t ↔ 0 ∉ t ∧ t.length ≤ maxSize := by
  have hself : t.upToZero = t ↔ 0 ∉ t := by
    rw [Text.upToZero, List.takeWhile_eq_self_iff]
    exact ⟨fun h hmem => absurd (h 0 hmem) (by decide), fun h b hb => bne_iff_ne.2 fun hzero => h (hzero ▸ hb)⟩
  constructor
  · intro h
    unfold writtenText at h
    split at h
    · rename_i hlong
      rw [← h] at hlong
      exact absurd hlong (Nat.not_lt_zero _)
    · rename_i hlong
      exact ⟨hself.1 h, h ▸ Nat.not_lt.1 hlong⟩
  · rintro ⟨hzero, hlength⟩
    rw [writtenText, hself.2 hzero, if_neg (Nat.not_lt.2 hlength)]

theorem writtenText_byte (b : UInt8) : writtenText [b] = if b = 0 then [] else [b] := by
  split
  · rename_i hzero
    rw [hzero]
    rfl
  · rename_i hzero
    exact writtenText_eq_self_iff.2 ⟨by simpa using Ne.symm hzero, Nat.succ_le_of_lt (by decide)⟩

/-! ### Fields -/

section

variable {f : Field} (hwidth : f.width = 0) (hprecision : f.precision = none)
include hwidth hprecision

theorem Field.guarded_plainText (t : Text) : f.guarded (ascii "s") (·.plainText t) = writtenText t := by
  have hplain : f.plainText t = t.upToZero := by
    rw [Field.plainText, hprecision, Field.pad_of_width_zero hwidth]
    rfl
  rw [Field.guarded_of_plain hwidth hprecision, hplain, writtenText]

theorem Field.write_text (v : Value) : f.write (ch 's') v = v.toText.map writtenText := by
  rw [Field.write, if_neg (by decide), if_neg (by decide), if_neg (by decide), if_neg (by decide),
    if_pos (by decide)]
  cases v.toText with
  | error e => rfl
  | ok t => exact congrArg Except.ok (guarded_plainText hwidth hprecision t)

theorem Field.write_byte (i : Int64) : f.write (ch 'c') (.integer i) = .ok (writtenText [i.toUInt64.toUInt8]) := by
  rw [Field.write, if_neg (by decide), if_neg (by decide), if_neg (by decide), if_pos (by decide)]
  exact congrArg Except.ok (guarded_plainText hwidth hprecision _)

end

/-! ### Specifications without width and precision -/

namespace Specification

/-- Length marks and the letters of conversions are no part of a size, and no flags or percent signs. -/
theorem stops_of_mem {b : UInt8} (h : b ∈ ascii "hlqLVdiuoxXeEfFgGcs") :
    isFlag b = false ∧ Byte.isDigit b = false ∧ b ≠ ch '*' ∧ b ≠ ch '.' ∧ b ≠ ch '%' := by
  have hall : (ascii "hlqLVdiuoxXeEfFgGcs").all fun b =>
      !isFlag b && !Byte.isDigit b && b != ch '*' && b != ch '.' && b != ch '%' := by decide
  simpa [and_assoc] using List.all_eq_true.1 hall b h

/-- Flags and length marks in front of the letter of a conversion. -/
def plain (flags marks : Text) (letter : UInt8) (hflags : flags.all isFlag) (hmarks : marks.all isLengthMark)
    (hletter : (ascii "diuoxXeEfFgGcs").contains letter) : Specification :=
  have hstops : ∀ b ∈ (marks ++ [letter]).head?, b ∈ ascii "hlqLVdiuoxXeEfFgGcs" := by
    intro b hb
    have hsplit : ascii "hlqLVdiuoxXeEfFgGcs" = ascii "hlqLV" ++ ascii "diuoxXeEfFgGcs" := rfl
    rw [hsplit, List.mem_append]
    rcases List.mem_append.1 (List.mem_of_mem_head? hb) with hb | hb
    · exact Or.inl (List.contains_iff_mem.1 (List.all_eq_true.1 hmarks b hb))
    · rw [List.mem_singleton.1 hb]
      exact Or.inr (List.contains_iff_mem.1 hletter)
  { flags, width := [], precision := none, marks, letter
    isFlag_flags := List.all_eq_true.1 hflags
    isSize_width := Or.inr (by simp)
    isSize_precision := by simp
    isLengthMark_marks := List.all_eq_true.1 hmarks
    flags_end := fun b hb => (stops_of_mem (hstops b hb)).1
    width_end := Or.inr fun b hb => ⟨(stops_of_mem (hstops b hb)).2.1, fun _ => (stops_of_mem (hstops b hb)).2.2.1⟩
    point_end := fun _ h => (stops_of_mem (hstops _ h)).2.2.2.1 rfl
    precision_end := by simp
    marks_end := by
      have hall : (ascii "diuoxXeEfFgGcs").all fun b => !isLengthMark b := by decide
      simpa using List.all_eq_true.1 hall letter (List.contains_iff_mem.1 hletter)
    percent := by
      cases flags with
      | nil => exact fun h => (stops_of_mem (hstops _ h)).2.2.2.2 rfl
      | cons b flags =>
        intro h
        have hb := List.all_eq_true.1 hflags b (List.mem_cons_self ..)
        rw [Option.some.inj h] at hb
        exact absurd hb (by decide) }

section

variable {s : Specification} (hwidth : s.width = []) (hprecision : s.precision = none)
include hwidth hprecision

/-- Without stars the sizes need no arguments. -/
theorem write_piece (args : List Value) : (Element.specification s).piece.write args
    = ((s.spec.field none none).write s.letter (args.headD .empty)).map (·, args.drop 1) := by
  have hresolve : s.spec.resolve args = .ok (s.spec.field none none, args) := by
    rw [spec, hwidth, hprecision]
    rfl
  change (s.spec.resolve args).bind _ = _
  rw [hresolve]
  change ((s.spec.field none none).write s.letter (next args).1).map (·, (next args).2) = _
  cases args <;> rfl

/-- The text of the next argument is written. -/
theorem write_text (hletter : s.letter = ch 's') {args : List Value} {t : Text}
    (ht : (args.headD .empty).toText = .ok t) :
    (Element.specification s).piece.write args = .ok (writtenText t, args.drop 1) := by
  rw [write_piece hwidth hprecision, hletter, Field.write_text rfl rfl, ht]
  rfl

/-- The byte that the next argument stands for is written. -/
theorem write_byte (hletter : s.letter = ch 'c') (i : Int64) (args : List Value) :
    (Element.specification s).piece.write (.integer i :: args)
      = .ok (writtenText [i.toUInt64.toUInt8], args) := by
  rw [write_piece hwidth hprecision, hletter, List.headD_cons, Field.write_byte rfl rfl]
  rfl

end

end Specification

end Format

namespace Value

open Format

/-- A single specification on a single argument. -/
theorem format_specification (s : Specification) {v : Value} (hv : v.kind ≠ .list) {t : Text}
    (h : (Element.specification s).piece.write [v] = .ok (t, [])) :
    format [.string (ch '%' :: s.text), v] = .ok (.string t) := by
  have hflat : flattenAll [v] = [v] := flattenAll_eq_self (by simpa using hv)
  have hparse : parse (ch '%' :: s.text) = [(Element.specification s).piece] := by
    have := parse_textOf [.specification s]
    simpa [textOf, Element.text] using this
  rw [format_string, hflat, hparse, writeAll_cons, h]
  exact congrArg (fun u => Except.ok (Value.string u)) (List.append_nil t)

theorem format_text {v : Value} {t : Text} (hv : v.kind ≠ .list) (ht : v.toText = .ok t) :
    format [.string (ascii "%s"), v] = .ok (.string (writtenText t)) :=
  format_specification (.plain [] [] (ch 's') rfl rfl rfl) hv (Specification.write_text rfl rfl rfl ht)

theorem format_byte (i : Int64) :
    format [.string (ascii "%c"), .integer i] = .ok (.string (writtenText [i.toUInt64.toUInt8])) :=
  format_specification (.plain [] [] (ch 'c') rfl rfl rfl) (by simp [kind])
    (Specification.write_byte rfl rfl rfl i [])

/-- A text conversion between two formats. -/
theorem format_text_between (f : List Element) {s : Specification} (hletter : s.letter = ch 's')
    (hwidth : s.width = []) (hprecision : s.precision = none) (g : Text) (args : List Value) {t : Text}
    (ht : (((flattenAll args).drop (argumentsOf f)).headD .empty).toText = .ok t) :
    format (.string (textOf f ++ (ch '%' :: s.text ++ g)) :: args) = (do
      let a ← format (.string (textOf f) :: args)
      let b ← format (.string g :: (flattenAll args).drop (argumentsOf f + 1))
      (← a.concat (.string (writtenText t))).concat b) := by
  have hwrite := Specification.write_text hwidth hprecision hletter ht
  rw [List.drop_drop] at hwrite
  rw [format_string, format_string, format_string, flattenAll_drop_flattenAll, parse_elements, parse_textOf,
    writeAll_append, sum_arguments_pieces]
  cases writeAll (f.map Element.piece) (flattenAll args) with
  | error e => rfl
  | ok a =>
    have hparse := parse_element (.specification s) g
    change ((writeAll (parse ((Element.specification s).text ++ g)) _).map (a ++ ·)).map Value.string = _
    rw [hparse, writeAll_cons, hwrite]
    change (((writeAll (parse g) _).map (writtenText t ++ ·)).map (a ++ ·)).map Value.string = _
    cases writeAll (parse g) ((flattenAll args).drop (argumentsOf f + 1)) with
    | error e => rfl
    | ok b => exact congrArg (fun u => Except.ok (Value.string u)) (List.append_assoc ..).symm

/-- Text is written up to its first zero byte, and not at all past the largest length. So `%s` gives what appending
to the empty text gives exactly if the text holds no zero byte and is not too long, and `%c` gives its byte exactly
if that is not zero. The same holds of every `%s` without width and precision, between any two formats. -/
theorem format_whole_iff (v : Value) (hv : v.kind ≠ .list) (k : UInt8) (f : List Element) (s : Specification)
    (hletter : s.letter = ch 's') (hwidth : s.width = []) (hprecision : s.precision = none) (g : Text)
    (args : List Value) :
    (∃ t, v.toText = .ok t ∧ format [.string (ascii "%s"), v] = .ok (.string (writtenText t)) ∧
      (format [.string (ascii "%s"), v] = concat (.string []) v ↔ 0 ∉ t ∧ t.length ≤ maxSize)) ∧
    format [.string (ascii "%c"), .integer (Int64.ofNat k.toNat)] = .ok (.string (if k = 0 then [] else [k])) ∧
    ∃ t, (((flattenAll args).drop (argumentsOf f)).headD .empty).toText = .ok t ∧
      format (.string (textOf f ++ (ch '%' :: s.text ++ g)) :: args) = (do
        let a ← format (.string (textOf f) :: args)
        let b ← format (.string g :: (flattenAll args).drop (argumentsOf f + 1))
        (← a.concat (.string (writtenText t))).concat b) := by
  refine ⟨?_, ?_, ?_⟩
  · obtain ⟨t, ht⟩ := exists_toText hv
    have hconcat : concat (.string []) v = .ok (.string t) := by
      have hoperand : v.textOperand "." = .ok t := by
        cases v with
        | list => exact absurd rfl hv
        | _ => exact ht
      rw [concat, hoperand]
      rfl
    refine ⟨t, ht, format_text hv ht, ?_⟩
    rw [format_text hv ht, hconcat, ← writtenText_eq_self_iff, Except.ok.injEq, string.injEq]
  · have hbyte : (Int64.ofNat k.toNat).toUInt64.toUInt8 = k := by simp
    rw [format_byte, hbyte, writtenText_byte]
  · have hnext : (((flattenAll args).drop (argumentsOf f)).headD .empty).kind ≠ .list := by
      have hflat : ∀ v ∈ (flattenAll args).drop (argumentsOf f), v.kind ≠ .list :=
        fun v hv => kind_of_mem_flattenAll args v (List.mem_of_mem_drop hv)
      cases hrest : (flattenAll args).drop (argumentsOf f) with
      | nil => decide
      | cons v rest => exact hflat v (hrest ▸ List.mem_cons_self ..)
    obtain ⟨t, ht⟩ := exists_toText hnext
    exact ⟨t, ht, format_text_between f hletter hwidth hprecision g args ht⟩

/-- Bytes that are no text, a byte past 127, and a text with a flag and a length mark behind a doubled percent
sign. -/
theorem format_whole_iff_bytes :
    (Value.bytes [255, 37]).kind ≠ .list ∧
    format [.string (ascii "%s"), .bytes [255, 37]] = concat (.string []) (.bytes [255, 37]) ∧
    format [.string (ascii "%c"), .integer (Int64.ofNat 200)] = .ok (.string [200]) ∧
    format [.string (ascii "%%%-ls;"), .list [.string (ascii "ab")]] = (do
      let a ← format [.string (ascii "%%"), .list [.string (ascii "ab")]]
      let b ← format [.string (ascii ";")]
      (← a.concat (.string (ascii "ab"))).concat b) := by
  obtain ⟨⟨t, ht, -, hiff⟩, hbyte, u, hu, hbetween⟩ := format_whole_iff (.bytes [255, 37]) (by decide) 200
    [.percent] (.plain (ascii "-") (ascii "l") (ch 's') rfl rfl rfl) rfl rfl rfl (ascii ";")
    [.list [.string (ascii "ab")]]
  obtain rfl : [255, 37] = t := Except.ok.inj ht
  obtain rfl : ascii "ab" = u := Except.ok.inj hu
  exact ⟨by decide, hiff.2 ⟨by decide, by decide⟩, hbyte, hbetween⟩

/-- A zero byte ends a text, and is itself no text. -/
theorem format_cut_at_zero :
    format [.string (ascii "%s"), .string [97, 0, 98]] = .ok (.string [97]) ∧
    concat (.string []) (.string [97, 0, 98]) = .ok (.string [97, 0, 98]) ∧
    format [.string (ascii "%s"), .string [97, 0, 98]] ≠ concat (.string []) (.string [97, 0, 98]) ∧
    format [.string (ascii "%c"), .integer 0] = .ok (.string []) := by
  have hformat : format [.string (ascii "%s"), .string [97, 0, 98]] = .ok (.string [97]) :=
    format_text (v := .string [97, 0, 98]) (by decide) rfl
  refine ⟨hformat, rfl, ?_, format_byte 0⟩
  rw [hformat]
  intro h
  injection h with h
  injection h with h
  exact absurd h (by decide)

end Value

end TagFormula

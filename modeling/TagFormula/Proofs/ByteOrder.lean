import TagFormula.Proofs.RadixRoundTrip
import TagFormula.Proofs.Unpacking

/-!
Numbers in binary data. A layout gives their width in bytes, the order of the bytes and whether the first bit is
a sign. Main statement: unpacking numbers while data is left gives back the list that was written, every text of
fitting length was written by exactly one list, and the hexadecimal digits of a text agree with its numbers.
-/

namespace TagFormula

namespace Template

/-! ### Bytes of an integer -/

/-- The number that bytes stand for, the most significant one in front. -/
def valueOf (bytes : Text) : Int := bytes.foldl (fun acc b => 256 * acc + b.toNat) 0

/-- The last bytes of an integer in two's complement, the least significant one in front. -/
def lastBytes : Nat → Int → Text
  | 0, _ => []
  | width + 1, n => (n % 256).toNat.toUInt8 :: lastBytes width (n / 256)

theorem valueOf_concat (bytes : Text) (b : UInt8) : valueOf (bytes ++ [b]) = 256 * valueOf bytes + b.toNat := by
  rw [valueOf, List.foldl_append]
  rfl

theorem length_lastBytes (width : Nat) (n : Int) : (lastBytes width n).length = width := by
  induction width generalizing n with
  | zero => rfl
  | succ width ih => rw [lastBytes, List.length_cons, ih]

theorem toNat_lastByte (n : Int) : ((n % 256).toNat.toUInt8.toNat : Int) = n % 256 := by
  have hlow := Int.emod_nonneg n (by decide : (256 : Int) ≠ 0)
  have hhigh := Int.emod_lt_of_pos n (by decide : (0 : Int) < 256)
  have hlt : (n % 256).toNat < 256 := by omega
  have hbyte : (n % 256).toNat.toUInt8.toNat = (n % 256).toNat := UInt8.toNat_ofNat_of_lt hlt
  rw [hbyte, Int.toNat_of_nonneg hlow]

theorem valueOf_lastBytes (width : Nat) (n : Int) : valueOf (lastBytes width n).reverse = n % 256 ^ width := by
  induction width generalizing n with
  | zero => rw [pow_zero, Int.emod_one]; rfl
  | succ width ih =>
    rw [lastBytes, List.reverse_cons, valueOf_concat, ih, toNat_lastByte, pow_succ', Int.emod_def n (256 * _),
      ← Int.ediv_ediv_of_nonneg (by decide), Int.emod_def (n / 256), Int.emod_def n 256]
    ring

theorem lastBytes_valueOf (bytes : Text) : lastBytes bytes.length (valueOf bytes.reverse) = bytes := by
  induction bytes with
  | nil => rfl
  | cons b bytes ih =>
    have hb := b.toNat_lt
    have hlast : (256 * valueOf bytes.reverse + b.toNat) % 256 = b.toNat := by omega
    have hrest : (256 * valueOf bytes.reverse + b.toNat) / 256 = valueOf bytes.reverse := by omega
    rw [List.reverse_cons, valueOf_concat, List.length_cons, lastBytes, hlast, hrest, ih, Int.toNat_natCast]
    exact congrArg (· :: bytes) UInt8.ofNat_toNat

theorem valueOf_bounds (bytes : Text) : 0 ≤ valueOf bytes ∧ valueOf bytes < 256 ^ bytes.length := by
  have hvalue := valueOf_lastBytes bytes.reverse.length (valueOf bytes.reverse.reverse)
  rw [lastBytes_valueOf, List.reverse_reverse, List.length_reverse] at hvalue
  have hpos : (0 : Int) < 256 ^ bytes.length := by positivity
  rw [hvalue]
  exact ⟨Int.emod_nonneg _ hpos.ne', Int.emod_lt_of_pos _ hpos⟩

/-- What lies beyond the bytes does not matter. -/
theorem lastBytes_sub (width : Nat) (n : Int) : lastBytes width (n - 256 ^ width) = lastBytes width n := by
  have hcarry : ∀ k, lastBytes width (n + 256 ^ width * k) = lastBytes width n := by
    induction width generalizing n with
    | zero => exact fun _ => rfl
    | succ width ih =>
      intro k
      have hlast : (n + 256 ^ (width + 1) * k) % 256 = n % 256 := by
        rw [pow_succ', mul_assoc, Int.add_mul_emod_self_left]
      have hrest : (n + 256 ^ (width + 1) * k) / 256 = n / 256 + 256 ^ width * k := by
        rw [pow_succ', mul_assoc, Int.add_mul_ediv_left _ _ (by decide)]
      rw [lastBytes, hlast, hrest, ih, lastBytes]
  rw [← hcarry (-1), mul_neg_one, sub_eq_add_neg]

/-! ### Layouts -/

namespace Layout

/-- The numbers that a layout has room for. -/
def Holds (l : Layout) (n : Int) : Prop :=
  if l.signed then -2 ^ (8 * l.width - 1) ≤ n ∧ n < 2 ^ (8 * l.width - 1) else 0 ≤ n ∧ n < 2 ^ (8 * l.width)

/-- A number in bytes. -/
def encode (l : Layout) (n : Int) : Text :=
  if l.bigEndian then (lastBytes l.width n).reverse else lastBytes l.width n

/-- Bytes with the most significant one in front. -/
def fromTop (l : Layout) (bytes : Text) : Text := if l.bigEndian then bytes else bytes.reverse

/-- The number that bytes hold. -/
def decode (l : Layout) (bytes : Text) : Int :=
  let n := valueOf (l.fromTop bytes)
  if l.signed && Nat.pow 2 (8 * l.width - 1) ≤ n then n - Nat.pow 2 (8 * l.width) else n

theorem length_encode (l : Layout) (n : Int) : (l.encode n).length = l.width := by
  rw [encode]
  split
  · rw [List.length_reverse, length_lastBytes]
  · exact length_lastBytes _ _

theorem length_flatMap_encode (l : Layout) (ns : List Int) :
    (ns.flatMap l.encode).length = ns.length * l.width := by
  induction ns with
  | nil => rw [List.length_nil, Nat.zero_mul]; rfl
  | cons n ns ih =>
    rw [List.flatMap_cons, List.length_append, length_encode, ih, List.length_cons, Nat.succ_mul, Nat.add_comm]

theorem length_fromTop (l : Layout) (bytes : Text) : (l.fromTop bytes).length = bytes.length := by
  rw [fromTop]
  split
  · rfl
  · exact List.length_reverse

theorem fromTop_encode (l : Layout) (n : Int) : l.fromTop (l.encode n) = (lastBytes l.width n).reverse := by
  rw [fromTop, encode]
  split <;> rfl

theorem natPow_eq (width : Nat) : ((Nat.pow 2 (8 * width) : Nat) : Int) = 256 ^ width := by
  rw [Nat.pow_eq, Nat.cast_pow, pow_mul]
  norm_num

section

variable {l : Layout} (hwidth : 0 < l.width)
include hwidth

/-- The bound on signed numbers is half of the bound on others. -/
theorem two_mul_half : 2 * (2 : Int) ^ (8 * l.width - 1) = 256 ^ l.width := by
  rw [← pow_succ', ← natPow_eq, Nat.pow_eq, Nat.cast_pow, Nat.cast_two]
  congr 1
  omega

/-- The first bit of a signed number takes off the whole span. -/
theorem decode_eq (bytes : Text) : l.decode bytes
    = if l.signed ∧ 256 ^ l.width ≤ 2 * valueOf (l.fromTop bytes) then
        valueOf (l.fromTop bytes) - 256 ^ l.width else valueOf (l.fromTop bytes) := by
  have hhalf := two_mul_half hwidth
  have hcast : ((Nat.pow 2 (8 * l.width - 1) : Nat) : Int) = 2 ^ (8 * l.width - 1) := by
    rw [Nat.pow_eq, Nat.cast_pow, Nat.cast_two]
  simp only [decode, natPow_eq, hcast, Bool.and_eq_true, decide_eq_true_eq]
  refine if_congr (and_congr_right fun _ => ?_) rfl rfl
  omega

theorem holds_iff {n : Int} : l.Holds n ↔
    if l.signed then -256 ^ l.width ≤ 2 * n ∧ 2 * n < 256 ^ l.width else 0 ≤ n ∧ n < 256 ^ l.width := by
  have hhalf := two_mul_half hwidth
  have hspan : (2 : Int) ^ (8 * l.width) = 256 ^ l.width := by
    rw [pow_mul]
    norm_num
  rw [Holds, hspan]
  split
  · omega
  · rfl

theorem decode_encode {n : Int} (h : l.Holds n) : l.decode (l.encode n) = n := by
  rw [holds_iff hwidth] at h
  rw [decode_eq hwidth, fromTop_encode, valueOf_lastBytes]
  by_cases hsign : 0 ≤ n
  · have hlt : n < 256 ^ l.width := by split at h <;> omega
    rw [Int.emod_eq_of_lt hsign hlt]
    split at h
    · rw [if_neg (by omega)]
    · rw [if_neg (by tauto)]
  · -- a negative number is read as what is left of the span
    split at h
    · rename_i hsigned
      rw [← Int.add_emod_right, Int.emod_eq_of_lt (by omega) (by omega), if_pos ⟨hsigned, by omega⟩,
        add_sub_cancel_right]
    · exact absurd h.1 hsign

theorem holds_decode {bytes : Text} (h : bytes.length = l.width) : l.Holds (l.decode bytes) := by
  obtain ⟨hlow, hhigh⟩ := valueOf_bounds (l.fromTop bytes)
  rw [length_fromTop, h] at hhigh
  rw [holds_iff hwidth, decode_eq hwidth]
  split
  · rename_i hsigned
    by_cases hlarge : 256 ^ l.width ≤ 2 * valueOf (l.fromTop bytes)
    · rw [if_pos ⟨hsigned, hlarge⟩]
      omega
    · rw [if_neg fun hc => hlarge hc.2]
      omega
  · rename_i hsigned
    rw [if_neg fun hc => hsigned hc.1]
    exact ⟨hlow, hhigh⟩

theorem encode_decode {bytes : Text} (h : bytes.length = l.width) : l.encode (l.decode bytes) = bytes := by
  have hbytes : lastBytes l.width (l.decode bytes) = (l.fromTop bytes).reverse := by
    have hvalue := lastBytes_valueOf (l.fromTop bytes).reverse
    rw [List.reverse_reverse, List.length_reverse, length_fromTop, h] at hvalue
    rw [decode_eq hwidth]
    split
    · rw [lastBytes_sub, hvalue]
    · exact hvalue
  rw [encode, hbytes, fromTop]
  split <;> exact List.reverse_reverse _

theorem encode_injective {m n : Int} (hm : l.Holds m) (hn : l.Holds n) (h : l.encode m = l.encode n) : m = n := by
  rw [← decode_encode hwidth hm, h, decode_encode hwidth hn]

/-! ### Lists of numbers -/

theorem eq_nil_of_flatMap_encode {ns : List Int} (h : ns.flatMap l.encode = []) : ns = [] := by
  have hlength := l.length_flatMap_encode ns
  rw [h, List.length_nil, eq_comm, Nat.mul_eq_zero] at hlength
  exact List.length_eq_zero_iff.1 (hlength.resolve_right hwidth.ne')

theorem flatMap_encode_injective {ms ns : List Int} (hms : ∀ m ∈ ms, l.Holds m) (hns : ∀ n ∈ ns, l.Holds n)
    (h : ms.flatMap l.encode = ns.flatMap l.encode) : ms = ns := by
  induction ms generalizing ns with
  | nil => exact (eq_nil_of_flatMap_encode hwidth h.symm).symm
  | cons m ms ih =>
    cases ns with
    | nil => exact eq_nil_of_flatMap_encode hwidth h
    | cons n ns =>
      obtain ⟨hm, hms⟩ := List.forall_mem_cons.1 hms
      obtain ⟨hn, hns⟩ := List.forall_mem_cons.1 hns
      rw [List.flatMap_cons, List.flatMap_cons] at h
      obtain ⟨hfirst, hrest⟩ := List.append_inj h (by rw [length_encode, length_encode])
      rw [encode_injective hwidth hm hn hfirst, ih hms hns hrest]

theorem exists_flatMap_encode {count : Nat} {bytes : Text} (h : bytes.length = count * l.width) :
    ∃ ns : List Int, (∀ n ∈ ns, l.Holds n) ∧ ns.flatMap l.encode = bytes := by
  induction count generalizing bytes with
  | zero =>
    rw [Nat.zero_mul, List.length_eq_zero_iff] at h
    exact ⟨[], List.forall_mem_nil _, h.symm⟩
  | succ count ih =>
    rw [Nat.succ_mul] at h
    have hfirst : (bytes.take l.width).length = l.width := by
      rw [List.length_take]
      omega
    have hrest : (bytes.drop l.width).length = count * l.width := by
      rw [List.length_drop]
      omega
    obtain ⟨ns, hns, hbytes⟩ := ih hrest
    refine ⟨l.decode (bytes.take l.width) :: ns, List.forall_mem_cons.2 ⟨holds_decode hwidth hfirst, hns⟩, ?_⟩
    rw [List.flatMap_cons, encode_decode hwidth hfirst, hbytes, List.take_append_drop]

/-- Every text of fitting length is written by exactly one list of numbers. -/
theorem existsUnique_flatMap_encode {bytes : Text} (h : l.width ∣ bytes.length) :
    ∃! ns : List Int, (∀ n ∈ ns, l.Holds n) ∧ ns.flatMap l.encode = bytes := by
  obtain ⟨ns, hns, hbytes⟩ := exists_flatMap_encode hwidth (Nat.div_mul_cancel h).symm
  refine ⟨ns, ⟨hns, hbytes⟩, ?_⟩
  rintro ms ⟨hms, hms'⟩
  exact flatMap_encode_injective hwidth hms hns (hms'.trans hbytes.symm)

end

end Layout

/-! ### Reading numbers -/

theorem readNumber_eq (l : Layout) (data : Text) (offset : UInt64) :
    readNumber l data offset = l.decode ((List.range l.width).map fun k => byteAt data (offset + k.toUInt64)) := rfl

theorem map_byteAt {data bytes rest : Text} {offset : UInt64} (hdata : data.drop offset.toNat = bytes ++ rest)
    (h : offset.toNat + bytes.length < 0x10000000000000000) :
    (List.range bytes.length).map (fun k => byteAt data (offset + k.toUInt64)) = bytes := by
  refine List.ext_getElem (by simp) fun k _ hk => ?_
  have hbyte : data[offset.toNat + k]? = some bytes[k] := by
    rw [← List.getElem?_drop, hdata, List.getElem?_append_left hk, List.getElem?_eq_getElem hk]
  rw [List.getElem_map, List.getElem_range, byteAt, toNat_add_toUInt64 (by omega), hbyte]
  rfl

/-- Numbers are read back where they were written. -/
theorem readNumbers_encode {l : Layout} (hwidth : 0 < l.width) {data tail : Text} {ns : List Int}
    {offset : UInt64} (hns : ∀ n ∈ ns, l.Holds n) (hdata : data.drop offset.toNat = ns.flatMap l.encode ++ tail)
    (h : offset.toNat + ns.length * l.width < 0x10000000000000000) :
    (readNumbers l data ns.length offset).1 = ns := by
  induction ns generalizing offset with
  | nil => rfl
  | cons n ns ih =>
    obtain ⟨hn, hns⟩ := List.forall_mem_cons.1 hns
    rw [List.flatMap_cons, List.append_assoc] at hdata
    rw [List.length_cons, Nat.succ_mul] at h
    have hlength := l.length_encode n
    have hnext := toNat_add_toUInt64 (by omega : offset.toNat + l.width < _)
    have hbytes := map_byteAt hdata (by omega)
    have hrest : data.drop (offset + l.width.toUInt64).toNat = ns.flatMap l.encode ++ tail := by
      rw [hnext, ← List.drop_drop, hdata, ← hlength, List.drop_left]
    rw [hlength] at hbytes
    rw [List.length_cons, readNumbers, readNumber_eq, hbytes, Layout.decode_encode hwidth hn,
      ih hns hrest (by omega)]

/-- The letters that read numbers, with the layout of each. -/
def numberLetters : List (Char × Layout) :=
  [('C', ⟨1, false, false⟩), ('c', ⟨1, false, true⟩), ('n', ⟨2, true, false⟩), ('N', ⟨4, true, false⟩),
    ('v', ⟨2, false, false⟩), ('V', ⟨4, false, false⟩), ('s', ⟨2, false, true⟩), ('S', ⟨2, false, false⟩),
    ('l', ⟨4, false, true⟩), ('L', ⟨4, false, false⟩)]

/-- What is known of a letter that reads numbers. For a single byte the order does not matter. -/
structure IsNumberLetter (letter : UInt8) (l : Layout) : Prop where
  notText : ¬textLetters.contains letter
  notSkip : letter ≠ ch 'x'
  parse_all : parse [letter, ch '*'] = .ok [⟨letter, .all⟩]
  parse_all_text : parse (letter :: ascii "* a*") = .ok [⟨letter, .all⟩, ⟨ch 'a', .all⟩]
  width : (layout letter).width = l.width
  holds : (layout letter).Holds = l.Holds
  encode : (layout letter).encode = l.encode

theorem isNumberLetter_of_mem {letter : Char} {l : Layout} (h : (letter, l) ∈ numberLetters) :
    IsNumberLetter (ch letter) l := by
  have hchecked : numberLetters.all fun p => !textLetters.contains (ch p.1) && ch p.1 != ch 'x' &&
      decide (parse [ch p.1, ch '*'] = .ok [⟨ch p.1, .all⟩]) &&
      decide (parse (ch p.1 :: ascii "* a*") = .ok [⟨ch p.1, .all⟩, ⟨ch 'a', .all⟩]) := by decide +kernel
  have hletter := List.all_eq_true.1 hchecked _ h
  simp only [Bool.and_eq_true, Bool.not_eq_true', bne_iff_ne, decide_eq_true_eq] at hletter
  obtain ⟨⟨⟨htext, hskip⟩, hall⟩, hallText⟩ := hletter
  have hlayout : (layout (ch letter)).width = l.width ∧ (layout (ch letter)).Holds = l.Holds ∧
      (layout (ch letter)).encode = l.encode := by
    simp only [numberLetters, List.mem_cons, List.not_mem_nil, or_false, Prod.mk.injEq] at h
    rcases h with ⟨rfl, rfl⟩ | ⟨rfl, rfl⟩ | ⟨rfl, rfl⟩ | ⟨rfl, rfl⟩ | ⟨rfl, rfl⟩ | ⟨rfl, rfl⟩ | ⟨rfl, rfl⟩ |
      ⟨rfl, rfl⟩ | ⟨rfl, rfl⟩ | ⟨rfl, rfl⟩ <;> exact ⟨rfl, rfl, rfl⟩
  exact ⟨Bool.eq_false_iff.1 htext, hskip, hall, hallText, hlayout.1, hlayout.2.1, hlayout.2.2⟩

/-- Reading while data is left stops in front of a tail that is too short. -/
theorem read_all_numbers {letter : UInt8} {l : Layout} (hletter : IsNumberLetter letter l) {data tail : Text}
    {ns : List Int} (hns : ∀ n ∈ ns, l.Holds n) (hdata : data = ns.flatMap l.encode ++ tail)
    (htail : tail.length < l.width) (hsize : data.length + 4 < 0x10000000000000000) :
    (Item.read ⟨letter, .all⟩ data 0).1 = ns.map (fun n => .integer (Int64.ofInt n)) ∧
      data.drop (Item.read ⟨letter, .all⟩ data 0).2.toNat = tail := by
  have hwidth := (layout_width letter).1
  have hzero : (0 : UInt64).toNat = 0 := rfl
  rw [← hletter.holds] at hns
  rw [← hletter.encode] at hdata
  rw [← hletter.width] at htail
  have hlength : data.length = ns.length * (layout letter).width + tail.length := by
    rw [hdata, List.length_append, Layout.length_flatMap_encode]
  have hcount : Item.numbers ⟨letter, .all⟩ (data.length - (0 : UInt64).toNat) = ns.length := by
    change (data.length - 0) / (layout letter).width = ns.length
    rw [Nat.sub_zero, hlength, Nat.mul_comm, Nat.mul_add_div hwidth, Nat.div_eq_of_lt htail, Nat.add_zero]
  have hread : (readNumbers (layout letter) data ns.length 0).1 = ns :=
    readNumbers_encode hwidth hns hdata (by omega)
  have hend : (readNumbers (layout letter) data ns.length 0).2.toNat
      = (0 : UInt64).toNat + ns.length * (layout letter).width := toNat_readNumbers data (by omega)
  rw [Item.read_of_numbers hletter.notText hletter.notSkip (by omega), hcount]
  refine ⟨congrArg _ hread, ?_⟩
  rw [hend, hzero, Nat.zero_add, ← Layout.length_flatMap_encode, hdata, List.drop_left]

/-! ### Hexadecimal digits -/

/-- The digits of base sixteen. -/
def hexDigits : Text := ascii "0123456789abcdef"

theorem getElem?_hexDigits {k : Nat} (h : k < 16) : hexDigits[k]? = some (Byte.toHex.hexDigit k) := by
  interval_cases k <;> rfl

theorem digitValue?_hexDigit {k : Nat} (h : k < 16) : Byte.digitValue? 16 (Byte.toHex.hexDigit k) = some k := by
  have hchar : Byte.toHex.hexDigit k = ch k.digitChar := by interval_cases k <;> rfl
  rw [hchar, Byte.digitValue?_digitChar h le_rfl]

theorem halves_lt (b : UInt8) : b.toNat / 16 < 16 ∧ b.toNat % 16 < 16 := by
  have hb := b.toNat_lt
  omega

theorem getElem?_flatMap_pair {f : UInt8 → Text} {first second : UInt8 → UInt8}
    (hf : ∀ b, f b = [first b, second b]) {data : Text} {i : Nat} {b : UInt8} (h : data[i]? = some b) :
    (data.flatMap f)[2 * i]? = some (first b) ∧ (data.flatMap f)[2 * i + 1]? = some (second b) := by
  induction data generalizing i with
  | nil => cases h
  | cons c data ih =>
    rw [List.flatMap_cons, hf]
    cases i with
    | zero =>
      cases h
      exact ⟨rfl, rfl⟩
    | succ i => exact ih h

theorem length_flatMap_hexPair (swapped : Bool) (data : Text) :
    (data.flatMap (hexPair swapped)).length = 2 * data.length := by
  induction data with
  | nil => rfl
  | cons b data ih =>
    have hpair : (hexPair swapped b).length = 2 := by cases swapped <;> rfl
    rw [List.flatMap_cons, List.length_append, ih, hpair, List.length_cons]
    omega

/-- Digits of all data. -/
theorem readItems_hexDigits (swapped : Bool) (data : Text) :
    readItems data [⟨if swapped then ch 'h' else ch 'H', .all⟩] 0
      = [.string (data.flatMap (hexPair swapped))] := by
  have htake : (data.flatMap (hexPair swapped)).take (2 * data.length) = data.flatMap (hexPair swapped) := by
    rw [← length_flatMap_hexPair swapped, List.take_length]
  cases swapped <;> exact congrArg (fun t => [Value.string t]) htake

theorem valueIn_toHex (data : Text) : (Text.valueIn 16 (Text.toHex data) : Int) = valueOf data := by
  induction data using List.reverseRecOn with
  | nil => rfl
  | append_singleton data b ih =>
    obtain ⟨hhigh, hlow⟩ := halves_lt b
    have hsplit : Text.toHex (data ++ [b]) = Text.toHex data ++ [Byte.toHex.hexDigit (b.toNat / 16)] ++
        [Byte.toHex.hexDigit (b.toNat % 16)] := by
      simp [Text.toHex, Byte.toHex]
    rw [hsplit, Text.valueIn_concat, Text.valueIn_concat, digitValue?_hexDigit hhigh, digitValue?_hexDigit hlow,
      valueOf_concat, ← ih, Option.getD_some, Option.getD_some]
    omega

theorem isDigit_of_mem_toHex {data : Text} : ∀ c ∈ Text.toHex data, (Byte.digitValue? 16 c).isSome := by
  intro c hc
  obtain ⟨b, -, hb⟩ := List.mem_flatMap.1 hc
  obtain ⟨hhigh, hlow⟩ := halves_lt b
  simp only [Byte.toHex, List.mem_cons, List.not_mem_nil, or_false] at hb
  rcases hb with rfl | rfl
  · rw [digitValue?_hexDigit hhigh]
    rfl
  · rw [digitValue?_hexDigit hlow]
    rfl

end Template

namespace Value

open Template

/-- The digits of bytes are read as the number that the bytes hold. -/
theorem hex_toHex {bytes : Text} (h : bytes.length ≤ 4) :
    hex (.string (Text.toHex bytes)) = .ok (.integer (Int64.ofInt (valueOf bytes))) := by
  have hmarks : Text.hexMarks.all fun m => m.1.any fun b => (Byte.digitValue? 16 b).isNone := by decide
  obtain ⟨d, hd⟩ := hex_exact (v := .string (Text.toHex bytes)) rfl
  obtain ⟨hlow, hhigh⟩ := valueOf_bounds bytes
  have hbound : (256 : Int) ^ bytes.length ≤ 256 ^ 4 := pow_le_pow_right₀ (by decide) h
  rw [hd.integer, Text.markedValue_of_digits hmarks isDigit_of_mem_toHex, valueIn_toHex]
  exact Int64.toInt_ofInt_of_le (by omega) (by omega)

theorem hex_first_digits {data : Text} (h : 4 ≤ data.length) : ∃ (digits : Text) (n : Int64),
    readItems data [⟨ch 'H', .times 8⟩] 0 = [.string digits] ∧
      readItems data [⟨ch 'N', .times 1⟩] 0 = [.integer n] ∧ hex (.string digits) = .ok (.integer n) := by
  have hlimit : Count.limit (2 * data.length) (.times 8) = 8 := Nat.min_eq_left (by omega : 8 ≤ 2 * data.length)
  have hfirst : (data.take 4).length = 4 := by
    rw [List.length_take]
    omega
  have hdigits : (data.flatMap (hexPair false)).take 8 = Text.toHex (data.take 4) := by
    have hlength := length_flatMap_hexPair false (data.take 4)
    rw [hfirst] at hlength
    conv_lhs => rw [← List.take_append_drop 4 data]
    rw [List.flatMap_append, List.take_append_of_le_length hlength.ge, List.take_of_length_le hlength.le]
    rfl
  have hbytes : (List.range (data.take 4).length).map (fun k => byteAt data (0 + k.toUInt64)) = data.take 4 :=
    map_byteAt (List.take_append_drop 4 data).symm (by rw [hfirst]; decide)
  rw [hfirst] at hbytes
  have hnumber : readNumber ⟨4, true, false⟩ data 0 = valueOf (data.take 4) := by
    rw [readNumber_eq, hbytes]
    rfl
  refine ⟨_, _, ?_, ?_, hex_toHex hfirst.le⟩
  · change [Value.string ((data.flatMap (hexPair false)).take (Count.limit (2 * data.length) (.times 8)))] = _
    rw [hlimit, hdigits]
  · change [Value.integer (Int64.ofInt (readNumber ⟨4, true, false⟩ data 0))] = _
    rw [hnumber]

/-- Unpacked numbers are those that were written. For a letter that reads numbers and data of any kind: numbers
that fit are read back from their bytes while data is left, and a tail that is too short stays for the next item;
data of fitting length is written by exactly one list of numbers. The hexadecimal digits of the data are two for
each byte, the high half first, or the low half first; and the first eight are read as the first number of four
bytes. Positions in the data are 64-bit words, which bounds its size. -/
theorem unpack_numbers_exact (letter : Char) (l : Layout) (hletter : (letter, l) ∈ numberLetters) (d : Value)
    (data : Text) (hd : d.toText = .ok data) :
    (∀ (ns : List Int) (tail : Text), (∀ n ∈ ns, l.Holds n) → data = ns.flatMap l.encode ++ tail →
      tail.length < l.width → data.length + 4 < 0x10000000000000000 →
      unpack (.string [ch letter, ch '*']) d = .ok (.list (ns.map fun n => .integer (Int64.ofInt n))) ∧
      unpack (.string (ch letter :: ascii "* a*")) d
        = .ok (.list (ns.map (fun n => .integer (Int64.ofInt n)) ++ [.string tail]))) ∧
    (l.width ∣ data.length → ∃! ns : List Int, (∀ n ∈ ns, l.Holds n) ∧ ns.flatMap l.encode = data) ∧
    (∃ high low : Text, unpack (.string (ascii "H*")) d = .ok (.list [.string high]) ∧
      unpack (.string (ascii "h*")) d = .ok (.list [.string low]) ∧
      high.length = 2 * data.length ∧ low.length = 2 * data.length ∧
      ∀ i b, data[i]? = some b →
        high[2 * i]? = hexDigits[b.toNat / 16]? ∧ high[2 * i + 1]? = hexDigits[b.toNat % 16]? ∧
        low[2 * i]? = hexDigits[b.toNat % 16]? ∧ low[2 * i + 1]? = hexDigits[b.toNat / 16]?) ∧
    (4 ≤ data.length → ∃ (digits : Text) (n : Int64), unpack (.string (ascii "H8")) d = .ok (.list [.string digits]) ∧
      unpack (.string (ascii "N")) d = .ok (.list [.integer n]) ∧ hex (.string digits) = .ok (.integer n)) := by
  have hknown := isNumberLetter_of_mem hletter
  refine ⟨?_, ?_, ?_, ?_⟩
  · intro ns tail hns hdata htail hsize
    obtain ⟨hvalues, hrest⟩ := read_all_numbers hknown hns hdata htail hsize
    have hnumbers : readItems data [⟨ch letter, .all⟩] 0 = ns.map fun n => .integer (Int64.ofInt n) := by
      rw [readItems, readItems, List.append_nil, hvalues]
    have htext : readItems data [⟨ch letter, .all⟩, ⟨ch 'a', .all⟩] 0
        = ns.map (fun n => .integer (Int64.ofInt n)) ++ [.string tail] := by
      rw [readItems, hvalues, ← hrest]
      exact congrArg (fun t => _ ++ [Value.string t]) (List.take_length)
    exact ⟨unpack_eq_ok_iff.2 ⟨_, data, hknown.parse_all, hd, hnumbers ▸ rfl⟩,
      unpack_eq_ok_iff.2 ⟨_, data, hknown.parse_all_text, hd, htext ▸ rfl⟩⟩
  · have hwidth := (layout_width (ch letter)).1
    rw [hknown.width] at hwidth
    exact Layout.existsUnique_flatMap_encode hwidth
  · have hhigh : Template.parse (ascii "H*") = .ok [⟨ch 'H', .all⟩] := by decide +kernel
    have hlow : Template.parse (ascii "h*") = .ok [⟨ch 'h', .all⟩] := by decide +kernel
    refine ⟨data.flatMap (hexPair false), data.flatMap (hexPair true),
      unpack_eq_ok_iff.2 ⟨_, data, hhigh, hd, congrArg list (readItems_hexDigits false data).symm⟩,
      unpack_eq_ok_iff.2 ⟨_, data, hlow, hd, congrArg list (readItems_hexDigits true data).symm⟩,
      length_flatMap_hexPair false data, length_flatMap_hexPair true data, fun i b hb => ?_⟩
    obtain ⟨hfirst, hsecond⟩ := halves_lt b
    rw [getElem?_hexDigits hfirst, getElem?_hexDigits hsecond]
    have hpair := getElem?_flatMap_pair (f := hexPair false) (fun _ => rfl) hb
    have hswapped := getElem?_flatMap_pair (f := hexPair true) (fun _ => rfl) hb
    exact ⟨hpair.1, hpair.2, hswapped.1, hswapped.2⟩
  · intro hlength
    have hdigits : Template.parse (ascii "H8") = .ok [⟨ch 'H', .times 8⟩] := by decide +kernel
    have hnumber : Template.parse (ascii "N") = .ok [⟨ch 'N', .times 1⟩] := by decide +kernel
    obtain ⟨digits, n, hread, hread', hhex⟩ := hex_first_digits hlength
    exact ⟨digits, n, unpack_eq_ok_iff.2 ⟨_, data, hdigits, hd, congrArg list hread.symm⟩,
      unpack_eq_ok_iff.2 ⟨_, data, hnumber, hd, congrArg list hread'.symm⟩, hhex⟩

/-- A negative number and a positive one of two bytes each, with a byte behind them. -/
theorem unpack_numbers_exact_signed :
    unpack (.string [ch 's', ch '*']) (.bytes [254, 255, 44, 1, 7])
      = .ok (.list ([-2, 300].map fun n => .integer (Int64.ofInt n))) ∧
    ∃ (digits : Text) (n : Int64), unpack (.string (ascii "H8")) (.bytes [254, 255, 44, 1, 7])
        = .ok (.list [.string digits]) ∧
      unpack (.string (ascii "N")) (.bytes [254, 255, 44, 1, 7]) = .ok (.list [.integer n]) ∧
      hex (.string digits) = .ok (.integer n) := by
  obtain ⟨hnumbers, -, -, hhex⟩ := unpack_numbers_exact 's' ⟨2, false, true⟩ (by decide)
    (.bytes [254, 255, 44, 1, 7]) [254, 255, 44, 1, 7] rfl
  refine ⟨(hnumbers [-2, 300] [7] ?_ (by decide) (by decide) (by decide)).1, hhex (by decide)⟩
  intro n hn
  simp only [List.mem_cons, List.not_mem_nil, or_false] at hn
  rcases hn with rfl | rfl <;> exact ⟨by decide, by decide⟩

end Value

end TagFormula

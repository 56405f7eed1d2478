import TagFormula.Value.View

/-!
Unpacking binary data by a template: letters with repeat counts read numbers, hexadecimal digits and
text from left to right. Counts and the position are 64-bit words; bytes past the end read as zero.
-/

namespace TagFormula

namespace Template

/-- How often a template item applies. -/
inductive Count where
  | times (n : Int64)
  /-- As long as data is left. -/
  | all
  deriving DecidableEq, Repr

/-- The count that digits stand for. Large numbers wrap around as signed 64-bit words, among which
minus one stands for `all`. -/
def Count.ofDigits (digits : Text) : Count :=
  let n := Int64.ofNat (Text.natValue digits)
  if n = -1 then .all else .times n

structure Item where
  letter : UInt8
  count : Count
  deriving DecidableEq, Repr

/-- The letters a template may hold. -/
def letters : Text := ascii "CcnNvVsSlLHhaAx"

/-- The count behind a letter, one if none is written, and the rest of the template. -/
def readCount (t : Text) : Count × Text :=
  match t with
  | b :: rest =>
    if b == ch '*' then (.all, rest)
    else if Byte.isDigit b then
      (.ofDigits (t.takeWhile Byte.isDigit), t.dropWhile Byte.isDigit)
    else (.times 1, t)
  | [] => (.times 1, [])

theorem readCount_length (t : Text) : (readCount t).2.length ≤ t.length := by
  unfold readCount
  split
  · split
    · simp
    · split
      · exact (List.dropWhile_suffix _).length_le
      · simp
  · simp

/-- The items of a template; blanks between them are skipped. -/
def parse : Text → Except Fault (List Item)
  | [] => .ok []
  | b :: rest =>
    if Byte.isSpace b then parse rest
    else if letters.contains b then
      return ⟨b, (readCount rest).1⟩ :: (← parse (readCount rest).2)
    else .error (.unknownTemplateLetter b)
termination_by t => t.length
decreasing_by
  · exact Nat.lt_succ_self _
  · exact Nat.lt_succ_of_le (readCount_length rest)

/-! ### Numbers -/

/-- How a number letter is laid out in bytes. -/
structure Layout where
  width : Nat
  bigEndian : Bool
  signed : Bool
  deriving DecidableEq, Repr

def layout (letter : UInt8) : Layout :=
  if letter == ch 'C' then ⟨1, true, false⟩
  else if letter == ch 'c' then ⟨1, true, true⟩
  else if letter == ch 'n' then ⟨2, true, false⟩
  else if letter == ch 'N' then ⟨4, true, false⟩
  else if letter == ch 'v' || letter == ch 'S' then ⟨2, false, false⟩
  else if letter == ch 's' then ⟨2, false, true⟩
  else if letter == ch 'V' || letter == ch 'L' then ⟨4, false, false⟩
  else ⟨4, false, true⟩

/-- The byte at a position, zero past the end. -/
def byteAt (data : Text) (at' : UInt64) : UInt8 := (data[at'.toNat]?).getD 0

/-- The number at a position. -/
def readNumber (l : Layout) (data : Text) (offset : UInt64) : Int :=
  let inOrder := (List.range l.width).map fun k => byteAt data (offset + k.toUInt64)
  let bytes := if l.bigEndian then inOrder else inOrder.reverse
  let n : Int := bytes.foldl (fun acc b => 256 * acc + b.toNat) 0
  if l.signed && Nat.pow 2 (8 * l.width - 1) ≤ n then n - Nat.pow 2 (8 * l.width) else n

/-- A fixed number of numbers, and the position behind them. -/
def readNumbers (l : Layout) (data : Text) : Nat → UInt64 → List Int × UInt64
  | 0, offset => ([], offset)
  | n + 1, offset =>
    let r := readNumbers l data n (offset + l.width.toUInt64)
    (readNumber l data offset :: r.1, r.2)

/-- As many whole numbers as the data holds. A position just below the end of the 64-bit range wraps
to the start at most once, so `data.length + 2` steps are enough. -/
def readAllNumbers (l : Layout) (data : Text) (offset : UInt64) : List Int × UInt64 :=
  go (data.length + 2) offset
where
  go : Nat → UInt64 → List Int × UInt64
    | 0, offset => ([], offset)
    | fuel + 1, offset =>
      if (offset + l.width.toUInt64).toNat ≤ data.length then
        let r := go fuel (offset + l.width.toUInt64)
        (readNumber l data offset :: r.1, r.2)
      else ([], offset)

/-! ### Items -/

/-- The hexadecimal digits of a byte, low half first if `swapped`. -/
def hexPair (swapped : Bool) (b : UInt8) : Text :=
  if swapped then (Byte.toHex b).reverse else Byte.toHex b

/-- Drops spaces and zero bytes at the end. -/
def dropPadding (t : Text) : Text := (t.reverse.dropWhile fun b => b == ch ' ' || b == 0).reverse

/-- How many of the available units a count takes; a negative count takes them all. -/
def Count.limit (available : Nat) : Count → Nat
  | .times n => min n.toUInt64.toNat available
  | .all => available

/-- The values an item reads at a position, and the position behind it. -/
def Item.read (item : Item) (data : Text) (offset : UInt64) : List Value × UInt64 :=
  let left := data.drop offset.toNat
  if item.letter == ch 'H' || item.letter == ch 'h' then
    let digits := item.count.limit (2 * left.length)
    let text := (left.flatMap (hexPair (item.letter == ch 'h'))).take digits
    ([.string text], offset + ((digits + 1) / 2).toUInt64)
  else if item.letter == ch 'a' || item.letter == ch 'A' then
    let size := item.count.limit left.length
    let text := left.take size
    ([.string (if item.letter == ch 'A' then dropPadding text else text)], offset + size.toUInt64)
  else if item.letter == ch 'x' then
    match item.count with
    | .times n => ([], offset + n.toUInt64)
    | .all => ([], offset)
  else
    let l := layout item.letter
    let r := match item.count with
      | .times n => readNumbers l data n.toNatClampNeg offset
      | .all => readAllNumbers l data offset
    (r.1.map fun n => .integer (Int64.ofInt n), r.2)

/-- The values that the items read one after the other. -/
def readItems (data : Text) : List Item → UInt64 → List Value
  | [], _ => []
  | item :: rest, offset =>
    let r := item.read data offset
    r.1 ++ readItems data rest r.2

end Template

/-- Unpacks data by a template into a list. -/
def Value.unpack (template data : Value) : Except Fault Value := do
  let items ← Template.parse (← template.toText)
  return .list (Template.readItems (← data.toText) items 0)

end TagFormula

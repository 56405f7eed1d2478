import TagFormula.Value.View

/-!
Formatted text. A format is first cut into pieces, literal bytes and directives; the pieces are then
written from left to right, each directive taking its arguments from the front of the list.
-/

namespace TagFormula

namespace Format

/-- The flags of a directive. -/
structure Flags where
  left : Bool := false
  plus : Bool := false
  space : Bool := false
  zero : Bool := false
  alternate : Bool := false
  deriving DecidableEq, Repr

/-- A width or precision: written out, or taken from the arguments. -/
inductive Size where
  | number (n : Nat)
  | star
  deriving DecidableEq, Repr

/-- A directive up to its conversion letter. -/
structure Spec where
  flags : Flags
  width : Option Size
  precision : Option Size
  deriving DecidableEq, Repr

/-- A piece of a format. -/
inductive Piece where
  | byte (b : UInt8)
  | directive (spec : Spec) (letter : UInt8)
  /-- A directive that the end of the format cuts short, with its text. -/
  | cutShort (spec : Spec) (text : Text)
  deriving DecidableEq, Repr

/-! ### Reading a format -/

def isFlag (b : UInt8) : Bool := (ascii "-+ 0#").contains b

def isLengthMark (b : UInt8) : Bool := (ascii "hlqLV").contains b

def Flags.ofText (t : Text) : Flags where
  left := t.contains (ch '-')
  plus := t.contains (ch '+')
  space := t.contains (ch ' ')
  zero := t.contains (ch '0')
  alternate := t.contains (ch '#')

/-- A size at the start of a text. -/
def readSize (t : Text) : Option Size × Text :=
  if t.head? = some (ch '*') then (some .star, t.drop 1)
  else
    let digits := t.takeWhile Byte.isDigit
    (if digits.isEmpty then none else some (.number (Text.natValue digits)), t.dropWhile Byte.isDigit)

/-- A point and a size; the size after a point is zero if it is not written. -/
def readPrecision (t : Text) : Option Size × Text :=
  if t.head? = some (ch '.') then
    let r := readSize (t.drop 1)
    (some (r.1.getD (.number 0)), r.2)
  else (none, t)

/-- Flags, width, precision and length marks; the marks mean nothing. -/
def readSpec (t : Text) : Spec × Text :=
  let width := readSize (t.dropWhile isFlag)
  let precision := readPrecision width.2
  (⟨.ofText (t.takeWhile isFlag), width.1, precision.1⟩, precision.2.dropWhile isLengthMark)

theorem length_dropWhile_le (p : UInt8 → Bool) (t : Text) : (t.dropWhile p).length ≤ t.length :=
  (List.dropWhile_suffix p).length_le

theorem length_readSize_le (t : Text) : (readSize t).2.length ≤ t.length := by
  unfold readSize
  split
  · simp
  · exact length_dropWhile_le _ t

theorem length_readPrecision_le (t : Text) : (readPrecision t).2.length ≤ t.length := by
  unfold readPrecision
  split
  · exact Nat.le_trans (length_readSize_le _) (by simp)
  · exact Nat.le_refl _

theorem length_readSpec_le (t : Text) : (readSpec t).2.length ≤ t.length := by
  have hflags := length_dropWhile_le isFlag t
  have hwidth := length_readSize_le (t.dropWhile isFlag)
  have hprecision := length_readPrecision_le (readSize (t.dropWhile isFlag)).2
  have hmarks := length_dropWhile_le isLengthMark
    (readPrecision (readSize (t.dropWhile isFlag)).2).2
  simp only [readSpec]
  omega

/-- Cuts a format into its pieces. A doubled percent sign stands for one. -/
def parse : Text → List Piece
  | [] => []
  | b :: rest =>
    if b != ch '%' then .byte b :: parse rest
    else if rest.head? = some (ch '%') then .byte b :: parse (rest.drop 1)
    else
      match _h : (readSpec rest).2 with
      | [] => [.cutShort (readSpec rest).1 (b :: rest)]
      | letter :: after =>
        .directive (readSpec rest).1 letter :: parse after
termination_by t => t.length
decreasing_by
  · exact Nat.lt_succ_self _
  · simp only [List.length_cons, List.length_drop]
    omega
  · have := length_readSpec_le rest
    rw [_h, List.length_cons] at this
    exact Nat.lt_succ_of_lt this

/-! ### Arguments -/

/-- The next argument; behind the last one all are empty. -/
def next : List Value → Value × List Value
  | [] => (.empty, [])
  | v :: rest => (v, rest)

/-- The integer view of an argument. -/
def integerOf (v : Value) : Except Fault Int64 := return (← v.toNumber).toInt64

/-- The value of a size and the arguments left. -/
def Size.resolve (args : List Value) : Size → Except Fault (Int × List Value)
  | .number n => .ok (n, args)
  | .star => return ((← integerOf (next args).1).toInt, (next args).2)

def resolveOption (args : List Value) : Option Size → Except Fault (Option Int × List Value)
  | none => .ok (none, args)
  | some size => do
    let (n, args) ← size.resolve args
    return (some n, args)

/-! ### Writing a directive -/

/-- The layout of one field, with all sizes known. -/
structure Field where
  flags : Flags
  width : Nat
  precision : Option Int
  deriving DecidableEq, Repr

/-- The field of a directive. A negative width aligns to the left. A width of zero counts as the flag
`0`. -/
def Spec.field (spec : Spec) (width precision : Option Int) : Field :=
  let flags := { spec.flags with
    left := spec.flags.left || (width.any (· < 0))
    zero := spec.flags.zero || width == some 0 }
  ⟨flags, (width.getD 0).natAbs, precision⟩

/-- The field of a directive, with its sizes from the arguments, and the arguments left. -/
def Spec.resolve (spec : Spec) (args : List Value) : Except Fault (Field × List Value) := do
  let (width, args) ← resolveOption args spec.width
  let (precision, args) ← resolveOption args spec.precision
  return (spec.field width precision, args)

/-- Fills a field to its width, with zeros behind the sign where that is asked for and allowed. -/
def Field.pad (f : Field) (zerosAllowed : Bool) (sign body : Text) : Text :=
  let missing := f.width - (sign.length + body.length)
  if f.flags.left then sign ++ body ++ List.replicate missing (ch ' ')
  else if f.flags.zero && zerosAllowed then sign ++ List.replicate missing (ch '0') ++ body
  else List.replicate missing (ch ' ') ++ sign ++ body

def Field.sign (f : Field) (negative : Bool) : Text :=
  if negative then [ch '-']
  else if f.flags.plus then [ch '+']
  else if f.flags.space then [ch ' ']
  else []

/-- The digits of a number, at least as many as the precision asks for; none for a zero with
precision zero. -/
def Field.digits (f : Field) (base n : Nat) : Text :=
  let digits := if n = 0 ∧ f.precision = some 0 then [] else Text.ofNatBase base n
  List.replicate ((f.precision.getD 1).toNat - digits.length) (ch '0') ++ digits

def Field.signedText (f : Field) (i : Int64) : Text :=
  f.pad f.precision.isNone (f.sign (i < 0)) (f.digits 10 i.toInt.natAbs)

/-- Unsigned text. The alternate form has a leading zero in octal and a marked base in
hexadecimal. -/
def Field.unsignedText (f : Field) (letter : UInt8) (w : UInt64) : Text :=
  let base := if letter == ch 'u' then 10 else if letter == ch 'o' then 8 else 16
  let digits := f.digits base w.toNat
  let digits :=
    if base == 8 && f.flags.alternate && digits.head? != some (ch '0') then ch '0' :: digits
    else digits
  let mark := if base == 16 && f.flags.alternate && w != 0 then ascii "0x" else []
  let text := f.pad f.precision.isNone mark digits
  if letter == ch 'X' then Text.toUpper text else text

/-- Text of a real; infinities and NaN are never filled with zeros. -/
def Field.realText (f : Field) (letter : UInt8) (d : Double) : Text :=
  let lower := Byte.toLower letter
  let style : Double.Style :=
    if lower == ch 'e' then .scientific else if lower == ch 'f' then .fixed else .general
  let body := d.magnitudeText style f.flags.alternate ((f.precision.getD 6).toNat)
  let text := f.pad d.isFinite (f.sign d.isNegative) body
  if Byte.isUpper letter then Text.toUpper text else text

/-- Text up to its first zero byte, cut to the precision. -/
def Field.plainText (f : Field) (t : Text) : Text :=
  let text := Text.upToZero t
  f.pad false [] (match f.precision with | some p => text.take p.toNat | none => text)

/-- The largest width and precision, and the length of the longest field; a field past it is empty. -/
def maxSize : Nat := 0x7fffffff

/-- A field whose precision is negative is not understood: it is written back, its flags and width
in normal order, with precision zero and the unread rest. -/
def Field.writtenBack (f : Field) (p : Int) (tail : Text) : Text :=
  let mark (shown : Bool) (c : Char) : Text := if shown then [ch c] else []
  ch '%' :: mark f.flags.alternate '#' ++ mark f.flags.plus '+'
    ++ mark (f.flags.space && !f.flags.plus) ' ' ++ mark f.flags.left '-'
    ++ mark (f.flags.zero && !f.flags.left) '0'
    ++ (if f.width = 0 then [] else Text.ofNat f.width)
    ++ ascii ".0-" ++ Text.ofNat p.natAbs ++ tail

/-- The text of a field, written by `render`; `none` if its sizes or its length rule that out. -/
def Field.text? (f : Field) (tail : Text) (render : Field → Text) : Option Text :=
  if maxSize < f.width then none
  else
    match f.precision with
    | none => within (render f)
    | some p => if p < 0 then within (f.writtenBack p tail) else if maxSize < p then none else within (render f)
where
  within (text : Text) : Option Text := if maxSize < text.length then none else some text

/-- Writes a text into a buffer, as much as fits in front of a zero byte. Gives the buffer and the length of the
whole text, or no length if there is no text. -/
def writeInto (buffer : Text) : Option Text → Text × Option Nat
  | none => (buffer, none)
  | some text =>
    let start := text.take (buffer.length - 1)
    (start ++ 0 :: buffer.drop (start.length + 1), some text.length)

/-- The size of the first buffer that is tried. -/
def firstSize : Nat := 128

/-- Writes a text into a small buffer, and if that is too short, once more into one of the size it needs. -/
def buffered (text? : Option Text) : Text :=
  let (buffer, length?) := writeInto (List.replicate firstSize 0) text?
  match length? with
  | none => []
  | some length =>
    if length < firstSize then buffer.take length
    else (writeInto (List.replicate (length + 1) 0) text?).1.take length

theorem take_writeInto {buffer text : Text} (h : text.length < buffer.length) :
    (writeInto buffer (some text)).1.take text.length = text := by
  have hfits : text.take (buffer.length - 1) = text := List.take_of_length_le (Nat.le_sub_one_of_lt h)
  simp only [writeInto, hfits, List.take_left']

/-- Either buffer holds the whole text. -/
theorem buffered_some (text : Text) : buffered (some text) = text := by
  have hlength : (writeInto (List.replicate firstSize 0) (some text)).2 = some text.length := rfl
  simp only [buffered, hlength]
  split
  · rename_i hshort
    exact take_writeInto (by rwa [List.length_replicate])
  · exact take_writeInto (by rw [List.length_replicate]; exact Nat.lt_succ_self _)

/-- Writes a field by `render`, unless its sizes rule that out. -/
def Field.guarded (f : Field) (tail : Text) (render : Field → Text) : Text := buffered (f.text? tail render)

theorem Field.guarded_eq (f : Field) (tail : Text) (render : Field → Text) :
    f.guarded tail render = (f.text? tail render).getD [] := by
  rw [guarded]
  cases f.text? tail render with
  | none => rfl
  | some text => exact buffered_some text

/-- Without width and precision only the length of the text matters. -/
theorem Field.guarded_of_plain {f : Field} (hwidth : f.width = 0) (hprecision : f.precision = none)
    (tail : Text) (render : Field → Text) :
    f.guarded tail render = if maxSize < (render f).length then [] else render f := by
  rw [guarded_eq, text?, hwidth, if_neg (Nat.not_lt_zero _), hprecision]
  simp only [text?.within]
  split <;> rfl

/-- Writes one argument by a conversion letter. -/
def Field.write (f : Field) (letter : UInt8) (v : Value) : Except Fault Text :=
  let isOne (letters : String) : Bool := (ascii letters).contains letter
  if isOne "di" then do
    let i ← integerOf v
    return f.guarded (ascii "lld") (·.signedText i)
  else if isOne "uoxX" then do
    let i ← integerOf v
    return f.guarded (ascii "ll" ++ [letter]) (·.unsignedText letter i.toUInt64)
  else if isOne "eEfFgG" then do
    let d := (← v.toNumber).toDouble
    return f.guarded [letter] (·.realText letter d)
  else if letter == ch 'c' then do
    let i ← integerOf v
    return f.guarded (ascii "s") (·.plainText [i.toUInt64.toUInt8])
  else if letter == ch 's' then do
    let t ← v.toText
    return f.guarded (ascii "s") (·.plainText t)
  else .error (.unknownConversion letter)

/-- The text of a piece and the arguments left. -/
def Piece.write (args : List Value) : Piece → Except Fault (Text × List Value)
  | .byte b => .ok ([b], args)
  | .directive spec letter => do
    let (field, args) ← spec.resolve args
    return (← field.write letter (next args).1, (next args).2)
  | .cutShort spec text => do
    let (_, args) ← spec.resolve args
    return (text, args)

def writeAll : List Piece → List Value → Except Fault Text
  | [], _ => .ok []
  | piece :: rest, args => do
    let (text, args) ← piece.write args
    return text ++ (← writeAll rest args)

end Format

/-- Formats the flattened arguments by the first one. -/
def Value.format : List Value → Except Fault Value
  | [] => .error .missingFormat
  | template :: rest => do
    let text ← template.toText
    return .string (← Format.writeAll (Format.parse text) (Value.flattenAll rest))

end TagFormula

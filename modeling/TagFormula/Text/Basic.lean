/-!
Text as a sequence of bytes. Every string the library reads or writes is a list of bytes in which
zero and values past 127 are ordinary members; letters, digits and blanks are the ASCII ones.
-/

namespace TagFormula

/-- A string of bytes. -/
abbrev Text := List UInt8

/-- The byte of an ASCII character. -/
@[inline] def ch (c : Char) : UInt8 := c.toNat.toUInt8

/-- The bytes of an ASCII string. -/
def ascii (s : String) : Text := s.toList.map ch

namespace Byte

/-- Blanks: space, tab, newline, vertical tab, form feed and carriage return. -/
def isSpace (b : UInt8) : Bool := b == 32 || (9 ≤ b && b ≤ 13)

def isDigit (b : UInt8) : Bool := 48 ≤ b && b ≤ 57

def isUpper (b : UInt8) : Bool := 65 ≤ b && b ≤ 90

def isLower (b : UInt8) : Bool := 97 ≤ b && b ≤ 122

def isAlpha (b : UInt8) : Bool := isUpper b || isLower b

def isAlnum (b : UInt8) : Bool := isAlpha b || isDigit b

/-- Letters, digits and the underscore. -/
def isWord (b : UInt8) : Bool := isAlnum b || b == ch '_'

def toLower (b : UInt8) : UInt8 := if isUpper b then b + 32 else b

def toUpper (b : UInt8) : UInt8 := if isLower b then b - 32 else b

/-- The value of a digit in a base up to sixteen, letters in either case. -/
def digitValue? (base : Nat) (b : UInt8) : Option Nat :=
  let v :=
    if isDigit b then b.toNat - 48
    else if 97 ≤ b && b ≤ 102 then b.toNat - 87
    else if 65 ≤ b && b ≤ 70 then b.toNat - 55
    else base
  if v < base then some v else none

def isHexDigit (b : UInt8) : Bool := (digitValue? 16 b).isSome

/-- The two lower-case hexadecimal digits of a byte, high half first. -/
def toHex (b : UInt8) : Text :=
  [hexDigit (b.toNat / 16), hexDigit (b.toNat % 16)]
where
  hexDigit (n : Nat) : UInt8 := if n < 10 then (48 + n).toUInt8 else (87 + n).toUInt8

end Byte

namespace Text

/-- The digits of a number in a base from two to sixteen, lower case, most significant first. -/
def ofNatBase (base n : Nat) : Text := (Nat.toDigits base n).map ch

/-- The decimal digits of a natural number. -/
def ofNat (n : Nat) : Text := ofNatBase 10 n

/-- Decimal text of an integer, with `-` in front of a negative one. -/
def ofInt (i : Int) : Text := if i < 0 then ch '-' :: ofNat i.natAbs else ofNat i.natAbs

def toLower (t : Text) : Text := t.map Byte.toLower

def toUpper (t : Text) : Text := t.map Byte.toUpper

def dropSpaces (t : Text) : Text := t.dropWhile Byte.isSpace

/-- Removes the blanks at both ends. -/
def trim (t : Text) : Text := ((dropSpaces t).reverse.dropWhile Byte.isSpace).reverse

/-- The part before the first zero byte, which is all that a zero-terminated reader sees. -/
def upToZero (t : Text) : Text := t.takeWhile (· != 0)

/-- Replaces each run of blanks by one space and drops the blanks at the ends. -/
def oneLine (t : Text) : Text := go false false t
where
  /-- `started` says that something was written, `pending` that a blank waits to be written. -/
  go (started pending : Bool) : Text → Text
    | [] => []
    | b :: rest =>
      if Byte.isSpace b then go started started rest
      else if pending then ch ' ' :: b :: go true false rest
      else b :: go true false rest

/-- Concatenates texts with a separator between neighbours. -/
def joinWith (sep : Text) (ts : List Text) : Text := (ts.intersperse sep).flatten

/-- The value of a run of digits in a base; `none` if a byte is no digit of it. -/
def natValue? (base : Nat) (t : Text) : Option Nat :=
  t.foldlM (fun acc b => (Byte.digitValue? base b).map (base * acc + ·)) 0

/-- The value of decimal digits; bytes that are no digits count as zero. -/
def natValue (t : Text) : Nat := t.foldl (fun acc b => 10 * acc + (b.toNat - 48)) 0

/-- Lower-case hexadecimal text of a byte string. -/
def toHex (t : Text) : Text := t.flatMap Byte.toHex

/-- The lines of a text, without their newlines; a final newline ends the last line. -/
def lines (t : Text) : List Text := go [] t
where
  go (current : Text) : Text → List Text
    | [] => if current.isEmpty then [] else [current.reverse]
    | b :: rest => if b == ch '\n' then current.reverse :: go [] rest else go (b :: current) rest

/-- A text from lines, each ended by a newline. -/
def unlines (ts : List Text) : Text := ts.flatMap (· ++ [ch '\n'])

end Text
end TagFormula

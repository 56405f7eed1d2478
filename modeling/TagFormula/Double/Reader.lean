import TagFormula.Double.Basic

/-!
Reading a number from text: decimal and hexadecimal fractions with an exponent, infinity and NaN.
The value is the word nearest to the number written.
-/

namespace TagFormula.Double

/-- `m · 10 ^ e`, rounded. Exponents far outside the range are settled without computing the power:
a value from `10 ^ 310` on is infinite and one below `10 ^ -330` is zero. -/
def ofDecimal (negative : Bool) (m : Nat) (e : Int) : Double :=
  let top := ((Text.ofNat m).length : Int) + e
  if m = 0 then ofParts negative 0
  else if 310 < top then infinity negative
  else if top < -330 then ofParts negative 0
  else ofFraction negative (m * Nat.pow 10 e.toNat) (Nat.pow 10 (-e).toNat)

/-- `m · 2 ^ e`, rounded, with the same treatment of exponents far outside the range. -/
def ofBinary (negative : Bool) (m : Nat) (e : Int) : Double :=
  let top := (m.log2 : Int) + e
  if m = 0 then ofParts negative 0
  else if 1100 < top then infinity negative
  else if top < -1200 then ofParts negative 0
  else ofFraction negative (m * Nat.pow 2 e.toNat) (Nat.pow 2 (-e).toNat)

/-- A sign in front, if there is one. -/
def readSign : Text → Bool × Text
  | b :: rest =>
    if b == ch '-' then (true, rest) else if b == ch '+' then (false, rest) else (false, b :: rest)
  | [] => (false, [])

/-- Digits, a point and more digits, in a base; at least one digit must stand on either side. Gives
the digits without the point, the number of them after it, and the rest. -/
def readDigits? (isDigit : UInt8 → Bool) (t : Text) : Option (Text × Nat × Text) :=
  let whole := t.takeWhile isDigit
  match t.dropWhile isDigit with
  | b :: rest =>
    if b == ch '.' then
      let part := rest.takeWhile isDigit
      if whole.isEmpty && part.isEmpty then none
      else some (whole ++ part, part.length, rest.dropWhile isDigit)
    else if whole.isEmpty then none else some (whole, 0, b :: rest)
  | [] => if whole.isEmpty then none else some (whole, 0, [])

/-- An exponent behind one of the two given letters; without digits it is not one. -/
def readExponent (lower upper : UInt8) (t : Text) : Int × Text :=
  match t with
  | b :: rest =>
    let (negative, digits) := readSign rest
    let run := digits.takeWhile Byte.isDigit
    if (b == lower || b == upper) && !run.isEmpty then
      let n : Int := Text.natValue run
      (if negative then -n else n, digits.dropWhile Byte.isDigit)
    else (0, t)
  | [] => (0, [])

def readDecimal? (negative : Bool) (t : Text) : Option (Double × Text) := do
  let (digits, places, rest) ← readDigits? Byte.isDigit t
  let (e, rest) := readExponent (ch 'e') (ch 'E') rest
  return (ofDecimal negative (Text.natValue digits) (e - places), rest)

def readHexadecimal? (negative : Bool) (t : Text) : Option (Double × Text) := do
  let (digits, places, rest) ← readDigits? Byte.isHexDigit t
  let m ← Text.natValue? 16 digits
  let (e, rest) := readExponent (ch 'p') (ch 'P') rest
  return (ofBinary negative m (e - 4 * places), rest)

/-- Drops a word given in lower case, whatever the case of the text. -/
def dropWord? (word : String) (t : Text) : Option Text :=
  let w := ascii word
  if w == Text.toLower (t.take w.length) then some (t.drop w.length) else none

/-- What may follow `nan`: a parenthesised run of letters, digits and underscores. -/
def dropPayload (t : Text) : Text :=
  match t with
  | b :: rest =>
    match rest.dropWhile Byte.isWord with
    | c :: after => if b == ch '(' && c == ch ')' then after else t
    | [] => t
  | [] => []

/-- The longest number at the start of a text, behind blanks and a sign, with the text after it. -/
def read? (t : Text) : Option (Double × Text) :=
  let (negative, body) := readSign (Text.dropSpaces t)
  match dropWord? "infinity" body, dropWord? "inf" body, dropWord? "nan" body with
  | some rest, _, _ => some (infinity negative, rest)
  | _, some rest, _ => some (infinity negative, rest)
  | _, _, some rest => some (nan negative, dropPayload rest)
  | none, none, none =>
    match (dropWord? "0x" body).bind (readHexadecimal? negative) with
    | some r => some r
    | none => readDecimal? negative body

end TagFormula.Double

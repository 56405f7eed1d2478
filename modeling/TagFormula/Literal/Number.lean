import TagFormula.Double.Reader
import TagFormula.Expr.Basic

/-!
Number tokens: decimal, `0x`, `0b` and leading-zero octal integers, and reals. An integer that does
not fit in 64 bits with a sign becomes the nearest real.
-/

namespace TagFormula

/-- A run of digits in a base at the start of a text, behind blanks and a sign. -/
structure DigitRun where
  negative : Bool
  value : Nat
  /-- The text after the digits. -/
  rest : Text
  deriving DecidableEq, Repr

namespace DigitRun

/-- Drops `0x` in front of a hexadecimal digit. -/
def dropHexMark (t : Text) : Text :=
  match Double.dropWord? "0x" t with
  | some (b :: rest) => if Byte.isHexDigit b then b :: rest else t
  | _ => t

/-- Reads at least one digit. Base sixteen allows the mark `0x`. -/
def read? (base : Nat) (t : Text) : Option DigitRun :=
  let (negative, body) := Double.readSign (Text.dropSpaces t)
  let body := if base = 16 then dropHexMark body else body
  let isDigit (b : UInt8) : Bool := (Byte.digitValue? base b).isSome
  match body.takeWhile isDigit with
  | [] => none
  | run => some ⟨negative, (Text.natValue? base run).getD 0, body.dropWhile isDigit⟩

/-- The 64-bit word of a run, in which a negative number counts down from the top; `none` if the
digits do not fit. -/
def word? (r : DigitRun) : Option UInt64 :=
  if r.value < 0x10000000000000000 then
    some (if r.negative then 0 - r.value.toUInt64 else r.value.toUInt64)
  else none

end DigitRun

namespace Literal

/-- An integer, or the nearest real if it is too large for one. -/
def ofNat (n : Nat) : Literal :=
  if n < 0x8000000000000000 then .integer (Int64.ofNat n) else .float (Double.ofInt n)

/-- The real at the start of a text, zero if there is none. -/
def leadingReal (t : Text) : Double := ((Double.read? t).map (·.1)).getD Double.zero

/-- The digits of a base. They have to fill the text up to its first zero byte. Digits that do not
fit in a word are read once more as a real. -/
def ofDigits (base : Nat) (t : Text) : Option Literal :=
  let seen := t.upToZero
  if t.isEmpty then none
  else if seen.isEmpty then some (.integer 0)
  else
    match DigitRun.read? base seen with
    | none => none
    | some run =>
      if !run.rest.isEmpty then none
      else
        match run.word? with
        | some w => some (ofNat w.toNat)
        | none => some (.float (leadingReal seen))

/-- A real that fills the text up to its first zero byte. -/
def ofReal (t : Text) : Option Literal :=
  let seen := t.upToZero
  if seen.isEmpty then some (.float Double.zero)
  else
    match Double.read? seen with
    | some (d, []) => some (.float d)
    | _ => none

/-- The digits behind a mark such as `0x`; at least one byte has to follow it. -/
def markedDigits? (letter : Char) : Text → Option Text
  | z :: m :: b :: rest =>
    if z == ch '0' && Byte.toLower m == ch letter then some (b :: rest) else none
  | _ => none

/-- The literal a number token stands for. Underscores are ignored. -/
def ofNumberToken (content : Text) : Option Literal :=
  let t := content.filter (· != ch '_')
  if t.isEmpty then none
  else
    match markedDigits? 'x' t, markedDigits? 'b' t with
    | some digits, _ => ofDigits 16 digits
    | _, some digits => ofDigits 2 digits
    | none, none =>
      if t.any fun b => (ascii ".eE").contains b then ofReal t
      else
        match t with
        | z :: b :: rest => if z == ch '0' then ofDigits 8 (b :: rest) else ofDigits 10 t
        | _ => ofDigits 10 t

end Literal
end TagFormula

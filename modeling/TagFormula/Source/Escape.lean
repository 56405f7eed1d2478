import TagFormula.Text.Basic

/-! Text inside a C++ string literal: printable ASCII stands for itself, all else is escaped. -/

namespace TagFormula.Source

/-- Three octal digits. -/
def octal (b : UInt8) : Text :=
  let digit (n : Nat) : UInt8 := (48 + n % 8).toUInt8
  [digit (b.toNat / 64), digit (b.toNat / 8), digit b.toNat]

/-- How a byte is written. A question mark is escaped so that two of them start no trigraph. -/
def escapeByte (b : UInt8) : Text :=
  if b == ch '\\' then ascii "\\\\"
  else if b == ch '"' then ascii "\\\""
  else if b == ch '\n' then ascii "\\n"
  else if b == ch '\r' then ascii "\\r"
  else if b == ch '\t' then ascii "\\t"
  else if b == ch '?' then ascii "\\?"
  else if b < 0x20 || 0x7f ≤ b then ch '\\' :: octal b
  else [b]

def escape (t : Text) : Text := t.flatMap escapeByte

/-- A string literal. -/
def quoted (t : Text) : Text := ch '"' :: escape t ++ [ch '"']

end TagFormula.Source

import TagFormula.Pattern.Fault

/-!
Tests on one byte of a subject: single bytes, ranges, named classes and their complements. Ranges
compare bytes as signed numbers, so the upper half of the byte range lies below zero.
-/

namespace TagFormula.Pattern

/-- The named classes of bytes; all of them hold ASCII bytes only. -/
inductive ByteClass where
  | alnum
  | alpha
  | blank
  | cntrl
  | digit
  | graph
  | lower
  | print
  | punct
  | space
  | upper
  | word
  | xdigit
  deriving DecidableEq, Repr

namespace ByteClass

def contains (b : UInt8) : ByteClass → Bool
  | .alnum => Byte.isAlnum b
  | .alpha => Byte.isAlpha b
  | .blank => b == 32 || b == 9
  | .cntrl => b < 32 || b == 127
  | .digit => Byte.isDigit b
  | .graph => 32 < b && b < 127
  | .lower => Byte.isLower b
  | .print => 32 ≤ b && b < 127
  | .punct => 32 < b && b < 127 && !Byte.isAlnum b
  | .space => Byte.isSpace b
  | .upper => Byte.isUpper b
  | .word => Byte.isWord b
  | .xdigit => Byte.isHexDigit b

def names : List (String × ByteClass) :=
  [("d", .digit), ("w", .word), ("s", .space), ("alnum", .alnum), ("alpha", .alpha),
    ("blank", .blank), ("cntrl", .cntrl), ("digit", .digit), ("graph", .graph), ("lower", .lower),
    ("print", .print), ("punct", .punct), ("space", .space), ("upper", .upper), ("xdigit", .xdigit)]

/-- The class of a name in any letter case. If case is folded, the two cases are one class. -/
def ofName? (fold : Bool) (name : Text) : Option ByteClass :=
  (names.find? fun entry => ascii entry.1 == Text.toLower name).map fun entry =>
    if fold && (entry.2 == .lower || entry.2 == .upper) then .alpha else entry.2

end ByteClass

/-- The names of the ASCII bytes that are not letters, by code. -/
def byteNames : List (List String) :=
  [["NUL", "SOH", "STX", "ETX", "EOT", "ENQ", "ACK", "alert", "backspace", "tab", "newline",
      "vertical-tab", "form-feed", "carriage-return", "SO", "SI", "DLE", "DC1", "DC2", "DC3", "DC4",
      "NAK", "SYN", "ETB", "CAN", "EM", "SUB", "ESC", "IS4", "IS3", "IS2", "IS1"],
    ["space", "exclamation-mark", "quotation-mark", "number-sign", "dollar-sign", "percent-sign",
      "ampersand", "apostrophe", "left-parenthesis", "right-parenthesis", "asterisk", "plus-sign",
      "comma", "hyphen", "period", "slash", "zero", "one", "two", "three", "four", "five", "six",
      "seven", "eight", "nine", "colon", "semicolon", "less-than-sign", "equals-sign",
      "greater-than-sign", "question-mark", "commercial-at"],
    ["A", "B", "C", "D", "E", "F", "G", "H", "I", "J", "K", "L", "M", "N", "O", "P", "Q", "R", "S",
      "T", "U", "V", "W", "X", "Y", "Z", "left-square-bracket", "backslash", "right-square-bracket",
      "circumflex", "underscore", "grave-accent"],
    ["a", "b", "c", "d", "e", "f", "g", "h", "i", "j", "k", "l", "m", "n", "o", "p", "q", "r", "s",
      "t", "u", "v", "w", "x", "y", "z", "left-curly-bracket", "vertical-line",
      "right-curly-bracket", "tilde", "DEL"]]

/-- The byte with a given name. -/
def byteOfName? (name : Text) : Option UInt8 :=
  (byteNames.flatten.findIdx? fun n => ascii n == name).map Nat.toUInt8

/-- A member of a bracketed set. -/
inductive Member where
  | byte (b : UInt8)
  | range (low high : UInt8)
  | inClass (c : ByteClass)
  | notInClass (c : ByteClass)
  /-- Equal up to letter case. -/
  | equivalent (b : UInt8)
  deriving DecidableEq, Repr

/-- `low ≤ b ≤ high` as signed bytes. -/
def inRange (low high b : UInt8) : Bool := low.toInt8 ≤ b.toInt8 && b.toInt8 ≤ high.toInt8

def Member.contains (fold : Bool) (b : UInt8) : Member → Bool
  | .byte m => if fold then Byte.toLower m == Byte.toLower b else m == b
  | .range low high =>
    if fold then inRange low high (Byte.toLower b) || inRange low high (Byte.toUpper b)
    else inRange low high b
  | .inClass c => c.contains b
  | .notInClass c => !c.contains b
  | .equivalent m => Byte.toLower m == Byte.toLower b

/-- A test on one byte. -/
inductive ByteTest where
  /-- Anything but a newline or a carriage return. -/
  | any
  | set (negated : Bool) (members : List Member)
  deriving DecidableEq, Repr

def ByteTest.accepts (fold : Bool) (b : UInt8) : ByteTest → Bool
  | .any => b != ch '\n' && b != ch '\r'
  | .set negated members => members.any (·.contains fold b) != negated

end TagFormula.Pattern

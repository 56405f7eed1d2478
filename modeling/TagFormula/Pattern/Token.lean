import TagFormula.Pattern.Fault

/-!
The tokens of a pattern. Brackets and braces have tokens of their own; where the text stops making
sense, the tokens read so far are followed by a fault.
-/

namespace TagFormula.Pattern

inductive Token where
  | byte (b : UInt8)
  /-- Hexadecimal digits of a byte. -/
  | hex (digits : Text)
  | groupNumber (digits : Text)
  | quotedClass (letter : UInt8)
  | any
  | lineStart
  | lineEnd
  | wordBoundary (negated : Bool)
  | lookahead (negated : Bool)
  | openGroup
  | openPlain
  | close
  | openBracket (negated : Bool)
  | closeBracket
  | dash
  | className (name : Text)
  | collation (name : Text)
  | equivalence (name : Text)
  | star
  | plus
  | option
  | or
  | openBrace
  | count (digits : Text)
  | comma
  | closeBrace
  deriving DecidableEq, Repr

/-- Where in a pattern the reader stands. -/
inductive Mode where
  | outside
  | bracket
  | brace
  deriving DecidableEq, Repr

/-- One token, the mode behind it, and the rest of the text. -/
abbrev Step := Except PatternFault (Token × Mode × Text)

/-- A fixed number of hexadecimal digits. -/
def readHex (mode : Mode) (n : Nat) (fault : PatternFault) (t : Text) : Step :=
  let digits := t.take n
  if digits.length = n ∧ digits.all Byte.isHexDigit then .ok (.hex digits, mode, t.drop n)
  else .error fault

/-- The byte that a letter behind a backslash stands for. -/
def escapedByte? (mode : Mode) (b : UInt8) : Option UInt8 :=
  if b == ch '0' then some 0
  else if b == ch 'b' then (if mode = .bracket then some 8 else none)
  else if b == ch 'f' then some 12
  else if b == ch 'n' then some 10
  else if b == ch 'r' then some 13
  else if b == ch 't' then some 9
  else if b == ch 'v' then some 11
  else none

/-- What stands behind a backslash. A byte without a meaning stands for itself. -/
def readEscape (mode : Mode) (b : UInt8) (rest : Text) : Step :=
  match escapedByte? mode b with
  | some e => .ok (.byte e, mode, rest)
  | none =>
    if b == ch 'b' then .ok (.wordBoundary false, mode, rest)
    else if b == ch 'B' then .ok (.wordBoundary true, mode, rest)
    else if (ascii "dDsSwW").contains b then .ok (.quotedClass b, mode, rest)
    else if b == ch 'c' then
      match rest with
      | [] => .error .controlEscape
      | c :: rest => .ok (.byte c, mode, rest)
    else if b == ch 'x' then readHex mode 2 .hexEscape rest
    else if b == ch 'u' then readHex mode 4 .unicodeEscape rest
    else if Byte.isDigit b then
      .ok (.groupNumber (b :: rest.takeWhile Byte.isDigit), mode, rest.dropWhile Byte.isDigit)
    else .ok (.byte b, mode, rest)

/-- An opening parenthesis and what may follow it. -/
def readParenthesis (rest : Text) : Step :=
  match rest with
  | q :: rest' =>
    if q == ch '?' then
      match rest' with
      | [] => .error .parenthesis
      | k :: rest =>
        if k == ch ':' then .ok (.openPlain, .outside, rest)
        else if k == ch '=' then .ok (.lookahead false, .outside, rest)
        else if k == ch '!' then .ok (.lookahead true, .outside, rest)
        else .error .assertion
    else .ok (.openGroup, .outside, rest)
  | [] => .ok (.openGroup, .outside, [])

def stepOutside (b : UInt8) (rest : Text) : Step :=
  if b == ch '\\' then
    match rest with
    | [] => .error .escapeAtEnd
    | e :: rest => readEscape .outside e rest
  else if b == ch '(' then readParenthesis rest
  else if b == ch ')' then .ok (.close, .outside, rest)
  else if b == ch '[' then
    if rest.head? = some (ch '^') then .ok (.openBracket true, .bracket, rest.drop 1)
    else .ok (.openBracket false, .bracket, rest)
  else if b == ch '\x7b' then .ok (.openBrace, .brace, rest)
  else if b == ch '^' then .ok (.lineStart, .outside, rest)
  else if b == ch '$' then .ok (.lineEnd, .outside, rest)
  else if b == ch '.' then .ok (.any, .outside, rest)
  else if b == ch '*' then .ok (.star, .outside, rest)
  else if b == ch '+' then .ok (.plus, .outside, rest)
  else if b == ch '?' then .ok (.option, .outside, rest)
  else if b == ch '|' then .ok (.or, .outside, rest)
  else .ok (.byte b, .outside, rest)

/-- A name up to `mark` and a closing bracket. -/
def readName (mark : UInt8) (token : Text → Token) (fault : PatternFault) (t : Text) : Step :=
  match t.dropWhile (· != mark) with
  | _ :: c :: rest =>
    if c == ch ']' then .ok (token (t.takeWhile (· != mark)), .bracket, rest) else .error fault
  | _ => .error fault

def stepBracket (b : UInt8) (rest : Text) : Step :=
  if b == ch '-' then .ok (.dash, .bracket, rest)
  else if b == ch '[' then
    match rest with
    | [] => .error .cutClass
    | k :: after =>
      if k == ch '.' then readName k .collation .openCollation after
      else if k == ch ':' then readName k .className .openClass after
      else if k == ch '=' then readName k .equivalence .openCollation after
      else .ok (.byte b, .bracket, rest)
  else if b == ch ']' then .ok (.closeBracket, .outside, rest)
  else if b == ch '\\' then
    match rest with
    | [] => .error .escapeInBracket
    | e :: rest => readEscape .bracket e rest
  else .ok (.byte b, .bracket, rest)

def stepBrace (b : UInt8) (rest : Text) : Step :=
  if Byte.isDigit b then
    .ok (.count (b :: rest.takeWhile Byte.isDigit), .brace, rest.dropWhile Byte.isDigit)
  else if b == ch ',' then .ok (.comma, .brace, rest)
  else if b == ch '\x7d' then .ok (.closeBrace, .outside, rest)
  else .error .braceContent

def step : Mode → UInt8 → Text → Step
  | .outside => stepOutside
  | .bracket => stepBracket
  | .brace => stepBrace

/-- The tokens of a text and the fault behind them, if there is one. Every step takes a byte, so as
many steps as there are bytes are enough. -/
def tokens (t : Text) : List Token × Option PatternFault := go t.length .outside t
where
  go : Nat → Mode → Text → List Token × Option PatternFault
    | fuel + 1, mode, b :: rest =>
      match step mode b rest with
      | .error e => ([], some e)
      | .ok (token, mode, rest) =>
        let r := go fuel mode rest
        (token :: r.1, r.2)
    | _, _, _ => ([], none)

end TagFormula.Pattern

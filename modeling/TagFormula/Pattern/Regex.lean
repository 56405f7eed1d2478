import TagFormula.Pattern.ByteTest
import TagFormula.Pattern.Token

/-!
Regular expressions and their parser. An alternative is a sequence of terms; a term is an assertion
or an atom with any number of quantifiers behind it.
-/

namespace TagFormula.Pattern

inductive Regex where
  | empty
  | test (t : ByteTest)
  | lineStart
  | lineEnd
  | wordBoundary (negated : Bool)
  | lookahead (negated : Bool) (e : Regex)
  | group (index : Nat) (e : Regex)
  /-- The text that a group matched. -/
  | groupText (index : Nat)
  | seq (a b : Regex)
  | either (a b : Regex)
  | star (lazy : Bool) (e : Regex)
  | plus (lazy : Bool) (e : Regex)
  | option (lazy : Bool) (e : Regex)
  /-- At least `min` times; at most `extra` times more if that is given. -/
  | bounded (lazy : Bool) (min : Nat) (extra : Option Nat) (e : Regex)
  deriving DecidableEq, Repr

/-- The size of an expression: what a copy of it counts toward the limit. -/
def Regex.cells : Regex → Nat
  | .empty | .test _ | .lineStart | .lineEnd | .wordBoundary _ | .groupText _ => 1
  | .lookahead _ e | .group _ e | .option _ e => e.cells + 2
  | .seq a b => a.cells + b.cells
  | .either a b => a.cells + b.cells + 2
  | .star _ e | .plus _ e => e.cells + 1
  | .bounded _ min none e => 2 + (min + 1) * e.cells
  | .bounded _ min (some extra) e => 2 + min * e.cells + extra * (e.cells + 1)

/-- The most cells a pattern may have. -/
def maxCells : Nat := 100000

/-- What the parser knows: the tokens left, the fault behind them, the number of groups begun, those
still open, and the cells used. -/
structure Progress where
  tokens : List Token
  fault : Option PatternFault
  groups : Nat
  openGroups : List Nat
  cells : Nat

abbrev Parser := StateT Progress (Except PatternFault)

namespace Parser

/-- Raises the fault behind the last token once all tokens are taken. -/
def checkFault : Parser Unit := do
  match (← get).tokens, (← get).fault with
  | [], some e => throw e
  | _, _ => return

def advance : Parser Unit := do
  modify fun p => { p with tokens := p.tokens.drop 1 }
  checkFault

def peek : Parser (Option Token) := return (← get).tokens.head?

/-- Takes a token if it is the next one. -/
def accept (t : Token) : Parser Bool := do
  if (← peek) = some t then
    advance
    return true
  else return false

/-- Counts cells toward the limit. -/
def grow (n : Nat) : Parser Unit := do
  modify fun p => { p with cells := p.cells + n }
  if maxCells < (← get).cells then throw .tooLarge

/-- The value of digits as a signed 32-bit number: larger ones wrap around. -/
def number (digits : Text) : Int := Int.bmod (Text.natValue digits) 0x100000000

/-- A single byte. -/
def byte? : Parser (Option UInt8) := do
  match ← peek with
  | some (.byte b) =>
    advance
    return some b
  | some (.hex digits) =>
    advance
    return (Text.natValue? 16 digits).map Nat.toUInt8
  | _ => return none

/-! ### Brackets -/

/-- What a bracket holds last: nothing, a byte that may start a range, or a class. -/
inductive Last where
  | nothing
  | byte (b : UInt8)
  | aClass

def Last.members : Last → List Member
  | .byte b => [.byte b]
  | _ => []

def className (fold : Bool) (name : Text) : Parser ByteClass :=
  match ByteClass.ofName? fold name with
  | some c => return c
  | none => throw .className

def range (low high : UInt8) : Parser Member :=
  if low.toInt8 ≤ high.toInt8 then return .range low high else throw .range

/-- A dash behind `last`, which stands for itself, starts a range, or is out of place. -/
def dash (last : Last) (members : List Member) : Parser (Last × List Member) := do
  match last with
  | .aClass => throw .rangeStart
  | .nothing => return (.byte (ch '-'), members)
  | .byte low =>
    match ← byte? with
    | some high => return (.nothing, (← range low high) :: members)
    | none =>
      if ← accept .dash then return (.nothing, (← range low (ch '-')) :: members)
      else throw .rangeEnd

/-- The members up to the closing bracket. -/
def bracketMembers (fold : Bool) : Nat → Last → List Member → Parser (List Member)
  | 0, _, _ => throw .bracket
  | fuel + 1, last, members => do
    let kept := last.members ++ members
    match ← peek with
    | some .closeBracket =>
      advance
      return kept
    | some (.collation name) =>
      advance
      match byteOfName? name with
      | none => throw .collationName
      | some b => bracketMembers fold fuel (.byte b) kept
    | some (.equivalence name) =>
      advance
      match byteOfName? name with
      | none => throw .equivalenceName
      | some b => bracketMembers fold fuel .aClass (.equivalent b :: kept)
    | some (.className name) =>
      advance
      bracketMembers fold fuel .aClass (.inClass (← className fold name) :: kept)
    | some (.quotedClass letter) =>
      advance
      let c ← className fold [letter]
      let member := if Byte.isUpper letter then Member.notInClass c else .inClass c
      bracketMembers fold fuel .aClass (member :: kept)
    | some .dash =>
      advance
      if ← accept .closeBracket then return .byte (ch '-') :: kept
      let (last, members) ← dash last members
      bracketMembers fold fuel last members
    | _ =>
      match ← byte? with
      | some b => bracketMembers fold fuel (.byte b) kept
      | none => throw .bracket

/-- A bracket behind its opening. A dash in front stands for itself. -/
def bracket (fold negated : Bool) : Parser Regex := do
  let first ← match ← byte? with
    | some b => pure (Last.byte b)
    | none => if ← accept .dash then pure (Last.byte (ch '-')) else pure .nothing
  let members ← bracketMembers fold ((← get).tokens.length + 1) first []
  grow 1
  return .test (.set negated members)

/-! ### Quantifiers -/

/-- The sizes between braces, behind the opening one. A negative one asks for no copy, and what may
come on top counts from there. -/
def braces (e : Regex) : Parser Regex := do
  match ← peek with
  | some (.count digits) =>
    advance
    grow 1
    let low := number digits
    let min := low.toNat
    let mut extra : Option Int := some 0
    if ← accept .comma then
      match ← peek with
      | some (.count digits) =>
        advance
        extra := some (number digits - low)
      | _ => extra := none
    if !(← accept .closeBrace) then throw .brace
    let lazy ← accept .option
    grow (min * e.cells)
    match extra with
    | none =>
      grow (e.cells + 1)
      return .bounded lazy min none e
    | some more =>
      if more < 0 then throw .braceContent
      grow (1 + more.toNat * (e.cells + 1))
      return .bounded lazy min (some more.toNat) e
  | _ => throw .braceContent

/-- The quantifiers behind an atom, each applying to all before it. -/
def quantifiers : Nat → Regex → Parser Regex
  | 0, e => return e
  | fuel + 1, e => do
    match ← peek with
    | some .star =>
      advance
      let lazy ← accept .option
      grow 1
      quantifiers fuel (.star lazy e)
    | some .plus =>
      advance
      let lazy ← accept .option
      grow 1
      quantifiers fuel (.plus lazy e)
    | some .option =>
      advance
      let lazy ← accept .option
      grow 2
      quantifiers fuel (.option lazy e)
    | some .openBrace =>
      advance
      quantifiers fuel (← braces e)
    | _ => return e

/-! ### Terms -/

/-- A reference to a group that was begun and is closed. -/
def groupText (digits : Text) : Parser Regex := do
  let n := number digits
  if n < 0 || (← get).groups ≤ n then throw .missingGroup
  if (← get).openGroups.contains n.toNat then throw .openGroup
  grow 1
  return .groupText n.toNat

/-- Wraps an assertion or an atom that is one cell. -/
def single (e : Regex) : Parser (Option Regex) := do
  advance
  grow 1
  return some e

mutual
/-- Alternatives separated by bars. -/
def alternatives (fold : Bool) : Nat → Parser Regex
  | 0 => throw .parenthesis
  | fuel + 1 => do moreAlternatives fold fuel (← sequence fold fuel)

def moreAlternatives (fold : Bool) : Nat → Regex → Parser Regex
  | 0, e => return e
  | fuel + 1, e => do
    if ← accept .or then
      let right ← sequence fold fuel
      grow 2
      moreAlternatives fold fuel (.either e right)
    else return e

/-- Terms one after the other. -/
def sequence (fold : Bool) : Nat → Parser Regex
  | 0 => throw .parenthesis
  | fuel + 1 => do
    match ← term fold fuel with
    | some e => return .seq e (← sequence fold fuel)
    | none =>
      grow 1
      return .empty

/-- An assertion, or an atom with its quantifiers. -/
def term (fold : Bool) : Nat → Parser (Option Regex)
  | 0 => return none
  | fuel + 1 => do
    match ← peek with
    | some .lineStart => single .lineStart
    | some .lineEnd => single .lineEnd
    | some (.wordBoundary negated) => single (.wordBoundary negated)
    | some (.lookahead negated) =>
      advance
      let e ← alternatives fold fuel
      if !(← accept .close) then throw .parenthesis
      grow 2
      return some (.lookahead negated e)
    | _ =>
      match ← atom fold fuel with
      | some e => return some (← quantifiers ((← get).tokens.length + 1) e)
      | none => return none

def atom (fold : Bool) : Nat → Parser (Option Regex)
  | 0 => return none
  | fuel + 1 => do
    match ← peek with
    | some .any => single (.test .any)
    | some (.groupNumber digits) =>
      advance
      return some (← groupText digits)
    | some (.quotedClass letter) =>
      advance
      let c ← className fold [letter]
      grow 1
      return some (.test (.set (Byte.isUpper letter) [.inClass c]))
    | some .openPlain =>
      advance
      grow 1
      let e ← alternatives fold fuel
      if !(← accept .close) then throw .parenthesis
      return some (.seq .empty e)
    | some .openGroup =>
      advance
      let index := (← get).groups
      modify fun p => { p with groups := index + 1, openGroups := index :: p.openGroups }
      grow 1
      let e ← alternatives fold fuel
      if !(← accept .close) then throw .parenthesis
      modify fun p => { p with openGroups := p.openGroups.drop 1 }
      grow 1
      return some (.group index e)
    | some (.openBracket negated) =>
      advance
      return some (← bracket fold negated)
    | _ =>
      match ← byte? with
      | some b =>
        grow 1
        return some (.test (.set false [.byte b]))
      | none => return none
end

end Parser

/-- Reads a whole pattern: the expression and the number of its groups, the whole one included. -/
def Regex.parse (fold : Bool) (t : Text) : Except PatternFault (Regex × Nat) := do
  let (tokens, fault) := Pattern.tokens t
  let whole : Parser Regex := do
    Parser.checkFault
    let e ← Parser.alternatives fold (4 * tokens.length + 8)
    if (← Parser.peek).isSome then throw .parenthesis
    Parser.grow 2
    return e
  let (e, progress) ← whole.run ⟨tokens, fault, 1, [0], 1⟩
  return (e, progress.groups)

end TagFormula.Pattern

import TagFormula.Literal.Quoted

/-!
Match tokens: `/pattern/flags`, or `m` with any delimiter. Brackets nest, and an escaped delimiter
stands for itself unless it is a pattern's own punctuation.
-/

namespace TagFormula.Matcher

/-- The delimiter that closes a pattern. -/
def closer (opener : UInt8) : UInt8 :=
  if opener == ch '(' then ch ')'
  else if opener == ch '[' then ch ']'
  else if opener == ch '\x7b' then ch '\x7d'
  else if opener == ch '<' then ch '>'
  else opener

/-- Bytes that have a meaning of their own in a pattern. -/
def isPunctuation (b : UInt8) : Bool := (ascii "\\^$.|?*+()[]\x7b\x7d").contains b

/-- How an escaped byte is written in the pattern. -/
def escape (opener e : UInt8) : Text :=
  if (e == opener || e == closer opener) && !isPunctuation e then [e] else [ch '\\', e]

/-- Whether a byte of a pattern stands for a variable. A delimiter behind it does not start one. -/
def interpolates (opener b : UInt8) (rest : Text) : Bool :=
  Quoted.interpolates b rest && rest.head? != some (closer opener)

/-- How deep the brackets are nested behind a byte. -/
def nested (opener b : UInt8) (depth : Nat) : Nat :=
  if opener == closer opener then depth
  else if b == opener then depth + 1
  else if b == closer opener then depth - 1
  else depth

/-- The pattern up to its closing delimiter, and the text after that. -/
def readPattern? (opener : UInt8) : Nat → Text → Option (Text × Text)
  | _, [] => none
  | depth, [b] => if b == closer opener && depth = 0 then some ([], []) else none
  | depth, b :: e :: rest =>
    if b == ch '\\' then
      (readPattern? opener depth rest).map fun (p, after) => (escape opener e ++ p, after)
    else if b == closer opener && depth = 0 then some ([], e :: rest)
    else if interpolates opener b (e :: rest) then none
    else
      (readPattern? opener (nested opener b depth) (e :: rest)).map fun (p, after) => (b :: p, after)

/-- The delimiter of a token and the text behind it. Only `/` stands without `m`. -/
def open? : Text → Option (UInt8 × Text)
  | [] => none
  | b :: rest =>
    if b == ch 'm' then
      match rest with
      | o :: body => if Byte.isAlnum o || Byte.isSpace o then none else some (o, body)
      | [] => none
    else if b == ch '/' then some (b, rest)
    else none

/-- The pattern and the flags of a token. -/
def read? (content : Text) : Option (Text × Text) := do
  let (opener, body) ← open? content
  let (pattern, flags) ← readPattern? opener 0 body
  if flags.all Byte.isAlpha then some (pattern, flags) else none

end TagFormula.Matcher

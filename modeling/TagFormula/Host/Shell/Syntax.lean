import TagFormula.Text.Basic

/-! The commands of a small shell: lists, conditions, loops, groups, and words with expansions. -/

namespace TagFormula.Host.Shell

/-- A piece of a word. What stands in quotes is never split. -/
inductive Part where
  | text (quoted : Bool) (t : Text)
  | parameter (quoted : Bool) (name : Text)
  | arithmetic (t : Text)
  deriving DecidableEq, Repr

abbrev Word := List Part

/-- A change of a descriptor: to a file, or to what another descriptor is. -/
structure Redirect where
  descriptor : Nat
  copies : Bool
  target : Word
  deriving DecidableEq, Repr

inductive Lexeme where
  | word (w : Word)
  | sign (s : String)
  | redirect (descriptor : Nat) (copies : Bool)
  deriving DecidableEq, Repr

inductive Command where
  | nothing
  | simple (assignments : List (Text × Word)) (words : List Word) (redirects : List Redirect)
  | sequence (first second : Command)
  | both (first second : Command)
  | either (first second : Command)
  | negated (c : Command)
  /-- The output of the first is the input of the second. -/
  | pipe (first second : Command)
  | background (c : Command)
  | group (subshell : Bool) (c : Command) (redirects : List Redirect)
  | choice (test yes no : Command)
  | loop (untilTrue : Bool) (test body : Command)
  | each (name : Text) (words : List Word) (body : Command)
  deriving Inhabited

/-! ### Words and signs -/

/-- Bytes that end a word. -/
def isBreak (b : UInt8) : Bool := Byte.isSpace b || (ascii ";&|<>()").contains b

/-- The text up to the parenthesis that closes one already open, and what follows it. -/
def upToClosing : Nat → Text → Option (Text × Text)
  | _, [] => none
  | depth, b :: rest =>
    let goOn (depth : Nat) : Option (Text × Text) :=
      (upToClosing depth rest).map fun (inner, after) => (b :: inner, after)
    if b == ch '(' then goOn (depth + 1)
    else if b == ch ')' then
      match depth with
      | 0 => some ([], rest)
      | depth + 1 => goOn depth
    else goOn depth

/-- The expansion behind a `$`, and the text after it; a `$` in front of anything else is itself. -/
def readExpansion (quoted : Bool) (t : Text) : Option (Part × Text) :=
  match t with
  | [] => some (.text quoted [ch '$'], [])
  | b :: rest =>
    if b == ch '(' then
      match rest with
      | c :: inner =>
        if c == ch '(' then do
          let (body, after) ← upToClosing 0 inner
          match after with
          | d :: after => if d == ch ')' then some (.arithmetic body, after) else none
          | [] => none
        else none
      | [] => none
    else if b == ch '\x7b' then
      match rest.dropWhile Byte.isWord with
      | c :: after =>
        if c == ch '\x7d' then some (.parameter quoted (rest.takeWhile Byte.isWord), after) else none
      | [] => none
    else if Byte.isAlpha b || b == ch '_' then
      some (.parameter quoted (t.takeWhile Byte.isWord), t.dropWhile Byte.isWord)
    else if Byte.isDigit b || (ascii "$?!#@*").contains b then some (.parameter quoted [b], rest)
    else some (.text quoted [ch '$'], t)

/-- The pieces up to a closing double quote, and the text after it. -/
def readDoubleQuoted : Nat → Text → Option (Word × Text)
  | 0, _ => none
  | _ + 1, [] => none
  | fuel + 1, b :: rest =>
    let cons (p : Part) (rest : Text) : Option (Word × Text) :=
      (readDoubleQuoted fuel rest).map fun (w, after) => (p :: w, after)
    if b == ch '"' then some ([], rest)
    else if b == ch '$' then do
      let (part, after) ← readExpansion true rest
      cons part after
    else
      match rest with
      | e :: after =>
        if b == ch '\\' && (ascii "$\x60\"\\").contains e then cons (.text true [e]) after
        else cons (.text true [b]) rest
      | [] => none

/-- A word, and the text after it. -/
def readWord : Nat → Text → Option (Word × Text)
  | 0, _ => none
  | _ + 1, [] => some ([], [])
  | fuel + 1, b :: rest =>
    let cons (p : Part) (rest : Text) : Option (Word × Text) :=
      (readWord fuel rest).map fun (w, after) => (p :: w, after)
    if isBreak b then some ([], b :: rest)
    else if b == ch '\'' then
      match rest.dropWhile (· != ch '\'') with
      | _ :: after => cons (.text true (rest.takeWhile (· != ch '\''))) after
      | [] => none
    else if b == ch '"' then do
      let (parts, after) ← readDoubleQuoted (rest.length + 1) rest
      let (more, after) ← readWord fuel after
      return (.text true [] :: parts ++ more, after)
    else if b == ch '$' then do
      let (part, after) ← readExpansion false rest
      cons part after
    else if b == ch '\\' then
      match rest with
      | e :: after => if e == ch '\n' then readWord fuel after else cons (.text true [e]) after
      | [] => cons (.text true [b]) []
    else cons (.text false [b]) rest

/-- The sign at the start of a text, the longest first. -/
def readSign? (t : Text) : Option (String × Text) :=
  ["&&", "||", ";", "&", "|", "(", ")", "\n"].findSome? fun s =>
    if (ascii s).isPrefixOf t then some (s, t.drop s.length) else none

/-- A redirection at the start of a text. -/
def readRedirect? (t : Text) : Option (Lexeme × Text) :=
  let digits := t.takeWhile Byte.isDigit
  let number (fallback : Nat) : Nat := if digits.isEmpty then fallback else Text.natValue digits
  match t.dropWhile Byte.isDigit with
  | b :: c :: rest =>
    if b == ch '>' && c == ch '&' then some (.redirect (number 1) true, rest)
    else if b == ch '<' && c == ch '&' then some (.redirect (number 0) true, rest)
    else if b == ch '>' && c == ch '>' then some (.redirect (number 1) false, rest)
    else if b == ch '>' then some (.redirect (number 1) false, c :: rest)
    else if b == ch '<' then some (.redirect (number 0) false, c :: rest)
    else none
  | _ => none

/-- The words and signs of a script; `none` if a quote or an expansion is not closed. -/
def lexemes : Nat → Text → Option (List Lexeme)
  | 0, _ => none
  | _ + 1, [] => some []
  | fuel + 1, b :: rest =>
    if b == ch '#' then lexemes fuel (rest.dropWhile (· != ch '\n'))
    else
      match readRedirect? (b :: rest), readSign? (b :: rest) with
      | some (l, after), _ => (lexemes fuel after).map (l :: ·)
      | none, some (s, after) =>
        (lexemes fuel after).map (.sign (if s == "\n" then ";" else s) :: ·)
      | none, none =>
        if Byte.isSpace b then lexemes fuel rest
        else do
          let (w, after) ← readWord (rest.length + 2) (b :: rest)
          let more ← lexemes fuel after
          return .word w :: more

/-! ### Commands -/

/-- The text of a word without quotes and expansions. -/
def plainText? (w : Word) : Option Text :=
  w.foldrM (fun p acc => match p with
    | .text false t => some (t ++ acc)
    | _ => none) []

abbrev Parser := StateT (List Lexeme) Option

/-- Whether a reserved word or a sign comes next. -/
def comesNext (s : String) : Parser Bool := do
  match (← get).head? with
  | some (.sign t) => return t == s
  | some (.word w) => return plainText? w == some (ascii s)
  | _ => return false

/-- Takes a reserved word or a sign, if it comes next. -/
def accept (s : String) : Parser Bool := do
  if ← comesNext s then
    modify List.tail
    return true
  else return false

def expect (s : String) : Parser Unit := do
  if ← accept s then return () else failure

/-- Takes a word. -/
def takeWord : Parser Word := do
  match ← get with
  | .word w :: rest =>
    set rest
    return w
  | _ => failure

/-- Takes the redirections that follow. -/
def takeRedirects : Nat → Parser (List Redirect)
  | 0 => failure
  | fuel + 1 => do
    match (← get).head? with
    | some (.redirect n copies) =>
      modify List.tail
      let target ← takeWord
      return ⟨n, copies, target⟩ :: (← takeRedirects fuel)
    | _ => return []

/-- The name and the value of an assignment. -/
def assignment? (w : Word) : Option (Text × Word) :=
  let isName (b : Part) : Bool := match b with
    | .text false [c] => Byte.isWord c
    | _ => false
  match w.takeWhile isName, w.dropWhile isName with
  | name@(_ :: _), .text false [c] :: value =>
    if c == ch '=' then (plainText? name).map (·, value) else none
  | _, _ => none

/-- The words and redirections of a simple command. -/
def takeWords : Nat → Parser (List Word × List Redirect)
  | 0 => failure
  | fuel + 1 => do
    match (← get).head? with
    | some (.word w) =>
      modify List.tail
      let (words, redirects) ← takeWords fuel
      return (w :: words, redirects)
    | some (.redirect n copies) =>
      modify List.tail
      let target ← takeWord
      let (words, redirects) ← takeWords fuel
      return (words, ⟨n, copies, target⟩ :: redirects)
    | _ => return ([], [])

/-- A command of words; assignments stand in front of the others. -/
def ofWords (words : List Word) (redirects : List Redirect) : Command :=
  let assignments := words.takeWhile fun w => (assignment? w).isSome
  .simple (assignments.filterMap assignment?) (words.drop assignments.length) redirects

/-- Words that only end a part of a command. -/
def closers : List String := ["then", "else", "elif", "fi", "do", "done", "\x7d", ")"]

mutual
/-- A list of commands up to the end or a word that closes it. -/
def parseList : Nat → Parser Command
  | 0 => failure
  | fuel + 1 => do
    if ← accept ";" then parseList fuel
    else if (← get).isEmpty || (← closers.anyM comesNext) then return .nothing
    else
      let first ← parseConditions fuel (← parsePipeline fuel)
      if ← accept "&" then return .sequence (.background first) (← parseList fuel)
      else if (← get).isEmpty || (← closers.anyM comesNext) then return first
      else
        expect ";"
        return .sequence first (← parseList fuel)

/-- Commands joined by `&&` and `||`. -/
def parseConditions : Nat → Command → Parser Command
  | 0, _ => failure
  | fuel + 1, first => do
    if ← accept "&&" then parseConditions fuel (.both first (← parsePipeline fuel))
    else if ← accept "||" then parseConditions fuel (.either first (← parsePipeline fuel))
    else return first

/-- Commands joined by `|`, perhaps negated. -/
def parsePipeline : Nat → Parser Command
  | 0 => failure
  | fuel + 1 => do
    if ← accept "!" then return .negated (← parsePipeline fuel)
    else
      let first ← parseCommand fuel
      if ← accept "|" then return .pipe first (← parsePipeline fuel) else return first

def parseCommand : Nat → Parser Command
  | 0 => failure
  | fuel + 1 => do
    if ← accept "(" then
      let body ← parseList fuel
      expect ")"
      return .group true body (← takeRedirects fuel)
    else if ← accept "\x7b" then
      let body ← parseList fuel
      expect "\x7d"
      return .group false body (← takeRedirects fuel)
    else if ← accept "if" then parseChoice fuel
    else if ← accept "while" then parseLoop false fuel
    else if ← accept "until" then parseLoop true fuel
    else if ← accept "for" then
      let name ← takeWord
      expect "in"
      let (words, _) ← takeWords fuel
      let _ ← accept ";"
      expect "do"
      let body ← parseList fuel
      expect "done"
      return .each ((plainText? name).getD []) words body
    else
      let (words, redirects) ← takeWords fuel
      if words.isEmpty && redirects.isEmpty then failure else return ofWords words redirects

/-- A choice behind its `if` or `elif`. -/
def parseChoice : Nat → Parser Command
  | 0 => failure
  | fuel + 1 => do
    let test ← parseList fuel
    expect "then"
    let yes ← parseList fuel
    if ← accept "elif" then return .choice test yes (← parseChoice fuel)
    else if ← accept "else" then
      let no ← parseList fuel
      expect "fi"
      return .choice test yes no
    else
      expect "fi"
      return .choice test yes .nothing

/-- A loop behind its `while` or `until`. -/
def parseLoop (untilTrue : Bool) : Nat → Parser Command
  | 0 => failure
  | fuel + 1 => do
    let test ← parseList fuel
    expect "do"
    let body ← parseList fuel
    expect "done"
    return .loop untilTrue test body
end

/-- The commands of a script; `none` if it has no such form. -/
def parse (script : Text) : Option Command := do
  let tokens ← lexemes (script.length + 1) script
  let (c, rest) ← (parseList (4 * script.length + 16)).run tokens
  if rest.isEmpty then some c else none

end TagFormula.Host.Shell

import TagFormula.Literal.Number
import TagFormula.Value.Format

/-! The command `printf`: a format that is used again until all arguments are written. -/

namespace TagFormula.Host.Printf

/-- The byte of an escape behind its backslash, and the text after it. -/
def readEscape (t : Text) : Text × Text :=
  let octal := (t.take 3).takeWhile fun b => 48 ≤ b && b ≤ 55
  match t with
  | [] => ([ch '\\'], [])
  | b :: rest =>
    if !octal.isEmpty then
      ([((Text.natValue? 8 octal).getD 0).toUInt8], t.drop octal.length)
    else if b == ch 'n' then ([10], rest)
    else if b == ch 't' then ([9], rest)
    else if b == ch 'r' then ([13], rest)
    else if b == ch 'a' then ([7], rest)
    else if b == ch 'b' then ([8], rest)
    else if b == ch 'f' then ([12], rest)
    else if b == ch 'v' then ([11], rest)
    else if b == ch '\\' then ([b], rest)
    else if b == ch '"' then ([b], rest)
    else ([ch '\\', b], rest)

/-- Text with its escapes replaced. -/
def unescape : Nat → Text → Text
  | 0, _ => []
  | _ + 1, [] => []
  | fuel + 1, b :: rest =>
    if b == ch '\\' then
      let (bytes, after) := readEscape rest
      bytes ++ unescape fuel after
    else b :: unescape fuel rest

/-- The base that the start of a number names, as `0x` and `0` do. -/
def baseOf (t : Text) : Nat :=
  match (Double.readSign t).2 with
  | z :: b :: _ => if z != ch '0' then 10 else if Byte.toLower b == ch 'x' then 16 else 8
  | _ => 10

/-- The number in an argument: one character behind a quote stands for its code. -/
def integerOf (arg : Text) : Int64 :=
  match arg with
  | q :: b :: _ =>
    if q == ch '\'' || q == ch '"' then Int64.ofNat b.toNat else read arg
  | _ => read arg
where
  read (t : Text) : Int64 :=
    match DigitRun.read? (baseOf (Text.dropSpaces t)) t with
    | some run => Int64.ofInt (if run.negative then -run.value else run.value)
    | none => 0

/-- An argument as the value that a conversion needs. -/
def argumentFor (letter : UInt8) (arg : Text) : Value :=
  if letter == ch 's' || letter == ch 'b' then .string arg
  else if letter == ch 'c' then .string (arg.take 1)
  else if (ascii "eEfFgG").contains letter then .float (Literal.leadingReal arg)
  else .integer (integerOf arg)

/-- Writes one argument by a specification such as `%5d`. -/
def convert (flags : Text) (letter : UInt8) (arg : Text) : Text :=
  let letter' := if letter == ch 'b' || letter == ch 'c' then ch 's' else letter
  let arg := if letter == ch 'b' then unescape (arg.length + 1) arg else arg
  match Value.format [.string (ch '%' :: flags ++ [letter']), argumentFor letter arg] with
  | .ok (.string t) => t
  | _ => []

/-- One use of the format: what it writes, the arguments it leaves, and whether it took any. -/
def once : Nat → Text → List Text → Text × List Text × Bool
  | 0, _, args => ([], args, false)
  | _ + 1, [], args => ([], args, false)
  | fuel + 1, b :: rest, args =>
    let emit (written : Text) (rest : Text) (args : List Text) (took : Bool) :
        Text × List Text × Bool :=
      let (more, left, tookMore) := once fuel rest args
      (written ++ more, left, took || tookMore)
    if b == ch '\\' then
      let (bytes, after) := readEscape rest
      emit bytes after args false
    else if b == ch '%' then
      let flags := rest.takeWhile fun c => !Byte.isAlpha c && c != ch '%'
      match rest.drop flags.length with
      | [] => emit (b :: flags) [] args false
      | letter :: after =>
        if letter == ch '%' then emit [b] after args false
        else emit (convert flags letter (args.headD [])) after (args.drop 1) true
    else emit [b] rest args false

/-- Uses the format until no argument is left. -/
def write : Nat → Text → List Text → Text
  | 0, _, _ => []
  | fuel + 1, format, args =>
    let (written, left, took) := once (format.length + 1) format args
    if left.isEmpty || !took then written else written ++ write fuel format left

def output (format : Text) (args : List Text) : Text := write (args.length + 1) format args

end TagFormula.Host.Printf

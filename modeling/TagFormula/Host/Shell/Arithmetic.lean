import TagFormula.Dictionary

/-! Integer expressions of the shell: the four operations, remainder, shifts, comparisons and
variables. -/

namespace TagFormula.Host.Shell

/-- The operators of each level, the loosest first, longer signs before their beginnings. -/
def arithmeticLevels : List (List String) :=
  [["==", "!="], ["<=", ">=", "<", ">"], ["<<", ">>"], ["+", "-"], ["*", "/", "%"]]

def applyOperator (op : String) (a b : Int) : Int :=
  let truth (p : Bool) : Int := if p then 1 else 0
  match op with
  | "==" => truth (a == b)
  | "!=" => truth (a != b)
  | "<=" => truth (a ≤ b)
  | ">=" => truth (b ≤ a)
  | "<" => truth (a < b)
  | ">" => truth (b < a)
  | "<<" => a * Nat.pow 2 (b.toNat % 64)
  | ">>" => a / Nat.pow 2 (b.toNat % 64)
  | "+" => a + b
  | "-" => a - b
  | "*" => a * b
  | "/" => a.tdiv b
  | _ => a.tmod b

/-- The value of a decimal text; other text is zero. -/
def integerOf (t : Text) : Int :=
  match t with
  | b :: rest => if b == ch '-' then -(Text.natValue rest : Int) else Text.natValue t
  | [] => 0

mutual
/-- An operand: a number, a variable, a negation or an expression in parentheses. -/
def readOperand (vars : Text → Text) : Nat → Text → Option (Int × Text)
  | 0, _ => none
  | fuel + 1, t =>
    match Text.dropSpaces t with
    | [] => none
    | b :: rest =>
      if b == ch '-' then (readOperand vars fuel rest).map fun (n, after) => (-n, after)
      else if b == ch '(' then do
        let (n, after) ← readLevel vars arithmeticLevels fuel rest
        match Text.dropSpaces after with
        | c :: after => if c == ch ')' then some (n, after) else none
        | [] => none
      else
        let name := (b :: rest).takeWhile Byte.isWord
        let after := (b :: rest).dropWhile Byte.isWord
        if name.isEmpty then none
        else if Byte.isDigit b then some (integerOf name, after)
        else some (integerOf (vars name), after)

/-- An expression of a level: operands of the tighter ones with this level's operators. -/
def readLevel (vars : Text → Text) (levels : List (List String)) : Nat → Text → Option (Int × Text)
  | 0, _ => none
  | fuel + 1, t =>
    match levels with
    | [] => readOperand vars fuel t
    | ops :: tighter => do
      let (n, after) ← readLevel vars tighter fuel t
      readMore vars ops tighter fuel n after

/-- More operands of a level behind a value. -/
def readMore (vars : Text → Text) (ops : List String) (tighter : List (List String)) :
    Nat → Int → Text → Option (Int × Text)
  | 0, _, _ => none
  | fuel + 1, n, t =>
    let t := Text.dropSpaces t
    match ops.find? fun op => (ascii op).isPrefixOf t with
    | none => some (n, t)
    | some op => do
      let (k, after) ← readLevel vars tighter fuel (t.drop op.length)
      readMore vars ops tighter fuel (applyOperator op n k) after
end

/-- The value of an expression, zero if it has no such form. -/
def evaluate (vars : Text → Text) (t : Text) : Int :=
  match readLevel vars arithmeticLevels (4 * t.length + 16) t with
  | some (n, _) => n
  | none => 0

end TagFormula.Host.Shell

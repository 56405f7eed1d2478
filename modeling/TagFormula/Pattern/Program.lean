import TagFormula.Pattern.Regex

/-!
Patterns as programs for a backtracking search. Each instruction names its successors by address; an
expression is laid out from its end to its start, so that a successor is known before it is needed.
-/

namespace TagFormula.Pattern

inductive Instruction where
  | test (t : ByteTest) (next : Nat)
  | lineStart (next : Nat)
  | lineEnd (next : Nat)
  | wordBoundary (negated : Bool) (next : Nat)
  /-- Runs the program at `body` without moving. -/
  | lookahead (negated : Bool) (body next : Nat)
  | openGroup (index next : Nat)
  | closeGroup (index next : Nat)
  | groupText (index next : Nat)
  | either (first second : Nat)
  /-- Goes to `more` or to `exit`; a greedy one tries `more` first. -/
  | loop (lazy : Bool) (more exit : Nat)
  | found
  deriving DecidableEq, Repr

abbrev Code := Array Instruction

/-- Adds an instruction and gives its address. -/
def Code.add (code : Code) (i : Instruction) : Nat × Code := (code.size, code.push i)

/-- Lays out `n` copies in front of `next`. -/
def copies (layout : Nat → Code → Nat × Code) : Nat → Nat → Code → Nat × Code
  | 0, next, code => (next, code)
  | n + 1, next, code =>
    let (entry, code) := copies layout n next code
    layout entry code

/-- Lays out up to `n` copies, each of which may leave for `exit`. -/
def optionalCopies (layout : Nat → Code → Nat × Code) (lazy : Bool) (exit : Nat) :
    Nat → Code → Nat × Code
  | 0, code => (exit, code)
  | n + 1, code =>
    let (rest, code) := optionalCopies layout lazy exit n code
    let (body, code) := layout rest code
    code.add (.loop lazy body exit)

/-- Lays out a loop: its address, its body's entry, and the code. -/
def looped (layout : Nat → Code → Nat × Code) (lazy : Bool) (next : Nat) (code : Code) :
    Nat × Nat × Code :=
  let (head, code) := code.add (.loop lazy 0 next)
  let (body, code) := layout head code
  (head, body, code.setIfInBounds head (.loop lazy body next))

/-- Lays out an expression in front of `next` and gives its entry. -/
def Regex.layout : Regex → Nat → Code → Nat × Code
  | .empty, next, code => (next, code)
  | .test t, next, code => code.add (.test t next)
  | .lineStart, next, code => code.add (.lineStart next)
  | .lineEnd, next, code => code.add (.lineEnd next)
  | .wordBoundary negated, next, code => code.add (.wordBoundary negated next)
  | .lookahead negated e, next, code =>
    let (stop, code) := code.add .found
    let (body, code) := e.layout stop code
    code.add (.lookahead negated body next)
  | .group index e, next, code =>
    let (close, code) := code.add (.closeGroup index next)
    let (body, code) := e.layout close code
    code.add (.openGroup index body)
  | .groupText index, next, code => code.add (.groupText index next)
  | .seq a b, next, code =>
    let (second, code) := b.layout next code
    a.layout second code
  | .either a b, next, code =>
    let (first, code) := a.layout next code
    let (second, code) := b.layout next code
    code.add (.either first second)
  | .star lazy e, next, code =>
    let (head, _, code) := looped e.layout lazy next code
    (head, code)
  | .plus lazy e, next, code =>
    let (_, body, code) := looped e.layout lazy next code
    (body, code)
  | .option lazy e, next, code =>
    let (body, code) := e.layout next code
    code.add (.loop lazy body next)
  | .bounded lazy min none e, next, code =>
    let (head, _, code) := looped e.layout lazy next code
    copies e.layout min head code
  | .bounded lazy min (some extra) e, next, code =>
    let (rest, code) := optionalCopies e.layout lazy next extra code
    copies e.layout min rest code

/-- A pattern ready to search with. -/
structure Program where
  code : Code
  start : Nat
  groups : Nat
  fold : Bool

/-- The program of a pattern; `fold` makes letter case irrelevant. -/
def Program.compile (fold : Bool) (t : Text) : Except PatternFault Program := do
  let (e, groups) ← Regex.parse fold t
  let (stop, code) := Code.add #[] .found
  let (start, code) := e.layout stop code
  return ⟨code, start, groups, fold⟩

end TagFormula.Pattern

import TagFormula.Pattern.Program

/-!
Backtracking search. Choices are tried in order and the first way to the end wins. At one position a
loop goes round at most twice, which is enough and keeps it from turning on the spot.
-/

namespace TagFormula.Pattern

/-- What a group has matched. -/
structure Capture where
  start : Nat := 0
  stop : Nat := 0
  matched : Bool := false
  deriving DecidableEq, Repr

abbrev Captures := Array Capture

/-- A run from one position: the subject, where the run begins, and whether the byte before that
counts as a neighbour. -/
structure Run where
  program : Program
  subject : Array UInt8
  origin : Nat
  hasNeighbour : Bool

/-- How a run ends: the captures of the first match, and the captures as they stand afterwards. What
a lookahead captured stays, also when the way behind it fails. -/
structure Outcome where
  found : Option Captures
  captures : Captures

namespace Run

def isWordAt (r : Run) (i : Nat) : Bool := (r.subject[i]?).any Byte.isWord

def atWordBoundary (r : Run) (pos : Nat) : Bool :=
  let before := (pos != r.origin || r.hasNeighbour) && r.isWordAt (pos - 1)
  before != r.isWordAt pos

/-- The text of a captured group. -/
def captured (r : Run) (c : Capture) : List UInt8 := (r.subject.extract c.start c.stop).toList

/-- Whether the subject goes on with a text. -/
def continuesWith (r : Run) (pos : Nat) (t : List UInt8) : Bool :=
  let here := (r.subject.extract pos (pos + t.length)).toList
  if r.program.fold then Text.toLower here == Text.toLower t else here == t

/-- Tries to reach the end of the program from an address and a position. `turns` counts how often
each loop went round at this position. -/
def go : Nat → Run → Nat → Nat → List (Nat × Nat) → Captures → Outcome
  | 0, _, _, _, _, captures => ⟨none, captures⟩
  | fuel + 1, r, address, pos, turns, captures =>
    match r.program.code[address]? with
    | none => ⟨none, captures⟩
    | some .found => ⟨some captures, captures⟩
    | some (.test t next) =>
      if (r.subject[pos]?).any fun b => t.accepts r.program.fold b then
        go fuel r next (pos + 1) [] captures
      else ⟨none, captures⟩
    | some (.lineStart next) =>
      if pos = r.origin ∧ !r.hasNeighbour then go fuel r next pos turns captures
      else ⟨none, captures⟩
    | some (.lineEnd next) =>
      if pos = r.subject.size then go fuel r next pos turns captures else ⟨none, captures⟩
    | some (.wordBoundary negated next) =>
      if r.atWordBoundary pos != negated then go fuel r next pos turns captures
      else ⟨none, captures⟩
    | some (.lookahead negated body next) =>
      let inner := (go fuel { r with origin := pos } body pos [] captures).found
      let captures := match inner with
        | some seen => captures.zipWith (fun old new => if new.matched then new else old) seen
        | none => captures
      if inner.isSome != negated then go fuel r next pos turns captures else ⟨none, captures⟩
    | some (.openGroup index next) =>
      let before := captures[index]?.getD {}
      let inner := captures.setIfInBounds index { before with start := pos }
      let outcome := go fuel r next pos turns inner
      let after := outcome.captures[index]?.getD {}
      { outcome with
        captures := outcome.captures.setIfInBounds index { after with start := before.start } }
    | some (.closeGroup index next) =>
      let before := captures[index]?.getD {}
      let inner := captures.setIfInBounds index { before with stop := pos, matched := true }
      let outcome := go fuel r next pos turns inner
      { outcome with captures := outcome.captures.setIfInBounds index before }
    | some (.groupText index next) =>
      let group := captures[index]?.getD {}
      let text := r.captured group
      if group.matched && r.continuesWith pos text then
        go fuel r next (pos + text.length) (if text.isEmpty then turns else []) captures
      else ⟨none, captures⟩
    | some (.either first second) =>
      let outcome := go fuel r first pos turns captures
      if outcome.found.isSome then outcome else go fuel r second pos turns outcome.captures
    | some (.loop lazy more exit) =>
      let count := (turns.lookup address).getD 0
      let again (captures : Captures) : Outcome :=
        if count < 2 then go fuel r more pos ((address, count + 1) :: turns) captures
        else ⟨none, captures⟩
      if lazy then
        let outcome := go fuel r exit pos turns captures
        if outcome.found.isSome then outcome else again outcome.captures
      else
        let outcome := again captures
        if outcome.found.isSome then outcome else go fuel r exit pos turns outcome.captures

end Run

namespace Program

/-- Bounds the length of a way through the program: at each position every loop goes round twice at
most, and a lookahead starts over. -/
def fuel (p : Program) (size : Nat) : Nat :=
  (size + 1) * (2 * p.code.size + 1) * (p.code.size + 1) * (p.code.size + 1) + 1

/-- Whether the pattern matches from a position on. -/
def matchesAt (p : Program) (subject : Array UInt8) (pos : Nat) : Bool :=
  let run : Run := ⟨p, subject, pos, pos != 0⟩
  (run.go (p.fuel subject.size) p.start pos [] (Array.replicate p.groups {})).found.isSome

/-- Whether the pattern matches anywhere in a text. -/
def matchesIn (p : Program) (t : Text) : Bool :=
  let subject := t.toArray
  (List.range (subject.size + 1)).any (p.matchesAt subject)

end Program
end TagFormula.Pattern

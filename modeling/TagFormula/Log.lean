import TagFormula.Text.Basic

/-! Messages about the work: warnings always, the others from their level on. -/

namespace TagFormula.Log

/-- How much is reported; each level includes those before it. -/
inductive Level where
  | warn
  | debug
  | trace
  deriving DecidableEq, Repr

namespace Level

def rank : Level → Nat
  | .warn => 0
  | .debug => 1
  | .trace => 2

/-- The word in front of a message. -/
def tag : Level → Text
  | .warn => ascii "warning"
  | .debug => ascii "debug"
  | .trace => ascii "trace"

/-- The level a setting names, blanks and case aside. -/
def ofName? (t : Text) : Option Level :=
  let name := Text.toLower (Text.trim t)
  if name == ascii "warn" || name == ascii "warning" then some .warn
  else if name == ascii "debug" then some .debug
  else if name == ascii "trace" then some .trace
  else none

/-- Whether messages of a level are reported at this one. -/
def enables (current level : Level) : Bool := level.rank ≤ current.rank

end Level

/-- A message as a line, without its newline. -/
def line (level : Level) (message : Text) : Text :=
  ascii "tagconv: " ++ level.tag ++ ascii ": " ++ message

/-- What a message of some level adds to the report: a line, if the level is enabled. -/
def report (current level : Level) (message : Text) : Text :=
  if current.enables level then line level message ++ ascii "\n" else []

end TagFormula.Log

import TagFormula.Formula

/-!
The boundary at which a compiled formula is called. It answers with a status, a value only if that is
`ok`, and otherwise a message in a buffer that the caller provides.
-/

namespace TagFormula

/-- The kinds of exception that end a computation. -/
inductive ExceptionKind where
  | conversion
  | type
  | other
  deriving DecidableEq, Repr

structure Exception where
  kind : ExceptionKind
  message : Text
  deriving DecidableEq, Repr

def Fault.toException (f : Fault) : Exception :=
  match f.family with
  | .conversion => ⟨.conversion, f.message⟩
  | .type => ⟨.type, f.message⟩

namespace Entry

inductive Status where
  | ok
  | conversionFailed
  | typeError
  | internalError
  deriving DecidableEq, Repr

def Status.code : Status → Nat
  | .ok => 0
  | .conversionFailed => 1
  | .typeError => 2
  | .internalError => 3

def Status.ofKind : ExceptionKind → Status
  | .conversion => .conversionFailed
  | .type => .typeError
  | .other => .internalError

/-- What a call leaves behind. -/
structure Answer where
  status : Status
  value : Option Value
  buffer : Text

/-- Writes a message into a buffer: up to its first zero byte, cut so that a zero byte still fits
behind it, and filled up with zeros. -/
def writeMessage (message buffer : Text) : Text :=
  match buffer.length with
  | 0 => []
  | n + 1 =>
    let shown := message.upToZero.take n
    shown ++ List.replicate (n + 1 - shown.length) 0

/-- Calls a computation. Without a place for the value nothing is computed. -/
def run (hasPlace : Bool) (buffer : Text) (body : Except Exception Value) : Answer :=
  if !hasPlace then
    ⟨.internalError, none, writeMessage (ascii "out_value must not be null") buffer⟩
  else
    match body with
    | .ok v => ⟨.ok, some v, buffer⟩
    | .error e => ⟨.ofKind e.kind, none, writeMessage e.message buffer⟩

/-- The result of a value conversion: a failed conversion is a result of its own. -/
abbrev Conversion := Except Text Value

/-- Calls a value conversion. -/
def valueConv (hasPlace : Bool) (buffer : Text) (f : Except Exception Conversion) : Answer :=
  run hasPlace buffer do
    match ← f with
    | .ok v => .ok v
    | .error message => .error ⟨.conversion, message⟩

/-- Calls a conversion for printing. -/
def printConv (hasPlace : Bool) (buffer : Text) (f : Except Exception Value) : Answer :=
  run hasPlace buffer f

/-- Calls a condition; it answers with 1 or 0. -/
def condition (hasPlace : Bool) (buffer : Text) (f : Except Exception Bool) : Answer :=
  run hasPlace buffer (return Value.bool (← f))

/-- A computation in the shape of a value conversion. -/
def asValueConv : Except Exception Value → Except Exception Conversion
  | .ok v => .ok (.ok v)
  | .error e => if e.kind = .conversion then .ok (.error e.message.upToZero) else .error e

/-- A computation in the shape of a condition. -/
def asCondition (body : Except Exception Value) : Except Exception Bool := return (← body).truthy

/-- Calls a computation in the shape that its role gives it. -/
def call (role : Role) (hasPlace : Bool) (buffer : Text) (body : Except Exception Value) : Answer :=
  match role with
  | .valueConv => valueConv hasPlace buffer (asValueConv body)
  | .printConv => printConv hasPlace buffer body
  | .condition => condition hasPlace buffer (asCondition body)

/-- The text in a buffer. -/
def Answer.message (a : Answer) : Text := a.buffer.upToZero

end Entry
end TagFormula

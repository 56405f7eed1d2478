import TagFormula.Report.Basic

/-! Reports as text, with all that is known about formulas that failed and counts at the end. -/

namespace TagFormula.Report

/-- Each line of a text, indented by four spaces. -/
def indented (t : Text) : Text := Text.unlines ((Text.lines t).map (ascii "    " ++ ·))

/-- A heading with an indented text below it; nothing if the text is empty. -/
def labelled (heading : String) (t : Text) : Text :=
  if t.isEmpty then [] else ascii heading ++ ascii "\n" ++ indented t

def Unreadable.toText (u : Unreadable) : Text :=
  ascii "ERROR " ++ u.path ++ ascii ": " ++ u.message ++ ascii "\n"

def Outcome.toText (o : Outcome) : Text :=
  if o.passed then []
  else
    let actual := match o.actual with
      | some v => ascii "    actual:   " ++ v.describe ++ ascii "\n"
      | none => []
    let error :=
      if o.error.isEmpty then [] else ascii "    error:    " ++ o.error ++ ascii "\n"
    ascii "  case \"" ++ o.description ++ ascii "\"\n"
      ++ ascii "    input:    " ++ o.input.describe ++ ascii "\n"
      ++ ascii "    expected: " ++ o.expected.describe ++ ascii "\n" ++ actual ++ error

/-- The first line of an item. -/
def Item.headline (item : Item) : Text :=
  let source := if item.source.isEmpty then [] else ascii "  (" ++ item.source ++ ascii ")"
  ascii (if item.passed then "PASS " else "FAIL ") ++ item.formula.role.name ++ ascii " "
    ++ item.formula.text ++ source ++ ascii "\n"

def Item.toText (item : Item) : Text :=
  if item.passed then
    match item.errorKind with
    | some kind => item.headline ++ ascii "  expected generation error: " ++ kind.name ++ ascii "\n"
    | none => item.headline
  else
    item.headline ++ ascii "  status: " ++ item.status.name ++ ascii "\n"
      ++ labelled "  error:" item.error ++ item.outcomes.flatMap Outcome.toText
      ++ labelled "  generated:" item.generated

/-- The last line. -/
def summary (r : Report) : Text :=
  let unreadable :=
    if r.unreadable.isEmpty then []
    else ascii ", " ++ Text.ofNat r.unreadable.length ++ ascii " unreadable"
  Text.ofNat r.passedCount ++ ascii " passed, " ++ Text.ofNat r.failedCount ++ ascii " failed"
    ++ unreadable ++ ascii "\n"

def toText (r : Report) : Text :=
  r.unreadable.flatMap Unreadable.toText ++ r.items.flatMap Item.toText ++ r.summary

end TagFormula.Report

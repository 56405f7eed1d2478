import TagFormula.Text.Basic

/-! Commands as lines of text: an argument with blanks or quotes, or an empty one, stands in single
quotes. -/

namespace TagFormula.Command

/-- Whether an argument can stand without quotes. -/
def isPlain (arg : Text) : Bool :=
  !arg.isEmpty && !arg.any fun b => (ascii " \t\"'").contains b

/-- A byte between single quotes; a quote ends them, stands escaped, and opens them again. -/
def quoteByte (b : UInt8) : Text := if b == ch '\'' then ascii "'\\''" else [b]

def word (arg : Text) : Text :=
  if isPlain arg then arg else ch '\'' :: arg.flatMap quoteByte ++ [ch '\'']

/-- Adds an argument to a line, behind a space if the line has text. -/
def addWord (line arg : Text) : Text := (if line.isEmpty then line else line ++ ascii " ") ++ word arg

def toText (argv : List Text) : Text := argv.foldl addWord []

end TagFormula.Command

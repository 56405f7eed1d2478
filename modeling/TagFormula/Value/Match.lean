import TagFormula.Pattern.Search
import TagFormula.Value.View

/-!
Matching a value against a pattern with modifiers. `\A` and `\z` anchor a pattern at the ends of the
subject, as `^` and `$` do.
-/

namespace TagFormula

namespace Pattern

/-- Replaces the absolute anchors, wherever they stand. -/
def plainAnchors : Text → Text
  | b :: e :: rest =>
    if b != ch '\\' then b :: plainAnchors (e :: rest)
    else if e == ch 'A' then ch '^' :: plainAnchors rest
    else if e == ch 'z' || e == ch 'Z' then ch '$' :: plainAnchors rest
    else b :: e :: plainAnchors rest
  | t => t

/-- Compiles a pattern. Of the modifiers, `i` folds letter case and `g` and `o` change nothing. -/
def compile (pattern modifiers : Text) : Except Fault Program := do
  match modifiers.find? fun m => !(ascii "igo").contains m with
  | some m => throw (.unknownModifier m)
  | none =>
    match Program.compile (modifiers.contains (ch 'i')) (plainAnchors pattern) with
    | .ok program => return program
    | .error cause => throw (.badPattern pattern cause)

end Pattern

/-- Whether a pattern occurs in the text of a value. -/
def Value.isMatch (subject : Value) (program : Pattern.Program) : Except Fault Value :=
  return .bool (program.matchesIn (← subject.toText))

end TagFormula

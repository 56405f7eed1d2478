import TagFormula.Text.Basic

/-! Why a search pattern is rejected, and the text that says so. -/

namespace TagFormula

/-- Why a pattern is rejected. -/
inductive PatternFault where
  /-- A parenthesis without its partner, or a quantifier with nothing to repeat. -/
  | parenthesis
  /-- `(?` with neither `:`, `=` nor `!` behind it. -/
  | assertion
  /-- A bracket that is not closed. -/
  | bracket
  /-- `[[` at the end. -/
  | cutClass
  /-- `[:` without `:]`. -/
  | openClass
  /-- `[.` or `[=` without its end. -/
  | openCollation
  | className
  | collationName
  | equivalenceName
  | range
  | rangeStart
  | rangeEnd
  | brace
  | braceContent
  | missingGroup
  | openGroup
  | escapeAtEnd
  | escapeInBracket
  | controlEscape
  | hexEscape
  | unicodeEscape
  | tooLarge
  deriving DecidableEq, Repr

def PatternFault.message : PatternFault → Text
  | .parenthesis => ascii "Mismatched '(' and ')' in regular expression"
  | .assertion => ascii "Invalid '(?...)' zero-width assertion in regular expression"
  | .bracket => ascii "Unexpected character within '[...]' in regular expression"
  | .cutClass => ascii "Incomplete '[[' character class in regular expression"
  | .openClass => ascii "Invalid character class in regular expression"
  | .openCollation => ascii "Invalid collating element in regular expression"
  | .className => ascii "Invalid character class."
  | .collationName => ascii "Invalid collate element."
  | .equivalenceName => ascii "Invalid equivalence class."
  | .range => ascii "Invalid range in bracket expression."
  | .rangeStart => ascii "Invalid start of '[x-x]' range in regular expression"
  | .rangeEnd => ascii "Invalid end of '[x-x]' range in regular expression"
  | .brace => ascii "Mismatched '\x7b' and '\x7d' in regular expression"
  | .braceContent => ascii "Invalid range in '\x7b\x7d' in regular expression"
  | .missingGroup => ascii "Back-reference index exceeds current sub-expression count."
  | .openGroup => ascii "Back-reference referred to an opened sub-expression."
  | .escapeAtEnd => ascii "Invalid escape at end of regular expression"
  | .escapeInBracket => ascii "Invalid escape in regular expression"
  | .controlEscape => ascii "invalid '\\cX' control character in regular expression"
  | .hexEscape => ascii "Invalid '\\xNN' control character in regular expression"
  | .unicodeEscape => ascii "Invalid '\\uNNNN' control character in regular expression"
  | .tooLarge =>
    ascii "Number of NFA states exceeds limit. Please use shorter regex string, or use smaller "
      ++ ascii "brace expression, or make _GLIBCXX_REGEX_STATE_LIMIT larger."

end TagFormula

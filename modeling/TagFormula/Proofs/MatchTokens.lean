import TagFormula.Proofs.RoundLimit

/-!
Match tokens and the patterns in them. A delimiter inside a pattern is written with a backslash, which the reader
takes away again unless the delimiter is punctuation of patterns. Main statement: a token gives back the pattern
and the flags that it was written from.
-/

namespace TagFormula

namespace Matcher

/-- A byte that may stand at both ends of a pattern. -/
structure Delimiter where
  byte : UInt8
  isAlnum_byte : Byte.isAlnum byte = false
  isSpace_byte : Byte.isSpace byte = false
  byte_ne_backslash : byte ≠ ch '\\'
  byte_notMem_openers : byte ∉ ascii "([\x7b<"

/-- A part of a pattern that is written between two delimiters. -/
inductive Part (q : Delimiter) where
  | plain (b : UInt8) (h : b ∉ [ch '\\', ch '$', ch '@', q.byte])
  | escape (c : UInt8) (h : c ≠ q.byte)
  | delimiter (h : q.byte ∉ ascii "^$.|?*+()[]\x7b\x7d")

variable {q : Delimiter}

/-- The part in the pattern. -/
def Part.pattern : Part q → Text
  | .plain b _ => [b]
  | .escape c _ => [ch '\\', c]
  | .delimiter _ => [q.byte]

/-- The part between the delimiters of a token. -/
def Part.written : Part q → Text
  | .plain b _ => [b]
  | .escape c _ => [ch '\\', c]
  | .delimiter _ => [ch '\\', q.byte]

def patternOf (parts : List (Part q)) : Text := parts.flatMap Part.pattern

/-- A pattern between delimiters, and flags behind it. -/
def enclosed (parts : List (Part q)) (flags : Text) : Text :=
  q.byte :: (parts.flatMap Part.written ++ q.byte :: flags)

/-! ### Reading a pattern -/

theorem closer_delimiter (q : Delimiter) : closer q.byte = q.byte := by
  have h : q.byte ∉ [ch '(', ch '[', ch '\x7b', ch '<'] := q.byte_notMem_openers
  simp only [List.mem_cons, List.not_mem_nil, or_false, not_or] at h
  simp [closer, h]

theorem nested_delimiter (q : Delimiter) (b : UInt8) (depth : Nat) : nested q.byte b depth = depth := by
  rw [nested, closer_delimiter, if_pos (beq_self_eq_true _)]

/-- A byte behind a backslash keeps the backslash, unless it is the delimiter. -/
theorem escape_of_ne {c : UInt8} (h : c ≠ q.byte) : escape q.byte c = [ch '\\', c] := by
  rw [escape, closer_delimiter, Bool.or_self, beq_false_of_ne h]
  rfl

theorem escape_delimiter (h : q.byte ∉ ascii "^$.|?*+()[]\x7b\x7d") : escape q.byte q.byte = [q.byte] := by
  have hplain : isPunctuation q.byte = false := by
    have hsplit : ascii "\\^$.|?*+()[]\x7b\x7d" = ch '\\' :: ascii "^$.|?*+()[]\x7b\x7d" := rfl
    rw [isPunctuation, hsplit, List.contains_eq_mem]
    simpa [q.byte_ne_backslash] using h
  simp [escape, hplain]

/-- A pattern goes up to the first delimiter without a backslash. -/
theorem readPattern?_delimiter (q : Delimiter) (after : Text) :
    readPattern? q.byte 0 (q.byte :: after) = some ([], after) := by
  have hbackslash := beq_false_of_ne q.byte_ne_backslash
  cases after with
  | nil => simp [readPattern?, closer_delimiter]
  | cons e after => simp [readPattern?, closer_delimiter, hbackslash]

theorem readPattern?_plain {b : UInt8} (h : b ∉ [ch '\\', ch '$', ch '@', q.byte]) {rest : Text}
    (hrest : rest ≠ []) :
    readPattern? q.byte 0 (b :: rest)
      = (readPattern? q.byte 0 rest).map fun r => (b :: r.1, r.2) := by
  simp only [List.mem_cons, List.not_mem_nil, or_false, not_or] at h
  obtain ⟨hbackslash, hdollar, hat, hdelimiter⟩ := h
  cases rest with
  | nil => exact absurd rfl hrest
  | cons e rest =>
    have hvariable : interpolates q.byte b (e :: rest) = false := by
      simp [interpolates, Quoted.interpolates, hdollar, hat]
    simp [readPattern?, closer_delimiter, nested_delimiter, hbackslash, hdelimiter, hvariable]

theorem readPattern?_backslash (q : Delimiter) (e : UInt8) (rest : Text) :
    readPattern? q.byte 0 (ch '\\' :: e :: rest)
      = (readPattern? q.byte 0 rest).map fun r => (escape q.byte e ++ r.1, r.2) := by
  rw [readPattern?, if_pos (beq_self_eq_true _)]

/-- Each part is read as it stands in the pattern. -/
theorem readPattern?_part (part : Part q) {rest : Text} (hrest : rest ≠ []) :
    readPattern? q.byte 0 (part.written ++ rest)
      = (readPattern? q.byte 0 rest).map fun r => (part.pattern ++ r.1, r.2) := by
  cases part with
  | plain b h => exact readPattern?_plain h hrest
  | escape c h =>
    have hread := readPattern?_backslash q c rest
    rwa [escape_of_ne h] at hread
  | delimiter h =>
    have hread := readPattern?_backslash q q.byte rest
    rwa [escape_delimiter h] at hread

theorem readPattern?_parts (parts : List (Part q)) (after : Text) :
    readPattern? q.byte 0 (parts.flatMap Part.written ++ q.byte :: after) = some (patternOf parts, after) := by
  induction parts with
  | nil => exact readPattern?_delimiter q after
  | cons part parts ih =>
    rw [List.flatMap_cons, List.append_assoc, readPattern?_part part (by simp), ih]
    rfl

/-- The delimiter stands behind `m`, or it is a slash. -/
theorem read?_enclosed (parts : List (Part q)) {flags content : Text} (hflags : ∀ b ∈ flags, Byte.isAlpha b)
    (h : content = ch 'm' :: enclosed parts flags ∨ q.byte = ch '/' ∧ content = enclosed parts flags) :
    read? content = some (patternOf parts, flags) := by
  have hopen : open? content = some (q.byte, parts.flatMap Part.written ++ q.byte :: flags) := by
    rcases h with rfl | ⟨hslash, rfl⟩
    · simp [open?, enclosed, q.isAlnum_byte, q.isSpace_byte]
    · rw [enclosed, hslash]
      rfl
  simp only [read?, hopen, readPattern?_parts, Option.bind_eq_bind, Option.bind_some,
    if_pos (List.all_eq_true.2 hflags)]

/-- A match token gives back its pattern and its flags, as a match that waits for a subject. -/
theorem normalize_enclosed (q : Delimiter) (parts : List (Part q)) (flags : Text)
    (hflags : ∀ b ∈ flags, Byte.isAlpha b) (t : Token) (hkind : t.kind = .regexp)
    (hcontent : t.content = ch 'm' :: enclosed parts flags ∨
      q.byte = ch '/' ∧ t.content = enclosed parts flags) (below : List Expr) :
    Rule.leaf.reduce? (.group t below) = some (.regexMatch .hole (patternOf parts) flags false) ∧
      Rule.normalize Rule.standard (.group t below) = .regexMatch .hole (patternOf parts) flags false := by
  have hleaf : ∀ below, Rule.leaf.reduce? (.group t below)
      = some (.regexMatch .hole (patternOf parts) flags false) := by
    intro below
    simp only [Rule.leaf, Leaf.reduce?, hkind, read?_enclosed parts hflags hcontent, Option.map_some]
  exact ⟨hleaf below, Rule.normalizeWithin_of_leaf hleaf rfl rfl Rule.maxDepth below⟩

/-- The pattern `\d#\$` between hashes: only the hash loses its backslash. -/
theorem normalize_enclosed_hash :
    let t : Token := ⟨.regexp, [], ascii "m#\\d\\#\\$#gi", [], none⟩
    (∀ b ∈ ascii "gi", Byte.isAlpha b) ∧ t.kind = .regexp ∧
      Rule.leaf.reduce? (.group t []) = some (.regexMatch .hole (ascii "\\d#\\$") (ascii "gi") false) ∧
      Rule.normalize Rule.standard (.group t []) = .regexMatch .hole (ascii "\\d#\\$") (ascii "gi") false := by
  intro t
  let hash : Delimiter := ⟨ch '#', by decide, by decide, by decide, by decide⟩
  let parts : List (Part hash) := [.escape (ch 'd') (by decide), .delimiter (by decide), .escape (ch '$') (by decide)]
  have hflags : ∀ b ∈ ascii "gi", Byte.isAlpha b := List.all_eq_true.1 (by decide)
  exact ⟨hflags, rfl, normalize_enclosed hash parts (ascii "gi") hflags t rfl (Or.inl rfl) []⟩

end Matcher

end TagFormula

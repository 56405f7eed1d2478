import TagFormula.Proofs.RadixRoundTrip
import TagFormula.Proofs.ReadingBack
import TagFormula.Proofs.Regrouping
import TagFormula.Proofs.RoundLimit

/-!
Text between double quotes, as a sequence of pieces: bytes that stand for themselves, and escapes. Main statement: a
token made of pieces stands for their bytes, one for each piece, and a token in which a variable follows the pieces
stays as it is.
-/

namespace TagFormula

namespace Text

theorem valueIn_pair_lt (high low : UInt8) : valueIn 16 [high, low] < 256 := by
  have hdigit : ∀ b : UInt8, (Byte.digitValue? 16 b).getD 0 < 16 := by
    intro b
    cases hb : Byte.digitValue? 16 b with
    | none => decide
    | some d => exact Byte.lt_of_digitValue? hb
  have hhigh := hdigit high
  have hlow := hdigit low
  have hvalue : valueIn 16 [high, low]
      = 16 * (Byte.digitValue? 16 high).getD 0 + (Byte.digitValue? 16 low).getD 0 := by
    rw [show [high, low] = [high] ++ [low] from rfl, valueIn_concat]
    simp [valueIn]
  omega

end Text

namespace Quoted

/-- A byte that the name of a variable starts with. -/
def StartsName (b : UInt8) : Prop := Byte.isAlpha b ∨ b ∈ ascii "_\x7b:$"

instance (b : UInt8) : Decidable (StartsName b) :=
  inferInstanceAs (Decidable (Byte.isAlpha b ∨ b ∈ ascii "_\x7b:$"))

/-- A text that starts with a variable. -/
def OpensVariable : Text → Prop
  | sigil :: next :: _ => (sigil = ch '$' ∨ sigil = ch '@') ∧ StartsName next
  | _ => False

/-- Letters with a meaning of their own behind a backslash. -/
inductive Control where
  | newline
  | tab
  | carriageReturn
  | null
  | bell
  | escape

def Control.letter : Control → UInt8
  | .newline => ch 'n'
  | .tab => ch 't'
  | .carriageReturn => ch 'r'
  | .null => ch '0'
  | .bell => ch 'a'
  | .escape => ch 'e'

def Control.byte : Control → UInt8
  | .newline => 0x0a
  | .tab => 0x09
  | .carriageReturn => 0x0d
  | .null => 0x00
  | .bell => 0x07
  | .escape => 0x1b

/-- What stands for one byte between double quotes. -/
inductive Piece where
  | plain (b : UInt8) (h : b ∉ [ch '\\', ch '$', ch '@'])
  /-- A `$` or `@` that starts no variable. -/
  | sigil (b : UInt8) (h : b = ch '$' ∨ b = ch '@')
  | control (c : Control)
  | hex (high low : UInt8) (hhigh : Byte.isHexDigit high) (hlow : Byte.isHexDigit low)
  | bracedHex (digits : Text) (hne : digits ≠ []) (hdigits : ∀ b ∈ digits, Byte.isHexDigit b)
      (hvalue : Text.valueIn 16 digits ≤ 255)
  | escaped (b : UInt8) (h : b ∉ ascii "ntr0aex")

namespace Piece

/-- The piece between the quotes. -/
def written : Piece → Text
  | .plain b _ => [b]
  | .sigil b _ => [b]
  | .control c => [ch '\\', c.letter]
  | .hex high low _ _ => [ch '\\', ch 'x', high, low]
  | .bracedHex digits _ _ _ => ch '\\' :: ch 'x' :: ch '\x7b' :: (digits ++ [ch '\x7d'])
  | .escaped b _ => [ch '\\', b]

/-- The byte it stands for. -/
def byte : Piece → UInt8
  | .plain b _ => b
  | .sigil b _ => b
  | .control c => c.byte
  | .hex high low _ _ => (Text.valueIn 16 [high, low]).toUInt8
  | .bracedHex digits _ _ _ => (Text.valueIn 16 digits).toUInt8
  | .escaped b _ => b

/-- A sigil keeps its meaning only in front of certain texts. -/
def Fits : Piece → Text → Prop
  | .sigil b _, after => ¬OpensVariable (b :: after)
  | _, _ => True

end Piece

/-- Pieces one after the other. -/
def written (pieces : List Piece) : Text := pieces.flatMap Piece.written

/-- Every sigil among the pieces fits in front of the next ones and the text behind them. -/
def AllFit : List Piece → Text → Prop
  | [], _ => True
  | p :: ps, after => p.Fits (written ps ++ after) ∧ AllFit ps after

/-! ### Hexadecimal escapes -/

theorem hexByte?_of_digits {digits : Text} (hne : digits ≠ []) (hdigits : ∀ b ∈ digits, Byte.isHexDigit b)
    (hvalue : Text.valueIn 16 digits ≤ 255) : hexByte? digits = some (Text.valueIn 16 digits).toUInt8 := by
  have hspells : Radix.hexadecimal.Spells digits (ascii "0x" ++ digits) :=
    ⟨Radix.marks_of_ne_decimal (by decide) hne ⟨ascii "0x", by decide, rfl⟩, hdigits⟩
  have hread : DigitRun.read? 16 digits = some ⟨false, Text.valueIn 16 digits, []⟩ :=
    DigitRun.read?_of_run hspells.run
  have hword : (⟨false, Text.valueIn 16 digits, []⟩ : DigitRun).word?
      = some (Text.valueIn 16 digits).toUInt64 := by
    rw [DigitRun.word?, if_pos (by simp only; omega)]
    rfl
  have hle : (Text.valueIn 16 digits).toUInt64 ≤ 255 := by
    rw [UInt64.le_iff_toNat_le]
    simp
    omega
  have hbyte : (Text.valueIn 16 digits).toUInt64.toUInt8 = (Text.valueIn 16 digits).toUInt8 := by
    rw [← UInt8.toNat_inj]
    simp
  simp only [hexByte?, hspells.upToZero, hread, hword, if_pos hle, hbyte]

theorem hexDigits?_pair {high low : UInt8} (hhigh : Byte.isHexDigit high) (hlow : Byte.isHexDigit low)
    (after : Text) : hexDigits? (high :: low :: after) = some ([high, low], after) := by
  have hbrace : (high == ch '\x7b') = false := beq_false_of_ne (Byte.ne_of_isHexDigit hhigh (by decide))
  simp [hexDigits?, hbrace, hhigh, hlow]

theorem hexDigits?_braced {digits : Text} (hdigits : ∀ b ∈ digits, Byte.isHexDigit b) (after : Text) :
    hexDigits? (ch '\x7b' :: (digits ++ ch '\x7d' :: after)) = some (digits, after) := by
  have hinside : ∀ b ∈ digits, (b != ch '\x7d') = true := fun b hb =>
    bne_iff_ne.2 (Byte.ne_of_isHexDigit (hdigits b hb) (by decide))
  rw [hexDigits?, if_pos (beq_self_eq_true _), List.dropWhile_append_of_pos hinside,
    List.takeWhile_append_of_pos hinside, List.dropWhile_cons_of_neg (by decide),
    List.takeWhile_cons_of_neg (by decide), List.append_nil]

/-! ### Pieces -/

theorem startsVariable_iff {b : UInt8} : startsVariable b ↔ StartsName b := by
  rw [startsVariable, Bool.or_eq_true, List.contains_iff_mem, StartsName]

theorem interpolates_iff {b : UInt8} {after : Text} : interpolates b after ↔ OpensVariable (b :: after) := by
  cases after with
  | nil => simp [interpolates, OpensVariable]
  | cons next rest =>
    simp only [interpolates, OpensVariable, List.head?_cons, Option.any_some, Bool.and_eq_true,
      Bool.or_eq_true, beq_iff_eq, startsVariable_iff]

/-- A byte that is neither a backslash nor the sign of a variable stands for itself. -/
theorem decodeDouble?_byte {b : UInt8} {after : Text} (hvariable : interpolates b after = false)
    (hbackslash : b ≠ ch '\\') : decodeDouble? (b :: after) = (decodeDouble? after).map (b :: ·) := by
  rw [decodeDouble?.eq_def]
  simp only [hvariable, bne_iff_ne.2 hbackslash, Bool.false_eq_true, if_false, if_true]

theorem decodeDouble?_letter {e : UInt8} (he : e ≠ ch 'x') (after : Text) :
    decodeDouble? (ch '\\' :: e :: after) = (decodeDouble? after).map (escaped e :: ·) := by
  have hvariable : interpolates (ch '\\') (e :: after) = false := rfl
  rw [decodeDouble?.eq_def]
  simp only [hvariable, bne_self_eq_false, bne_iff_ne.2 he, Bool.false_eq_true, if_false, if_true]

theorem decodeDouble?_hex {t digits after : Text} {b : UInt8} (hdigits : hexDigits? t = some (digits, after))
    (hbyte : hexByte? digits = some b) :
    decodeDouble? (ch '\\' :: ch 'x' :: t) = (decodeDouble? after).map (b :: ·) := by
  have hvariable : interpolates (ch '\\') (ch 'x' :: t) = false := rfl
  rw [decodeDouble?.eq_def]
  simp only [hvariable, bne_self_eq_false, Bool.false_eq_true, if_false]
  split
  · rename_i hnone
    rw [hdigits] at hnone
    cases hnone
  · rename_i digits' behind hsome
    rw [hdigits] at hsome
    cases hsome
    rw [hbyte]
    cases decodeDouble? after <;> rfl

theorem escaped_letter (c : Control) : escaped c.letter = c.byte := by
  cases c <;> rfl

theorem escaped_of_notMem {b : UInt8} (h : b ∉ ascii "ntr0aex") : escaped b = b := by
  have hne : b ∉ [ch 'n', ch 't', ch 'r', ch '0', ch 'a', ch 'e', ch 'x'] := h
  simp only [List.mem_cons, List.not_mem_nil, or_false, not_or] at hne
  simp [escaped, hne]

/-- Each piece is read as its byte, whatever follows it. -/
theorem decodeDouble?_piece {p : Piece} {after : Text} (h : p.Fits after) :
    decodeDouble? (p.written ++ after) = (decodeDouble? after).map (p.byte :: ·) := by
  cases p with
  | plain b hb =>
    simp only [List.mem_cons, List.not_mem_nil, or_false, not_or] at hb
    have hvariable : interpolates b after = false := by simp [interpolates, hb]
    exact decodeDouble?_byte hvariable hb.1
  | sigil b hb =>
    have hvariable : interpolates b after = false := Bool.eq_false_iff.2 (mt interpolates_iff.1 h)
    have hbackslash : b ≠ ch '\\' := by rcases hb with rfl | rfl <;> decide
    exact decodeDouble?_byte hvariable hbackslash
  | control c =>
    have hletter := decodeDouble?_letter (e := c.letter) (by cases c <;> decide) after
    rwa [escaped_letter] at hletter
  | hex high low hhigh hlow =>
    have hdigits : ∀ b ∈ [high, low], Byte.isHexDigit b := by simp [hhigh, hlow]
    exact decodeDouble?_hex (hexDigits?_pair hhigh hlow after)
      (hexByte?_of_digits (by simp) hdigits (Nat.le_of_lt_succ (Text.valueIn_pair_lt high low)))
  | bracedHex digits hne hdigits hvalue =>
    have htext : (Piece.bracedHex digits hne hdigits hvalue).written ++ after
        = ch '\\' :: ch 'x' :: (ch '\x7b' :: (digits ++ ch '\x7d' :: after)) := by
      simp [Piece.written]
    rw [htext]
    exact decodeDouble?_hex (hexDigits?_braced hdigits after) (hexByte?_of_digits hne hdigits hvalue)
  | escaped b hb =>
    have hx : b ≠ ch 'x' := fun heq => hb (heq ▸ by decide)
    have hletter := decodeDouble?_letter hx after
    rwa [escaped_of_notMem hb] at hletter

/-- Pieces are read one by one: none takes a byte of the next. -/
theorem decodeDouble?_pieces {pieces : List Piece} {after : Text} (h : AllFit pieces after) :
    decodeDouble? (written pieces ++ after) = (decodeDouble? after).map (pieces.map Piece.byte ++ ·) := by
  induction pieces with
  | nil => simp [written]
  | cons p ps ih =>
    have hcons : written (p :: ps) ++ after = p.written ++ (written ps ++ after) := by
      rw [written, List.flatMap_cons, List.append_assoc]
      rfl
    rw [hcons, decodeDouble?_piece h.1, ih h.2, Option.map_map]
    rfl

theorem decodeDouble?_variable {t : Text} (h : OpensVariable t) : decodeDouble? t = none := by
  rcases t with - | ⟨b, after⟩
  · cases h
  · rw [decodeDouble?.eq_def]
    simp only [interpolates_iff.2 h, if_true]

end Quoted

namespace Rule

open Quoted

theorem leaf_double_quoted {t : Token} (hk : t.kind = .quote) {body : Text}
    (h : t.content = ch '"' :: body ++ [ch '"']) (parts : List Expr) :
    leaf.reduce? (.group t parts) = (decodeDouble? body).map .string := by
  have henclosed : enclosed? t.content = some (ch '"', body) := by
    rw [h]
    simp [enclosed?]
  rw [leaf_quote hk, Token.quotedText?, henclosed]
  rfl

/-! ### Tokens that stay -/

section

variable {t : Token} (hk : t.kind = .quote) (hleaf : ∀ parts, leaf.reduce? (.group t parts) = none)
include hk hleaf

/-- A rule may change the parts of a quoted token that is no literal, but not the token. -/
theorem token?_reduce? {rule : Rule} (hrule : rule ∈ standard) {e next : Expr} (he : e.token? = some t)
    (h : rule.reduce? e = some next) : next.token? = some t := by
  cases e with
  | group u parts =>
    obtain rfl : u = t := Option.some.inj he
    have hgroup : rule ∈ [call, operation, conditional] → next.token? = some u := by
      intro hrule
      obtain ⟨parts', rfl, -⟩ := replaces_of_reduce? hrule h
      rfl
    simp only [standard, List.mem_cons, List.not_mem_nil, or_false] at hrule
    rcases hrule with rfl | rfl | rfl | rfl | rfl | rfl | rfl | rfl
    · rw [hleaf parts] at h
      cases h
    · exact hgroup (by simp)
    · exact hgroup (by simp)
    · cases h
    · exact hgroup (by simp)
    · cases h
    · cases h
    · -- only containers give way to the one part they hold
      rcases parts with - | ⟨x, - | ⟨y, rest⟩⟩
      · cases h
      · simp [collapse, Shape.collapse, hk] at h
      · cases h
  | _ => cases he

theorem token?_foldl_apply {rules : List Rule} (hrules : ∀ rule ∈ rules, rule ∈ standard) {e : Expr}
    (he : e.token? = some t) : (rules.foldl apply e).token? = some t := by
  induction rules generalizing e with
  | nil => exact he
  | cons rule rest ih =>
    refine ih (fun r hr => hrules r (List.mem_cons_of_mem _ hr)) ?_
    cases h : rule.reduce? e with
    | none => rwa [apply_of_none h]
    | some next =>
      rw [apply_of_some h]
      exact token?_reduce? hk hleaf (hrules rule (List.mem_cons_self ..)) he h

theorem token?_settle (below : Expr → Expr) (n : Nat) {e : Expr} (he : e.token? = some t) :
    (settle below standard n e).token? = some t := by
  induction n generalizing e with
  | zero => exact he
  | succ n ih =>
    have hround := token?_foldl_apply hk hleaf (fun rule hrule => hrule) he
    rw [← round?_getD] at hround
    rw [settle]
    split
    · exact he
    · rename_i next hnext
      rw [hnext, Option.getD_some] at hround
      cases next with
      | group u parts => exact ih hround
      | _ => cases hround

/-- A quoted token that is no literal is still there in the normal form. -/
theorem exists_normalizeWithin_quote (levels : Nat) (parts : List Expr) :
    ∃ parts', normalizeWithin standard (levels + 1) (.group t parts) = .group t parts' ∧
      (parts = [] → parts' = []) := by
  have htoken : (normalizeWithin standard (levels + 1) (.group t parts)).token? = some t := by
    rw [normalizeWithin_succ levels (by simp), Expr.mapChildren_group]
    exact token?_settle hk hleaf _ _ rfl
  have hempty : parts = [] → normalizeWithin standard (levels + 1) (.group t parts) = .group t [] := by
    rintro rfl
    exact normalizeWithin_of_settled (settled_of_leaf_eq_none (hleaf [])) _
  generalize normalizeWithin standard (levels + 1) (.group t parts) = e at htoken hempty
  cases e with
  | group u parts' =>
    obtain rfl : u = t := Option.some.inj htoken
    exact ⟨parts', rfl, fun h => (Expr.group.inj (hempty h)).2⟩
  | _ => cases htoken

end

/-- A token of pieces between double quotes is the string of their bytes, wherever it stands. If a variable follows
the pieces, the token is no literal and stays. -/
theorem normalizeWithin_doubleQuoted (t : Token) (hkind : t.kind = .quote) (pieces : List Piece) (rest : Text)
    (hpieces : AllFit pieces rest) (hcontent : t.content = ch '"' :: (written pieces ++ rest) ++ [ch '"'])
    (parts : List Expr) (levels : Nat) :
    (rest = [] →
      leaf.reduce? (.group t parts) = some (.string (pieces.map Piece.byte)) ∧
      normalizeWithin standard (levels + 1) (.group t parts) = .string (pieces.map Piece.byte)) ∧
    (OpensVariable rest →
      leaf.reduce? (.group t parts) = none ∧
      ∃ parts', normalizeWithin standard (levels + 1) (.group t parts) = .group t parts' ∧
        (parts = [] → parts' = [])) := by
  have hleaf : ∀ parts, leaf.reduce? (.group t parts)
      = ((decodeDouble? rest).map (pieces.map Piece.byte ++ ·)).map .string := by
    intro parts
    rw [leaf_double_quoted hkind hcontent, decodeDouble?_pieces hpieces]
  constructor
  · rintro rfl
    have hstring : ∀ parts, leaf.reduce? (.group t parts) = some (.string (pieces.map Piece.byte)) := by
      intro parts
      rw [hleaf, decodeDouble?, Option.map_some, Option.map_some, List.append_nil]
    exact ⟨hstring parts, normalizeWithin_of_leaf hstring rfl rfl levels parts⟩
  · intro hvariable
    have hnone : ∀ parts, leaf.reduce? (.group t parts) = none := by
      intro parts
      rw [hleaf, decodeDouble?_variable hvariable]
      rfl
    exact ⟨hnone parts, exists_normalizeWithin_quote hkind hnone levels parts⟩

/-- A sigil in front of a blank and one at the end stand for themselves; in front of a name they do not. -/
theorem normalizeWithin_doubleQuoted_sigils :
    let token (content : String) : Token := ⟨.quote, [], ascii content, [], none⟩
    normalizeWithin standard 1 (.group (token "\"$ \\x41B\\x\x7b0e9\x7d\\$\\e@\"") [])
        = .string [0x24, 0x20, 0x41, 0x42, 0xe9, 0x24, 0x1b, 0x40] ∧
      OpensVariable (ascii "@\x7bx") ∧
      normalizeWithin standard 1 (.group (token "\"$ @\x7bx\"") []) = .group (token "\"$ @\x7bx\"") [] := by
  intro token
  have hfits : ∀ {after : Text}, (Piece.sigil (ch '$') (Or.inl rfl)).Fits (ch ' ' :: after) := by
    rintro after ⟨-, hname⟩
    exact absurd hname (by decide)
  let start : List Piece := [.sigil (ch '$') (Or.inl rfl), .plain (ch ' ') (by decide)]
  let pieces : List Piece := start ++ [.hex (ch '4') (ch '1') rfl rfl, .plain (ch 'B') (by decide),
    .bracedHex (ascii "0e9") (by decide) (List.all_eq_true.1 (by decide)) (by decide),
    .escaped (ch '$') (by decide), .control .escape, .sigil (ch '@') (Or.inr rfl)]
  have hpieces : AllFit pieces [] :=
    ⟨hfits, trivial, trivial, trivial, trivial, trivial, trivial, id, trivial⟩
  have hstart : AllFit start (ascii "@\x7bx") := ⟨hfits, trivial, trivial⟩
  have hvariable : OpensVariable (ascii "@\x7bx") := ⟨Or.inr rfl, Or.inr (by decide)⟩
  obtain ⟨hread, -⟩ := normalizeWithin_doubleQuoted (token "\"$ \\x41B\\x\x7b0e9\x7d\\$\\e@\"") rfl pieces []
    hpieces rfl [] 0
  obtain ⟨-, hstays⟩ := normalizeWithin_doubleQuoted (token "\"$ @\x7bx\"") rfl start (ascii "@\x7bx") hstart rfl [] 0
  obtain ⟨-, parts, hparts, hempty⟩ := hstays hvariable
  obtain rfl := hempty rfl
  exact ⟨(hread rfl).2, hvariable, hparts⟩

end Rule
end TagFormula

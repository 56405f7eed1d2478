import TagFormula.Literal.Number

/-!
Quoted tokens. Single quotes keep everything but an escaped quote or backslash; double quotes know
escapes, and a variable inside them makes the token no literal.
-/

namespace TagFormula

namespace Quoted

/-- Whether a byte behind `$` or `@` starts a variable. -/
def startsVariable (b : UInt8) : Bool := Byte.isAlpha b || (ascii "_\x7b:$").contains b

/-- Whether `$` or `@` with the given text behind it stands for a variable. -/
def interpolates (b : UInt8) (rest : Text) : Bool :=
  (b == ch '$' || b == ch '@') && rest.head?.any startsVariable

/-- The text between single quotes. -/
def decodeSingle : Text → Text
  | [] => []
  | [b] => [b]
  | b :: e :: rest =>
    if b == ch '\\' && (e == ch '\\' || e == ch '\'') then e :: decodeSingle rest
    else b :: decodeSingle (e :: rest)

/-- What a backslash with a letter other than `x` stands for. -/
def escaped (e : UInt8) : UInt8 :=
  if e == ch 'n' then 10
  else if e == ch 't' then 9
  else if e == ch 'r' then 13
  else if e == ch '0' then 0
  else if e == ch 'a' then 7
  else if e == ch 'e' then 27
  else e

/-- The digits behind `\x`, up to two or any text in braces, and the text after them. -/
def hexDigits? : Text → Option (Text × Text)
  | [] => some ([], [])
  | b :: rest =>
    if b == ch '\x7b' then
      match rest.dropWhile (· != ch '\x7d') with
      | _ :: after => some (rest.takeWhile (· != ch '\x7d'), after)
      | [] => none
    else
      let digits := ((b :: rest).take 2).takeWhile Byte.isHexDigit
      some (digits, (b :: rest).drop digits.length)

/-- The byte that hexadecimal digits name; none past 255. -/
def hexByte? (digits : Text) : Option UInt8 :=
  match DigitRun.read? 16 digits.upToZero with
  | none => some 0
  | some run =>
    match run.word? with
    | some w => if w ≤ 255 then some w.toUInt8 else none
    | none => none

theorem length_hexDigits?_le {t digits after : Text} (h : hexDigits? t = some (digits, after)) :
    after.length ≤ t.length := by
  unfold hexDigits? at h
  split at h
  · simp at h
    simp [h]
  · split at h
    · split at h
      · rename_i b rest _ _ c tail hd
        simp only [Option.some.injEq, Prod.mk.injEq] at h
        have hl := (List.dropWhile_sublist (l := rest) (· != ch '\x7d')).length_le
        rw [hd] at hl
        simp only [List.length_cons, ← h.2] at hl ⊢
        omega
      · simp at h
    · simp only [Option.some.injEq, Prod.mk.injEq] at h
      rw [← h.2, List.length_drop]
      omega

/-- The text between double quotes; none if it holds a variable or a malformed `\x`. -/
def decodeDouble? : Text → Option Text
  | [] => some []
  | b :: rest =>
    if interpolates b rest then none
    else if b != ch '\\' then (decodeDouble? rest).map (b :: ·)
    else
      match rest with
      | [] => some [b]
      | e :: after =>
        if e != ch 'x' then (decodeDouble? after).map (escaped e :: ·)
        else
          match _h : hexDigits? after with
          | none => none
          | some (digits, behind) => do
            let value ← hexByte? digits
            let tail ← decodeDouble? behind
            return value :: tail
termination_by t => t.length
decreasing_by
  · exact Nat.lt_succ_self _
  · simp only [List.length_cons]
    omega
  · have := length_hexDigits?_le _h
    simp only [List.length_cons]
    omega

/-- The body of a token enclosed in two equal quotes, with the quote. -/
def enclosed? (t : Text) : Option (UInt8 × Text) :=
  match t with
  | q :: rest =>
    if (q == ch '"' || q == ch '\'') && rest.getLast? == some q then some (q, rest.dropLast) else none
  | [] => none

/-- Whether variables are replaced in a token. -/
def isInterpolating (t : Token) : Bool :=
  t.className == ascii "PPI::Token::Quote::Double"
    || t.className == ascii "PPI::Token::Quote::Interpolate" || t.content.head? == some (ch '"')

/-- The text of a token in another form of quotes, as the source parser decoded it. -/
def ofDecoded (t : Token) : Option Text := do
  let decoded ← t.decoded
  if isInterpolating t && decoded.any fun b => b == ch '$' || b == ch '@' then none else some decoded

end Quoted

/-- The text a quoted token stands for. -/
def Token.quotedText? (t : Token) : Option Text :=
  match Quoted.enclosed? t.content with
  | some (q, body) =>
    if q == ch '\'' then some (Quoted.decodeSingle body) else Quoted.decodeDouble? body
  | none => Quoted.ofDecoded t

end TagFormula

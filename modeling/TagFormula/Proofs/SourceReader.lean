import TagFormula.Proofs.PrefixCode

/-!
A reader for the string literals in C++ text, by the rules of C++17. It goes over the text byte by byte and
refuses what it does not know; it lists the strings with the names in front of them. Main statements: a call
on quoted texts is read as a call on these texts, and text without quotes and slashes holds no string.
-/

namespace TagFormula.Source

/-! ### The reader -/

/-- A string in C++ text with the last name in front of it. In the text of an expression that is the function
the string is passed to. -/
structure StringArgument where
  function : Text
  bytes : Text
  deriving DecidableEq, Repr

/-- Where the reader stands. -/
inductive Mode where
  | code
  /-- In a name or a number. -/
  | word (bytes : Text)
  /-- Behind a slash, which may open a comment. -/
  | slash
  /-- In a literal; so are the next three. -/
  | literal (body : Text)
  /-- Behind a backslash. -/
  | escape (body : Text)
  /-- Behind one or two octal digits of an escape. -/
  | octal (body digits : Text)
  /-- Behind `\x` and hexadecimal digits. -/
  | hexadecimal (body digits : Text)
  /-- Behind a literal, to which a suffix or a second literal would belong. -/
  | closed

structure Reader where
  mode : Mode
  /-- The last name. -/
  name : Text
  found : List StringArgument

/-- The escapes of one character and their bytes. -/
def simpleEscapes : List (UInt8 × UInt8) :=
  [(ch '\'', 39), (ch '"', 34), (ch '?', 63), (ch '\\', 92), (ch 'a', 7), (ch 'b', 8), (ch 'f', 12),
    (ch 'n', 10), (ch 'r', 13), (ch 't', 9), (ch 'v', 11)]

/-- The byte with the value of digits, if there is one. -/
def byteOf? (base : Nat) (digits : Text) : Option UInt8 :=
  (Text.natValue? base digits).bind fun n => if n < 256 then some n.toUInt8 else none

namespace Reader

/-- A byte outside of names and literals. There are no character literals and no continued lines. -/
def inCode (s : Reader) (b : UInt8) : Option Reader :=
  if b == ch '"' then some { s with mode := .literal [] }
  else if b == ch '\'' || b == ch '\\' then none
  else if b == ch '/' then some { s with mode := .slash }
  else if Byte.isWord b then some { s with mode := .word [b] }
  else some { s with mode := .code }

/-- A byte in a literal, outside of escapes. -/
def inLiteral (s : Reader) (body : Text) (b : UInt8) : Option Reader :=
  if b == ch '"' then some ⟨.closed, s.name, s.found ++ [⟨s.name, body⟩]⟩
  else if b == ch '\\' then some { s with mode := .escape body }
  else if b == ch '\n' then none
  else some { s with mode := .literal (body ++ [b]) }

/-- The reader behind the next byte. An octal escape has at most three digits, a hexadecimal one all that
follow. -/
def step (s : Reader) (b : UInt8) : Option Reader :=
  match s.mode with
  | .code => s.inCode b
  | .word bytes =>
    if Byte.isWord b then some { s with mode := .word (bytes ++ [b]) }
    -- a name in front of a literal would be its encoding
    else if b == ch '"' then none
    -- a number is no name
    else if bytes.head?.any Byte.isDigit then s.inCode b
    else inCode { s with name := bytes } b
  | .slash => if b == ch '/' || b == ch '*' then none else s.inCode b
  | .literal body => s.inLiteral body b
  | .escape body =>
    if (Byte.digitValue? 8 b).isSome then some { s with mode := .octal body [b] }
    else if b == ch 'x' then some { s with mode := .hexadecimal body [] }
    else (simpleEscapes.lookup b).map fun c => { s with mode := .literal (body ++ [c]) }
  | .octal body digits =>
    if (Byte.digitValue? 8 b).isNone then (byteOf? 8 digits).bind fun c => s.inLiteral (body ++ [c]) b
    else if digits.length < 2 then some { s with mode := .octal body (digits ++ [b]) }
    else (byteOf? 8 (digits ++ [b])).map fun c => { s with mode := .literal (body ++ [c]) }
  | .hexadecimal body digits =>
    if Byte.isHexDigit b then some { s with mode := .hexadecimal body (digits ++ [b]) }
    else if digits.isEmpty then none
    else (byteOf? 16 digits).bind fun c => s.inLiteral (body ++ [c]) b
  | .closed =>
    if Byte.isSpace b then some s
    else if Byte.isWord b || b == ch '"' then none
    else s.inCode b

def run (s : Reader) (t : Text) : Option Reader := t.foldlM step s

theorem run_append (s : Reader) (t u : Text) : s.run (t ++ u) = (s.run t).bind (·.run u) :=
  List.foldlM_append ..

/-- What was found, unless the text ends in a literal or behind a slash. -/
def result? (s : Reader) : Option (List StringArgument) :=
  match s.mode with
  | .code | .word _ | .closed => some s.found
  | _ => none

end Reader

/-- The strings in a C++ text, as the literals spell them. -/
def stringArguments (t : Text) : Option (List StringArgument) :=
  (Reader.run ⟨.code, [], []⟩ t).bind Reader.result?

/-- What is left of a string that is passed by the address of its first byte. -/
def StringArgument.upToZero (a : StringArgument) : StringArgument := { a with bytes := a.bytes.upToZero }

/-- The strings that the functions in a C++ text receive. -/
def receivedStrings (t : Text) : Option (List StringArgument) :=
  (stringArguments t).map (List.map StringArgument.upToZero)

/-! ### Text without literals -/

/-- Bytes that neither open a literal nor can belong to a comment. -/
def isPlain (b : UInt8) : Bool := !(b == ch '"' || b == ch '\'' || b == ch '\\' || b == ch '/')

def Plain (t : Text) : Prop := ∀ b ∈ t, isPlain b

instance : DecidablePred Plain := fun _ => decidable_of_iff _ List.all_eq_true

theorem plain_append {t u : Text} : Plain (t ++ u) ↔ Plain t ∧ Plain u := List.forall_mem_append

theorem isPlain_of_isWord {b : UInt8} (h : Byte.isWord b) : isPlain b := by
  have hne : ∀ c, Byte.isWord c = false → (b == c) = false := by
    intro c hc
    refine beq_eq_false_iff_ne.2 fun heq => ?_
    rw [heq, hc] at h
    cases h
  simp only [isPlain, hne (ch '"') (by decide), hne (ch '\'') (by decide), hne (ch '\\') (by decide),
    hne (ch '/') (by decide), Bool.or_false, Bool.not_false]

namespace Reader

/-- The reader is in no literal and not behind one. -/
def Outside (s : Reader) : Prop := s.mode = .code ∨ ∃ bytes, s.mode = .word bytes

theorem inCode_of_isPlain (s : Reader) {b : UInt8} (h : isPlain b) :
    s.inCode b = some { s with mode := if Byte.isWord b then .word [b] else .code } := by
  simp only [isPlain, Bool.not_eq_true', Bool.or_eq_false_iff] at h
  obtain ⟨⟨⟨hquote, hapostrophe⟩, hslash⟩, hcomment⟩ := h
  unfold inCode
  rw [hquote, hapostrophe, hslash, hcomment]
  cases Byte.isWord b <;> rfl

theorem step_word (bytes n : Text) (found : List StringArgument) {b : UInt8} (h : isPlain b) :
    step ⟨.word bytes, n, found⟩ b = some (if Byte.isWord b then ⟨.word (bytes ++ [b]), n, found⟩
      else ⟨.code, if bytes.head?.any Byte.isDigit then n else bytes, found⟩) := by
  have hquote : (b == ch '"') = false := by
    simp only [isPlain, Bool.not_eq_true', Bool.or_eq_false_iff] at h
    exact h.1.1.1
  simp only [step, hquote, inCode_of_isPlain _ h, Bool.false_eq_true, if_false]
  split_ifs <;> rfl

/-- A byte that belongs to no name ends one. -/
theorem step_of_isPlain {s : Reader} (hs : s.Outside) {b : UInt8} (h : isPlain b) :
    ∃ mode n, s.step b = some ⟨mode, n, s.found⟩ ∧ Outside ⟨mode, n, s.found⟩ ∧
      (Byte.isWord b = false → mode = .code) := by
  obtain ⟨mode, n, found⟩ := s
  rcases hs with rfl | ⟨bytes, rfl⟩
  · have hstep : step ⟨.code, n, found⟩ b = _ := inCode_of_isPlain ⟨.code, n, found⟩ h
    rw [hstep]
    cases Byte.isWord b with
    | false => exact ⟨_, _, rfl, .inl rfl, fun _ => rfl⟩
    | true => exact ⟨_, _, rfl, .inr ⟨_, rfl⟩, fun hnot => nomatch hnot⟩
  · rw [step_word bytes n found h]
    cases Byte.isWord b with
    | false => exact ⟨_, _, rfl, .inl rfl, fun _ => rfl⟩
    | true => exact ⟨_, _, rfl, .inr ⟨_, rfl⟩, fun hnot => nomatch hnot⟩

end Reader

/-- Wherever the reader comes to a text outside of literals, it goes through the text, is outside of
literals again, and has found these strings. -/
def Reads (t : Text) (found : List StringArgument) : Prop :=
  ∀ s : Reader, s.Outside → ∃ s', s.run t = some s' ∧ s'.Outside ∧ s'.found = s.found ++ found

theorem Reads.append {t u : Text} {found more : List StringArgument} (h : Reads t found)
    (hu : Reads u more) : Reads (t ++ u) (found ++ more) := by
  intro s hs
  obtain ⟨s₁, hrun, hs₁, hfound⟩ := h s hs
  obtain ⟨s₂, hrun₂, hs₂, hmore⟩ := hu s₁ hs₁
  refine ⟨s₂, ?_, hs₂, ?_⟩
  · rw [Reader.run_append, hrun, Option.bind_some, hrun₂]
  · rw [hmore, hfound, List.append_assoc]

theorem Plain.reads {t : Text} (h : Plain t) : Reads t [] := by
  intro s hs
  induction t generalizing s with
  | nil => exact ⟨s, rfl, hs, (List.append_nil _).symm⟩
  | cons b t ih =>
    obtain ⟨hb, ht⟩ := List.forall_mem_cons.1 h
    obtain ⟨mode, n, hstep, hs₁, -⟩ := Reader.step_of_isPlain hs hb
    obtain ⟨s₂, hrun, hs₂, hfound⟩ := ih ht _ hs₁
    refine ⟨s₂, ?_, hs₂, hfound⟩
    rw [Reader.run, List.foldlM_cons, hstep]
    exact hrun

theorem Reads.within {t before after : Text} {found : List StringArgument} (h : Reads t found)
    (hbefore : Plain before) (hafter : Plain after) : Reads (before ++ t ++ after) found := by
  have := (hbefore.reads.append h).append hafter.reads
  rwa [List.nil_append, List.append_nil] at this

theorem Reads.join {t between u : Text} {found more : List StringArgument} (h : Reads t found)
    (hbetween : Reads between []) (hu : Reads u more) : Reads (t ++ between ++ u) (found ++ more) := by
  have := (h.append hbetween).append hu
  rwa [List.append_nil] at this

theorem Reads.stringArguments_eq {t : Text} {found : List StringArgument} (h : Reads t found) :
    stringArguments t = some found := by
  obtain ⟨s, hrun, hs, hfound⟩ := h ⟨.code, [], []⟩ (.inl rfl)
  rw [stringArguments, hrun, Option.bind_some, Reader.result?]
  rcases hs with hmode | ⟨bytes, hmode⟩ <;> rw [hmode, hfound] <;> rfl

/-! ### Literals -/

theorem digitValue?_octalDigit (n : Nat) : Byte.digitValue? 8 (48 + n % 8).toUInt8 = some (n % 8) := by
  have hlt : n % 8 < 8 := Nat.mod_lt n (by decide)
  rw [Byte.digitValue?, if_pos (isDigit_octalDigit n), toNat_octalDigit, Nat.add_sub_cancel_left, if_pos hlt]

theorem byteOf?_octal (b : UInt8) : byteOf? 8 (octal b) = some b := by
  have hvalue : 8 * (8 * (b.toNat / 64 % 8) + b.toNat / 8 % 8) + b.toNat % 8 = b.toNat := by
    have := b.toNat_lt
    omega
  have hnat : Text.natValue? 8 (octal b) = some b.toNat := by
    simp only [Text.natValue?, octal, List.foldlM_cons, List.foldlM_nil, digitValue?_octalDigit,
      Option.map_some, Option.bind_eq_bind, Option.bind_some, Nat.mul_zero, Nat.zero_add, hvalue]
    rfl
  rw [byteOf?, hnat, Option.bind_some, if_pos b.toNat_lt, Nat.toUInt8_eq, UInt8.ofNat_toNat]

namespace Reader

theorem step_octal {body digits n : Text} {found : List StringArgument} {b : UInt8}
    (h : (Byte.digitValue? 8 b).isSome) :
    step ⟨.octal body digits, n, found⟩ b
      = if digits.length < 2 then some ⟨.octal body (digits ++ [b]), n, found⟩
        else (byteOf? 8 (digits ++ [b])).map fun c => ⟨.literal (body ++ [c]), n, found⟩ :=
  if_neg (by rw [← Option.not_isSome, h]; decide)

theorem run_octal (body n : Text) (found : List StringArgument) (b : UInt8) :
    run ⟨.escape body, n, found⟩ (octal b) = some ⟨.literal (body ++ [b]), n, found⟩ := by
  have hbyte := byteOf?_octal b
  have hdigits : ∀ c ∈ octal b, (Byte.digitValue? 8 c).isSome := by
    simp only [octal, List.forall_mem_cons, digitValue?_octalDigit, Option.isSome_some]
    exact ⟨trivial, trivial, trivial, List.forall_mem_nil _⟩
  obtain ⟨c₁, c₂, c₃, hoctal⟩ : ∃ c₁ c₂ c₃, octal b = [c₁, c₂, c₃] := ⟨_, _, _, rfl⟩
  rw [hoctal] at hbyte hdigits ⊢
  simp only [List.forall_mem_cons] at hdigits
  obtain ⟨h₁, h₂, h₃, -⟩ := hdigits
  have hfirst : step ⟨.escape body, n, found⟩ c₁ = some ⟨.octal body [c₁], n, found⟩ := if_pos h₁
  have hsecond : step ⟨.octal body [c₁], n, found⟩ c₂ = some ⟨.octal body [c₁, c₂], n, found⟩ :=
    step_octal h₂
  have hthird : step ⟨.octal body [c₁, c₂], n, found⟩ c₃ = some ⟨.literal (body ++ [b]), n, found⟩ :=
    (step_octal h₃).trans (congrArg (Option.map _) hbyte)
  simp only [run, List.foldlM_cons, List.foldlM_nil, hfirst, hsecond, hthird, Option.bind_eq_bind,
    Option.bind_some]
  rfl

/-- An escaped byte stands for itself, whatever stands before and behind it. -/
theorem run_escapeByte (body n : Text) (found : List StringArgument) (b : UInt8) :
    run ⟨.literal body, n, found⟩ (escapeByte b) = some ⟨.literal (body ++ [b]), n, found⟩ := by
  -- six bytes with an escape of one character, then the octal escapes and printable bytes
  unfold escapeByte
  split_ifs with hslash hquote hnewline hreturn htab hmark hoctal
  · rw [beq_iff_eq.1 hslash]
    rfl
  · rw [beq_iff_eq.1 hquote]
    rfl
  · rw [beq_iff_eq.1 hnewline]
    rfl
  · rw [beq_iff_eq.1 hreturn]
    rfl
  · rw [beq_iff_eq.1 htab]
    rfl
  · rw [beq_iff_eq.1 hmark]
    rfl
  · exact run_octal body n found b
  · simp [run, step, inLiteral, hslash, hquote, hnewline]

theorem run_escape (body n : Text) (found : List StringArgument) (t : Text) :
    run ⟨.literal body, n, found⟩ (escape t) = some ⟨.literal (body ++ t), n, found⟩ := by
  induction t generalizing body with
  | nil => simp [escape, run]
  | cons b t ih =>
    have hcons : escape (b :: t) = escapeByte b ++ escape t := rfl
    rw [hcons, run_append, run_escapeByte, Option.bind_some, ih, List.append_assoc]
    rfl

/-- A literal is read as the text it was written for. -/
theorem run_quoted (n : Text) (found : List StringArgument) (t : Text) :
    run ⟨.code, n, found⟩ (quoted t) = some ⟨.closed, n, found ++ [⟨n, t⟩]⟩ := by
  have hopen : run ⟨.code, n, found⟩ [ch '"'] = some ⟨.literal [], n, found⟩ := rfl
  have hclose : run ⟨.literal t, n, found⟩ [ch '"'] = some ⟨.closed, n, found ++ [⟨n, t⟩]⟩ := rfl
  have hquoted : quoted t = [ch '"'] ++ escape t ++ [ch '"'] := rfl
  rw [hquoted, run_append, run_append, hopen, Option.bind_some, run_escape, Option.bind_some,
    List.nil_append, hclose]

/-- Literals with commas between them are all arguments of the same function. -/
theorem run_literals (n : Text) (found : List StringArgument) {ts : List Text} (h : ts ≠ []) :
    run ⟨.code, n, found⟩ (argsText (ts.map quoted)) = some ⟨.closed, n, found ++ ts.map (⟨n, ·⟩)⟩ := by
  induction ts generalizing found with
  | nil => exact absurd rfl h
  | cons t ts ih =>
    cases ts with
    | nil =>
      have hone : argsText ([t].map quoted) = quoted t := List.append_nil _
      rw [hone, run_quoted]
      rfl
    | cons u ts =>
      have hcons : argsText ((t :: u :: ts).map quoted)
          = quoted t ++ (ascii ", " ++ argsText ((u :: ts).map quoted)) := rfl
      have hcomma : run ⟨.closed, n, found ++ [⟨n, t⟩]⟩ (ascii ", ")
          = some ⟨.code, n, found ++ [⟨n, t⟩]⟩ := rfl
      rw [hcons, run_append, run_quoted, Option.bind_some, run_append, hcomma, Option.bind_some,
        ih _ (List.cons_ne_nil _ _), List.append_assoc]
      rfl

theorem run_word (bytes n : Text) (found : List StringArgument) {t : Text} (h : ∀ b ∈ t, Byte.isWord b) :
    run ⟨.word bytes, n, found⟩ t = some ⟨.word (bytes ++ t), n, found⟩ := by
  induction t generalizing bytes with
  | nil =>
    rw [List.append_nil]
    rfl
  | cons b t ih =>
    obtain ⟨hb, ht⟩ := List.forall_mem_cons.1 h
    rw [run, List.foldlM_cons, step_word bytes n found (isPlain_of_isWord hb), if_pos hb]
    exact (ih (bytes ++ [b]) ht).trans (by rw [List.append_assoc]; rfl)

end Reader

/-- The last part of a qualified name. -/
def LastPart (qualified name : Text) : Prop :=
  ∃ front mark, qualified = front ++ [mark] ++ name ∧ Plain front ∧ isPlain mark ∧
    Byte.isWord mark = false ∧ name ≠ [] ∧ name.head?.any Byte.isDigit = false ∧ name.all Byte.isWord

theorem LastPart.run_open {qualified name : Text} (h : LastPart qualified name) {s : Reader}
    (hs : s.Outside) : s.run (qualified ++ ascii "(") = some ⟨.code, name, s.found⟩ := by
  obtain ⟨front, mark, rfl, hfront, hmark, hends, hne, hletter, hword⟩ := h
  -- over the front, the mark, the name and the parenthesis
  obtain ⟨s₁, hrun₁, hs₁, hfound⟩ := hfront.reads s hs
  rw [List.append_nil] at hfound
  obtain ⟨mode, n, hstep, -, hmode⟩ := Reader.step_of_isPlain hs₁ hmark
  obtain rfl := hmode hends
  rw [hfound] at hstep
  have hrun₂ : s₁.run [mark] = some ⟨.code, n, s.found⟩ := by
    rw [Reader.run, List.foldlM_cons, hstep]
    rfl
  have hrun₃ : Reader.run ⟨.code, n, s.found⟩ name = some ⟨.word name, n, s.found⟩ := by
    cases name with
    | nil => exact absurd rfl hne
    | cons b bytes =>
      obtain ⟨hb, hbytes⟩ := List.forall_mem_cons.1 (List.all_eq_true.1 hword)
      have hfirst : Reader.step ⟨.code, n, s.found⟩ b = _ :=
        Reader.inCode_of_isPlain ⟨.code, n, s.found⟩ (isPlain_of_isWord hb)
      rw [Reader.run, List.foldlM_cons, hfirst, if_pos hb]
      exact Reader.run_word [b] n s.found hbytes
  have hrun₄ : Reader.run ⟨.word name, n, s.found⟩ [ch '('] = some ⟨.code, name, s.found⟩ := by
    rw [Reader.run, List.foldlM_cons, Reader.step_word name n s.found (by decide), if_neg (by decide),
      hletter]
    rfl
  have hopen : ascii "(" = [ch '('] := rfl
  rw [hopen, Reader.run_append, Reader.run_append, Reader.run_append, hrun₁, Option.bind_some, hrun₂,
    Option.bind_some, hrun₃, Option.bind_some, hrun₄]

/-- A call on literals. -/
theorem LastPart.reads_call {qualified name : Text} (h : LastPart qualified name) {ts : List Text}
    (hne : ts ≠ []) :
    Reads (callText qualified (argsText (ts.map quoted))) (ts.map (⟨name, ·⟩)) := by
  intro s hs
  refine ⟨⟨.code, name, s.found ++ ts.map (⟨name, ·⟩)⟩, ?_, .inl rfl, rfl⟩
  rw [callText, Reader.run_append, Reader.run_append, h.run_open hs, Option.bind_some,
    Reader.run_literals _ _ hne]
  rfl

theorem LastPart.reads_literal {qualified name : Text} (h : LastPart qualified name) (t : Text) :
    Reads (callText qualified (quoted t)) [⟨name, t⟩] := by
  have hone : argsText ([t].map quoted) = quoted t := List.append_nil _
  have hcall := h.reads_call (List.cons_ne_nil t [])
  rwa [hone] at hcall

end TagFormula.Source

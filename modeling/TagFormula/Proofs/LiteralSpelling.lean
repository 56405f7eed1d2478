import TagFormula.Proofs.SourceReader

/-!
What the text between the quotes of a C++ literal spells. The relation `Spells` states the rules of C++17,
and `literalBytes?` decodes with the reader of source text. Main statements: the decoder follows the rules
exactly, and an escaped text is printable and spells the text it was escaped from.
-/

namespace TagFormula.Source

/-! ### The rules -/

def isOctalDigit (b : UInt8) : Bool := (Byte.digitValue? 8 b).isSome

/-- An escape without its backslash, the byte it stands for, and the text behind it. An octal escape has up
to three digits, a hexadecimal one any number; both take all digits that they can. -/
inductive Escape : Text → UInt8 → Text → Prop where
  | simple {e b : UInt8} {rest : Text} (hmem : (e, b) ∈ simpleEscapes) : Escape [e] b rest
  | octal {digits rest : Text} {b : UInt8} (hne : digits ≠ []) (hlength : digits.length ≤ 3)
      (hdigits : ∀ d ∈ digits, isOctalDigit d)
      (hgreedy : digits.length = 3 ∨ ∀ d ∈ rest.head?, isOctalDigit d = false)
      (hvalue : byteOf? 8 digits = some b) : Escape digits b rest
  | hexadecimal {digits rest : Text} {b : UInt8} (hne : digits ≠ [])
      (hdigits : ∀ d ∈ digits, Byte.isHexDigit d) (hgreedy : ∀ d ∈ rest.head?, Byte.isHexDigit d = false)
      (hvalue : byteOf? 16 digits = some b) : Escape (ch 'x' :: digits) b rest

/-- The text between the quotes of a literal, and the bytes it stands for. -/
inductive Spells : Text → Text → Prop where
  | nil : Spells [] []
  | plain {b : UInt8} {t s : Text} (hquote : b ≠ ch '"') (hslash : b ≠ ch '\\') (hnewline : b ≠ ch '\n')
      (h : Spells t s) : Spells (b :: t) (b :: s)
  | escape {e t s : Text} {b : UInt8} (he : Escape e b t) (h : Spells t s) :
      Spells (ch '\\' :: (e ++ t)) (b :: s)

/-! ### The decoder -/

/-- The bytes of a string that stands alone. -/
def only? : List StringArgument → Option Text
  | [a] => some a.bytes
  | _ => none

/-- The bytes of the literal with this text between its quotes, if it is one literal. -/
def literalBytes? (t : Text) : Option Text := (stringArguments ([ch '"'] ++ t ++ [ch '"'])).bind only?

/-- The bytes of the only literal, when the reader stands in it and this text is left of it. -/
def Mode.bytes? (mode : Mode) (t : Text) : Option Text :=
  ((Reader.run ⟨mode, [], []⟩ (t ++ [ch '"'])).bind Reader.result?).bind only?

theorem literalBytes?_eq (t : Text) : literalBytes? t = Mode.bytes? (.literal []) t := rfl

namespace Reader

theorem found_of_inCode {s s' : Reader} {b : UInt8} (h : s.inCode b = some s') : s'.found = s.found := by
  unfold inCode at h
  split_ifs at h <;> cases h <;> rfl

theorem found_prefix_of_inLiteral {s s' : Reader} {body : Text} {b : UInt8}
    (h : s.inLiteral body b = some s') : s.found <+: s'.found := by
  unfold inLiteral at h
  split_ifs at h <;> cases h
  · exact List.prefix_append _ _
  · exact List.prefix_rfl
  · exact List.prefix_rfl

/-- What was found stays. -/
theorem found_prefix_of_step {s s' : Reader} {b : UInt8} (h : s.step b = some s') : s.found <+: s'.found := by
  obtain ⟨mode, n, found⟩ := s
  cases mode with
  | code =>
    rw [found_of_inCode h]
  | word bytes =>
    simp only [step] at h
    split_ifs at h
    · cases h
      exact List.prefix_rfl
    · rw [found_of_inCode h]
    · rw [found_of_inCode h]
  | slash =>
    simp only [step] at h
    split_ifs at h
    rw [found_of_inCode h]
  | literal body => exact found_prefix_of_inLiteral h
  | escape body =>
    simp only [step] at h
    split_ifs at h
    · cases h
      exact List.prefix_rfl
    · cases h
      exact List.prefix_rfl
    · obtain ⟨c, -, rfl⟩ := Option.map_eq_some_iff.1 h
      exact List.prefix_rfl
  | octal body digits =>
    simp only [step] at h
    split_ifs at h
    · obtain ⟨c, -, hc⟩ := Option.bind_eq_some_iff.1 h
      exact found_prefix_of_inLiteral hc
    · cases h
      exact List.prefix_rfl
    · obtain ⟨c, -, rfl⟩ := Option.map_eq_some_iff.1 h
      exact List.prefix_rfl
  | hexadecimal body digits =>
    simp only [step] at h
    split_ifs at h
    · cases h
      exact List.prefix_rfl
    · obtain ⟨c, -, hc⟩ := Option.bind_eq_some_iff.1 h
      exact found_prefix_of_inLiteral hc
  | closed =>
    simp only [step] at h
    split_ifs at h
    · cases h
      exact List.prefix_rfl
    · rw [found_of_inCode h]

theorem found_prefix_of_run {s s' : Reader} {t : Text} (h : s.run t = some s') : s.found <+: s'.found := by
  induction t generalizing s with
  | nil =>
    cases h
    exact List.prefix_rfl
  | cons b t ih =>
    obtain ⟨s₁, hstep, hrun⟩ := Option.bind_eq_some_iff.1 h
    exact (found_prefix_of_step hstep).trans (ih hrun)

/-- A quote ends a text only where it closes a literal. -/
theorem length_found_of_step_quote {s s' : Reader} {found : List StringArgument}
    (h : s.step (ch '"') = some s') (hresult : s'.result? = some found) :
    found.length = s.found.length + 1 := by
  obtain ⟨mode, n, before⟩ := s
  cases mode with
  | code =>
    cases h
    cases hresult
  | word bytes => cases h
  | slash =>
    cases h
    cases hresult
  | literal body =>
    cases h
    cases hresult
    exact List.length_append
  | escape body =>
    cases h
    cases hresult
  | octal body digits =>
    obtain ⟨c, -, hc⟩ := Option.bind_eq_some_iff.1 h
    cases hc
    cases hresult
    exact List.length_append
  | hexadecimal body digits =>
    simp only [step] at h
    split_ifs at h with hhex
    · cases hhex
    · obtain ⟨c, -, hc⟩ := Option.bind_eq_some_iff.1 h
      cases hc
      cases hresult
      exact List.length_append
  | closed => cases h

/-- Behind a literal, a text that ends with a quote holds a second one. -/
theorem only?_of_found {s : Reader} (h : s.found ≠ []) (t : Text) :
    ((s.run (t ++ [ch '"'])).bind result?).bind only? = none := by
  cases hrun : (s.run (t ++ [ch '"'])).bind result? with
  | none => rfl
  | some found =>
    obtain ⟨s₂, hall, hresult⟩ := Option.bind_eq_some_iff.1 hrun
    rw [run_append] at hall
    obtain ⟨s₁, hfirst, hlast⟩ := Option.bind_eq_some_iff.1 hall
    obtain ⟨_, hstep, hnil⟩ := Option.bind_eq_some_iff.1 hlast
    cases hnil
    have hcount := length_found_of_step_quote hstep hresult
    have hkept := (found_prefix_of_run hfirst).length_le
    have hone := List.length_pos_iff.2 h
    rcases found with - | ⟨a, - | ⟨b, found⟩⟩
    · rfl
    · simp only [List.length_singleton] at hcount
      omega
    · rfl

end Reader

namespace Mode

theorem bytes?_literal_nil (body : Text) : bytes? (.literal body) [] = some body := rfl

theorem bytes?_cons (mode : Mode) (b : UInt8) (t : Text) :
    bytes? mode (b :: t) = (((Reader.step ⟨mode, [], []⟩ b).bind (Reader.run · (t ++ [ch '"']))).bind
      Reader.result?).bind only? := rfl

theorem bytes?_literal_cons (body : Text) (b : UInt8) (t : Text) :
    bytes? (.literal body) (b :: t) =
      if b = ch '"' ∨ b = ch '\n' then none
      else if b = ch '\\' then bytes? (.escape body) t
      else bytes? (.literal (body ++ [b])) t := by
  rw [bytes?_cons]
  simp only [Reader.step, Reader.inLiteral, beq_iff_eq]
  by_cases hquote : b = ch '"'
  · rw [if_pos hquote, if_pos (.inl hquote)]
    exact Reader.only?_of_found (List.cons_ne_nil _ _) t
  by_cases hslash : b = ch '\\'
  · subst hslash
    rfl
  by_cases hnewline : b = ch '\n'
  · subst hnewline
    rfl
  · simp only [hquote, hslash, hnewline, or_self, if_false]
    rfl

theorem bytes?_escape_nil (body : Text) : bytes? (.escape body) [] = none := rfl

theorem bytes?_escape_cons (body : Text) (b : UInt8) (t : Text) :
    bytes? (.escape body) (b :: t) =
      if isOctalDigit b then bytes? (.octal body [b]) t
      else if b = ch 'x' then bytes? (.hexadecimal body []) t
      else (simpleEscapes.lookup b).bind fun c => bytes? (.literal (body ++ [c])) t := by
  by_cases hoctal : isOctalDigit b
  · have hstep : Reader.step ⟨.escape body, [], []⟩ b = some ⟨.octal body [b], [], []⟩ := if_pos hoctal
    rw [bytes?_cons, hstep, if_pos hoctal]
    rfl
  by_cases hx : b = ch 'x'
  · subst hx
    rfl
  · have hstep : Reader.step ⟨.escape body, [], []⟩ b
        = (simpleEscapes.lookup b).map fun c => ⟨.literal (body ++ [c]), [], []⟩ :=
      (if_neg hoctal).trans (if_neg (by simpa using hx))
    rw [bytes?_cons, hstep, if_neg hoctal, if_neg hx]
    cases simpleEscapes.lookup b <;> rfl

/-- An escape that the next byte ends is read before this byte. -/
theorem bytes?_of_step {mode : Mode} {body : Text} {value : Option UInt8} {t : Text}
    (h : ∀ b ∈ (t ++ [ch '"']).head?, Reader.step ⟨mode, [], []⟩ b
      = value.bind fun c => Reader.step ⟨.literal (body ++ [c]), [], []⟩ b) :
    bytes? mode t = value.bind fun c => bytes? (.literal (body ++ [c])) t := by
  obtain ⟨b, u, hu⟩ : ∃ b u, t ++ [ch '"'] = b :: u := List.exists_cons_of_ne_nil (by simp)
  have hstep := h b (by rw [hu]; rfl)
  simp only [bytes?, hu, Reader.run, List.foldlM_cons, hstep]
  cases value <;> rfl

theorem eq_false_of_mem_head?_closed (kind : UInt8 → Bool) (hquote : kind (ch '"') = false) {t : Text}
    (h : ∀ d ∈ t.head?, kind d = false) : ∀ d ∈ (t ++ [ch '"']).head?, kind d = false := by
  cases t with
  | nil =>
    intro d hd
    cases hd
    exact hquote
  | cons b t => exact h

theorem bytes?_octal_of_head {body digits t : Text}
    (h : ∀ d ∈ t.head?, isOctalDigit d = false) :
    bytes? (.octal body digits) t = (byteOf? 8 digits).bind fun c => bytes? (.literal (body ++ [c])) t := by
  refine bytes?_of_step fun b hb => ?_
  have hend := eq_false_of_mem_head?_closed isOctalDigit rfl h b hb
  exact if_pos (by simpa [isOctalDigit] using hend)

theorem bytes?_octal_cons {body digits t : Text} {b : UInt8} (h : isOctalDigit b) :
    bytes? (.octal body digits) (b :: t) =
      if digits.length < 2 then bytes? (.octal body (digits ++ [b])) t
      else (byteOf? 8 (digits ++ [b])).bind fun c => bytes? (.literal (body ++ [c])) t := by
  rw [bytes?_cons, Reader.step_octal h]
  split_ifs
  · rfl
  · cases byteOf? 8 (digits ++ [b]) <;> rfl

/-- Behind one or two digits, an octal escape takes more of them until there are three. -/
theorem bytes?_octal_append {body digits more rest : Text} (hshort : digits.length ≤ 2)
    (hlength : (digits ++ more).length ≤ 3) (hmore : ∀ d ∈ more, isOctalDigit d)
    (hgreedy : (digits ++ more).length = 3 ∨ ∀ d ∈ rest.head?, isOctalDigit d = false) :
    bytes? (.octal body digits) (more ++ rest)
      = (byteOf? 8 (digits ++ more)).bind fun c => bytes? (.literal (body ++ [c])) rest := by
  induction more generalizing digits with
  | nil =>
    rw [List.append_nil] at hgreedy ⊢
    exact bytes?_octal_of_head (hgreedy.resolve_left (by omega))
  | cons b more ih =>
    obtain ⟨hb, hmore⟩ := List.forall_mem_cons.1 hmore
    have hassoc : digits ++ b :: more = digits ++ [b] ++ more := by simp
    rw [hassoc] at hlength hgreedy ⊢
    rw [List.cons_append, bytes?_octal_cons hb]
    split_ifs with hlt
    · have hshort : (digits ++ [b]).length ≤ 2 := by
        rw [List.length_append, List.length_singleton]
        omega
      exact ih hshort hlength hmore hgreedy
    · -- three digits end the escape, so there are no more
      rw [List.length_append, List.length_append, List.length_singleton] at hlength
      have hnil : more = [] := List.length_eq_zero_iff.1 (by omega)
      rw [hnil, List.append_nil, List.nil_append]

theorem bytes?_hexadecimal_append {body digits more rest : Text} (hne : digits ++ more ≠ [])
    (hmore : ∀ d ∈ more, Byte.isHexDigit d) (hgreedy : ∀ d ∈ rest.head?, Byte.isHexDigit d = false) :
    bytes? (.hexadecimal body digits) (more ++ rest)
      = (byteOf? 16 (digits ++ more)).bind fun c => bytes? (.literal (body ++ [c])) rest := by
  induction more generalizing digits with
  | nil =>
    rw [List.append_nil] at hne ⊢
    refine bytes?_of_step fun b hb => ?_
    have hend := eq_false_of_mem_head?_closed Byte.isHexDigit rfl hgreedy b hb
    exact (if_neg (by simp [hend])).trans (if_neg (by simpa using hne))
  | cons b more ih =>
    obtain ⟨hb, hmore⟩ := List.forall_mem_cons.1 hmore
    have hassoc : digits ++ b :: more = digits ++ [b] ++ more := by simp
    have hstep : Reader.step ⟨.hexadecimal body digits, [], []⟩ b
        = some ⟨.hexadecimal body (digits ++ [b]), [], []⟩ := if_pos hb
    rw [hassoc] at hne ⊢
    rw [List.cons_append, bytes?_cons, hstep]
    exact ih hne hmore

theorem bytes?_hexadecimal_none {body rest : Text} (h : ∀ d ∈ rest.head?, Byte.isHexDigit d = false) :
    bytes? (.hexadecimal body []) rest = none := by
  have hstep : ∀ b ∈ (rest ++ [ch '"']).head?, Reader.step ⟨.hexadecimal body [], [], []⟩ b
      = (none : Option UInt8).bind fun c => Reader.step ⟨.literal (body ++ [c]), [], []⟩ b := by
    intro b hb
    have hend := eq_false_of_mem_head?_closed Byte.isHexDigit rfl h b hb
    exact (if_neg (by simp [hend])).trans (if_pos rfl)
  exact bytes?_of_step hstep

end Mode

/-! ### The decoder follows the rules -/

theorem lookup_simpleEscapes_iff {e b : UInt8} :
    simpleEscapes.lookup e = some b ↔ (e, b) ∈ simpleEscapes := by
  constructor
  · intro h
    obtain ⟨before, after, heq, -⟩ := List.lookup_eq_some_iff.1 h
    rw [heq]
    exact List.mem_append_right before (List.mem_cons_self ..)
  · intro h
    have hall : simpleEscapes.all fun p => simpleEscapes.lookup p.1 == some p.2 := by decide
    exact beq_iff_eq.1 (List.all_eq_true.1 hall _ h)

/-- As many bytes of a kind as stand at the start of a text, up to a number. -/
theorem exists_greedy (kind : UInt8 → Bool) (n : Nat) (t : Text) :
    ∃ front rest, t = front ++ rest ∧ (∀ d ∈ front, kind d) ∧ front.length ≤ n ∧
      (front.length = n ∨ ∀ d ∈ rest.head?, kind d = false) := by
  induction n generalizing t with
  | zero => exact ⟨[], t, rfl, List.forall_mem_nil _, le_rfl, .inl rfl⟩
  | succ n ih =>
    cases t with
    | nil => exact ⟨[], [], rfl, List.forall_mem_nil _, Nat.zero_le _, .inr (by simp)⟩
    | cons b t =>
      cases hb : kind b with
      | false => exact ⟨[], b :: t, rfl, List.forall_mem_nil _, Nat.zero_le _, .inr (by simp [hb])⟩
      | true =>
        obtain ⟨front, rest, rfl, hfront, hlength, hgreedy⟩ := ih t
        refine ⟨b :: front, rest, rfl, List.forall_mem_cons.2 ⟨hb, hfront⟩, Nat.succ_le_succ hlength, ?_⟩
        exact hgreedy.imp_left (congrArg (· + 1))

open Mode

theorem Escape.bytes?_append {e rest : Text} {c : UInt8} (h : Escape e c rest) (body : Text) :
    bytes? (.escape body) (e ++ rest) = bytes? (.literal (body ++ [c])) rest := by
  cases h with
  | @simple e c rest hmem =>
    have hall : simpleEscapes.all fun p => !isOctalDigit p.1 && p.1 != ch 'x' := by decide
    obtain ⟨hdigit, hx⟩ := Bool.and_eq_true_iff.1 (List.all_eq_true.1 hall _ hmem)
    rw [List.singleton_append, bytes?_escape_cons, if_neg (by simpa using hdigit), if_neg (bne_iff_ne.1 hx),
      lookup_simpleEscapes_iff.2 hmem, Option.bind_some]
  | octal hne hlength hdigits hgreedy hvalue =>
    obtain ⟨d, more, rfl⟩ := List.exists_cons_of_ne_nil hne
    obtain ⟨hd, hmore⟩ := List.forall_mem_cons.1 hdigits
    rw [List.cons_append, bytes?_escape_cons, if_pos hd]
    rw [bytes?_octal_append (by simp) hlength hmore hgreedy]
    exact congrArg (Option.bind · _) hvalue
  | @hexadecimal digits rest c hne hdigits hgreedy hvalue =>
    have hx : isOctalDigit (ch 'x') = false := rfl
    rw [List.cons_append, bytes?_escape_cons, if_neg (by simp [hx]), if_pos rfl,
      bytes?_hexadecimal_append (by simpa using hne) hdigits hgreedy, List.nil_append, hvalue,
      Option.bind_some]

theorem exists_escape_of_bytes? {body t s : Text} (h : bytes? (.escape body) t = some s) :
    ∃ e c rest, t = e ++ rest ∧ Escape e c rest ∧ bytes? (.literal (body ++ [c])) rest = some s := by
  cases t with
  | nil =>
    rw [bytes?_escape_nil] at h
    cases h
  | cons b t =>
    rw [bytes?_escape_cons] at h
    split_ifs at h with hoctal hx
    · obtain ⟨more, rest, rfl, hmore, hlength, hgreedy⟩ :=
        exists_greedy isOctalDigit 2 t
      have hthree : ([b] ++ more).length = 3 ∨ ∀ d ∈ rest.head?, isOctalDigit d = false :=
        hgreedy.imp_left (congrArg (· + 1))
      have hmost : ([b] ++ more).length ≤ 3 := Nat.succ_le_succ hlength
      rw [bytes?_octal_append (by simp) hmost hmore hthree] at h
      obtain ⟨c, hvalue, h⟩ := Option.bind_eq_some_iff.1 h
      exact ⟨b :: more, c, rest, rfl,
        .octal (List.cons_ne_nil _ _) hmost (List.forall_mem_cons.2 ⟨hoctal, hmore⟩) hthree hvalue, h⟩
    · subst hx
      obtain ⟨digits, rest, rfl, hdigits, hlength, hgreedy⟩ := exists_greedy Byte.isHexDigit t.length t
      have hend : ∀ d ∈ rest.head?, Byte.isHexDigit d = false := by
        refine hgreedy.elim (fun hall => ?_) id
        rw [List.length_append] at hall
        have hnil : rest = [] := List.length_eq_zero_iff.1 (by omega)
        simp [hnil]
      by_cases hne : digits = []
      · subst hne
        rw [List.nil_append, bytes?_hexadecimal_none hend] at h
        cases h
      · rw [bytes?_hexadecimal_append (by simpa using hne) hdigits hend] at h
        obtain ⟨c, hvalue, h⟩ := Option.bind_eq_some_iff.1 h
        exact ⟨ch 'x' :: digits, c, rest, rfl, .hexadecimal hne hdigits hend hvalue, h⟩
    · obtain ⟨c, hc, h⟩ := Option.bind_eq_some_iff.1 h
      exact ⟨[b], c, t, rfl, .simple (lookup_simpleEscapes_iff.1 hc), h⟩

theorem Spells.bytes?_literal {t s : Text} (h : Spells t s) (body : Text) :
    bytes? (.literal body) t = some (body ++ s) := by
  induction h generalizing body with
  | nil => rw [bytes?_literal_nil, List.append_nil]
  | plain hquote hslash hnewline h ih =>
    rw [bytes?_literal_cons, if_neg (by simp [hquote, hnewline]), if_neg hslash, ih]
    simp
  | escape he h ih =>
    rw [bytes?_literal_cons, if_neg (by decide), if_pos rfl, he.bytes?_append, ih]
    simp

theorem exists_spells_of_bytes? {body t s : Text} (h : bytes? (.literal body) t = some s) :
    ∃ u, Spells t u ∧ s = body ++ u := by
  -- on the length of the text, since an escape takes several bytes of it
  induction hn : t.length using Nat.strong_induction_on generalizing t body with
  | _ n ih =>
    cases t with
    | nil =>
      rw [bytes?_literal_nil] at h
      cases h
      exact ⟨[], .nil, (List.append_nil _).symm⟩
    | cons b t =>
      rw [bytes?_literal_cons] at h
      split_ifs at h with hbad hslash
      · subst hslash
        obtain ⟨e, c, rest, rfl, he, h⟩ := exists_escape_of_bytes? h
        rw [List.length_cons, List.length_append] at hn
        obtain ⟨u, hu, rfl⟩ := ih rest.length (by omega) h rfl
        exact ⟨c :: u, .escape he hu, by simp⟩
      · rw [not_or] at hbad
        rw [List.length_cons] at hn
        obtain ⟨u, hu, rfl⟩ := ih t.length (by omega) h rfl
        exact ⟨b :: u, .plain hbad.1 hslash hbad.2 hu, by simp⟩

/-- The decoder follows the rules. -/
theorem literalBytes?_eq_some_iff {t s : Text} : literalBytes? t = some s ↔ Spells t s := by
  rw [literalBytes?_eq]
  constructor
  · intro h
    obtain ⟨u, hu, rfl⟩ := exists_spells_of_bytes? h
    exact hu
  · intro h
    exact h.bytes?_literal []

example : literalBytes? (ascii "\\11\\0011\\x2a") = some [9, 1, ch '1', ch '*'] := by decide
example : literalBytes? (ascii "a\"b") = none ∧ literalBytes? (ascii "\\400") = none := by decide

/-! ### Escaped text -/

/-- From the space to the tilde. -/
def isPrintable (b : UInt8) : Bool := 0x20 ≤ b && b ≤ 0x7e

theorem isPrintable_iff {b : UInt8} : isPrintable b ↔ 32 ≤ b.toNat ∧ b.toNat ≤ 126 := by
  simp [isPrintable, UInt8.le_iff_toNat_le]

/-- Whether a backslash escapes the byte behind a text. A backslash that is escaped itself escapes nothing. -/
def opensEscape (t : Text) : Bool := t.foldl (fun escaped b => !escaped && b == ch '\\') false

/-- A byte stands somewhere in a text and is not escaped there. -/
def Unescaped (mark : UInt8) (t : Text) : Prop :=
  ∃ before after, t = before ++ mark :: after ∧ opensEscape before = false

theorem opensEscape_append {t : Text} (h : opensEscape t = false) (u : Text) :
    opensEscape (t ++ u) = opensEscape u := by
  rw [opensEscape, List.foldl_append]
  exact congrArg (u.foldl _) h

theorem opensEscape_of_notMem {t : Text} (h : ch '\\' ∉ t) : opensEscape t = false := by
  induction t with
  | nil => rfl
  | cons b t ih =>
    rw [List.mem_cons, not_or] at h
    have hb : opensEscape [b] = false := by simpa [opensEscape] using Ne.symm h.1
    exact (opensEscape_append hb t).trans (ih h.2)

theorem unescaped_append {mark : UInt8} {t u : Text} (ht : opensEscape t = false)
    (h : Unescaped mark (t ++ u)) : Unescaped mark t ∨ Unescaped mark u := by
  obtain ⟨before, after, heq, hbefore⟩ := h
  rcases List.append_eq_append_iff.1 heq with ⟨middle, rfl, hu⟩ | ⟨middle, hmiddle, hafter⟩
  · rw [opensEscape_append ht] at hbefore
    exact .inr ⟨middle, after, hu, hbefore⟩
  · rcases middle with - | ⟨b, middle⟩
    · exact .inr ⟨[], after, hafter.symm, rfl⟩
    · obtain ⟨rfl, -⟩ := List.cons.inj hafter
      exact .inl ⟨before, middle, hmiddle, hbefore⟩

theorem not_unescaped_of_notMem {mark : UInt8} {t : Text} (h : mark ∉ t) : ¬Unescaped mark t := by
  rintro ⟨before, after, rfl, -⟩
  exact h (by simp)

/-- In an escape of one character only the backslash itself is not escaped. -/
theorem not_unescaped_pair {mark : UInt8} (h : mark ≠ ch '\\') (c : UInt8) :
    ¬Unescaped mark [ch '\\', c] := by
  rintro ⟨before, after, heq, hbefore⟩
  rcases before with - | ⟨b, - | ⟨d, before⟩⟩
  · exact h (List.cons.inj heq).1.symm
  · obtain ⟨rfl, -⟩ := List.cons.inj heq
    cases hbefore
  · simp at heq

theorem isDigit_of_mem_octal {b d : UInt8} (h : d ∈ octal b) : Byte.isDigit d := by
  simp only [octal, List.mem_cons, List.not_mem_nil, or_false] at h
  rcases h with rfl | rfl | rfl <;> exact isDigit_octalDigit _

theorem isPrintable_of_isDigit {b : UInt8} (h : Byte.isDigit b) : isPrintable b := by
  rw [Byte.isDigit_iff] at h
  rw [isPrintable_iff]
  omega

/-- A byte is written behind a backslash, in octal digits, or as it is. -/
theorem escapeByte_cases (b : UInt8) :
    (∃ c, escapeByte b = [ch '\\', c] ∧ isPrintable c) ∨
    (escapeByte b = ch '\\' :: octal b) ∨
    (escapeByte b = [b] ∧ isPrintable b ∧ b ≠ ch '\\' ∧ b ≠ ch '"' ∧ b ≠ ch '?') := by
  unfold escapeByte
  split_ifs with hslash hquote hnewline hreturn htab hmark hoctal
  · exact .inl ⟨_, rfl, by decide⟩
  · exact .inl ⟨_, rfl, by decide⟩
  · exact .inl ⟨_, rfl, by decide⟩
  · exact .inl ⟨_, rfl, by decide⟩
  · exact .inl ⟨_, rfl, by decide⟩
  · exact .inl ⟨_, rfl, by decide⟩
  · exact .inr (.inl rfl)
  · have hrange : 32 ≤ b.toNat ∧ b.toNat < 127 := by
      simpa [UInt8.le_iff_toNat_le, UInt8.lt_iff_toNat_lt] using hoctal
    refine .inr (.inr ⟨rfl, isPrintable_iff.2 ⟨hrange.1, by omega⟩, ?_⟩)
    exact ⟨by simpa using hslash, by simpa using hquote, by simpa using hmark⟩

theorem isPrintable_of_mem_escapeByte {b c : UInt8} (h : c ∈ escapeByte b) : isPrintable c := by
  rcases escapeByte_cases b with ⟨d, heq, hd⟩ | heq | ⟨heq, hb, -⟩ <;> rw [heq] at h
  · simp only [List.mem_cons, List.not_mem_nil, or_false] at h
    rcases h with rfl | rfl
    · decide
    · exact hd
  · rcases List.mem_cons.1 h with rfl | h
    · decide
    · exact isPrintable_of_isDigit (isDigit_of_mem_octal h)
  · rwa [List.mem_singleton.1 h]

theorem opensEscape_escapeByte (b : UInt8) : opensEscape (escapeByte b) = false := by
  rcases escapeByte_cases b with ⟨d, heq, -⟩ | heq | ⟨heq, -, hb, -⟩ <;> rw [heq]
  · rfl
  · -- the first digit is escaped, and no digit is a backslash
    have hslash : ch '\\' ∉ octal b := fun hmem => absurd (isDigit_of_mem_octal hmem) (by decide)
    obtain ⟨d, digits, hoctal⟩ : ∃ d digits, octal b = d :: digits := ⟨_, _, rfl⟩
    rw [hoctal, List.mem_cons, not_or] at hslash
    have hpair : opensEscape [ch '\\', d] = false := rfl
    rw [hoctal]
    exact (opensEscape_append hpair digits).trans (opensEscape_of_notMem hslash.2)
  · exact opensEscape_of_notMem (by simpa using hb.symm)

/-- Quotes and question marks are written behind a backslash. -/
theorem not_unescaped_escapeByte {mark : UInt8} (h : mark = ch '"' ∨ mark = ch '?') (b : UInt8) :
    ¬Unescaped mark (escapeByte b) := by
  have hslash : mark ≠ ch '\\' := by rcases h with rfl | rfl <;> decide
  have hdigit : Byte.isDigit mark = false := by rcases h with rfl | rfl <;> rfl
  rcases escapeByte_cases b with ⟨d, heq, -⟩ | heq | ⟨heq, -, -, hquote, hquestion⟩ <;> rw [heq]
  · exact not_unescaped_pair hslash d
  · refine not_unescaped_of_notMem fun hmem => ?_
    rcases List.mem_cons.1 hmem with heq | hmem
    · exact hslash heq
    · rw [isDigit_of_mem_octal hmem] at hdigit
      cases hdigit
  · refine not_unescaped_of_notMem fun hmem => ?_
    obtain rfl := List.mem_singleton.1 hmem
    exact h.elim hquote hquestion

theorem escape_cons (b : UInt8) (s : Text) : escape (b :: s) = escapeByte b ++ escape s := List.flatMap_cons

theorem escape_append (s t : Text) : escape (s ++ t) = escape s ++ escape t := List.flatMap_append

theorem not_unescaped_escape {mark : UInt8} (h : mark = ch '"' ∨ mark = ch '?') (s : Text) :
    ¬Unescaped mark (escape s) := by
  induction s with
  | nil => exact not_unescaped_of_notMem List.not_mem_nil
  | cons b s ih =>
    rw [escape_cons]
    intro hmark
    rcases unescaped_append (opensEscape_escapeByte b) hmark with hbyte | hrest
    · exact not_unescaped_escapeByte h b hbyte
    · exact ih hrest

theorem literalBytes?_escape (s : Text) : literalBytes? (escape s) = some s := by
  rw [literalBytes?_eq, Mode.bytes?, Reader.run_append, Reader.run_escape]
  rfl

/-- Escaped text is printable, holds no quote and no question mark that is not escaped, and stands for the
text it was made from and for no other. Texts may be joined before or after they are escaped. -/
theorem escape_invertible (s t : Text) :
    (escape s).all isPrintable ∧
    ¬Unescaped (ch '"') (escape s) ∧ ¬Unescaped (ch '?') (escape s) ∧
    literalBytes? (escape s) = some s ∧ (∀ u, Spells (escape s) u ↔ u = s) ∧
    escape (s ++ t) = escape s ++ escape t := by
  refine ⟨?_, not_unescaped_escape (.inl rfl) s, not_unescaped_escape (.inr rfl) s, literalBytes?_escape s,
    ?_, escape_append s t⟩
  · rw [List.all_eq_true]
    intro b hb
    obtain ⟨c, -, hc⟩ := List.mem_flatMap.1 hb
    exact isPrintable_of_mem_escapeByte hc
  · intro u
    rw [← literalBytes?_eq_some_iff, literalBytes?_escape, Option.some_inj]
    exact eq_comm

end TagFormula.Source

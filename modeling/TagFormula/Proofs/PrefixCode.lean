import Mathlib.Data.List.Infix
import Mathlib.Data.List.Pairwise
import TagFormula.Proofs.NumberToken
import TagFormula.Source.Expression

/-!
Texts that can be told apart at the start of any text. Main statements: string literals, integers in
parentheses and the steps of a path are such families, so that what they were written from can be read off
whatever stands behind them.
-/

namespace TagFormula

/-- No text starts with both. -/
def Apart (s t : Text) : Prop := ∀ u v, s ++ u ≠ t ++ v

/-- Texts of a family end where they end whatever stands behind them, and no two of them start alike. -/
def PrefixCode {α : Type} (w : α → Text) : Prop := ∀ a b u v, w a ++ u = w b ++ v → a = b ∧ u = v

theorem apart_iff {s t : Text} : Apart s t ↔ s.isPrefixOf t = false ∧ t.isPrefixOf s = false := by
  simp only [← Bool.not_eq_true, List.isPrefixOf_iff_prefix]
  constructor
  · intro h
    constructor
    · rintro ⟨u, hu⟩
      exact h u [] (by rw [hu, List.append_nil])
    · rintro ⟨u, hu⟩
      exact h [] u (by rw [hu, List.append_nil])
  · rintro ⟨hst, hts⟩ u v h
    have hs : s <+: t ++ v := ⟨u, h⟩
    have ht : t <+: t ++ v := ⟨v, rfl⟩
    rcases List.prefix_or_prefix_of_prefix hs ht with hp | hp
    · exact hst hp
    · exact hts hp

instance (s t : Text) : Decidable (Apart s t) := decidable_of_iff _ apart_iff.symm

theorem Apart.symm {s t : Text} (h : Apart s t) : Apart t s := fun u v heq => h v u heq.symm

theorem Apart.append {s t : Text} (h : Apart s t) (x y : Text) : Apart (s ++ x) (t ++ y) := by
  intro u v heq
  rw [List.append_assoc, List.append_assoc] at heq
  exact h _ _ heq

/-- Any two of finitely many things, when all are told apart by how they start. -/
theorem apart_of_pairwise {α : Type} {start : α → Text} {as : List α}
    (h : as.Pairwise fun a b => Apart (start a) (start b)) {a b : α} (ha : a ∈ as) (hb : b ∈ as)
    (hne : a ≠ b) : Apart (start a) (start b) := by
  have : Std.Symm fun a b => Apart (start a) (start b) := ⟨fun _ _ => Apart.symm⟩
  exact h.forall ha hb hne

namespace PrefixCode

variable {α β : Type} {w : α → Text} {x : β → Text}

theorem injective (h : PrefixCode w) : Function.Injective w := by
  intro a b hab
  exact (h a b [] [] (by rw [hab])).1

theorem apart (h : PrefixCode w) {a b : α} (hne : a ≠ b) : Apart (w a) (w b) :=
  fun u v heq => hne (h a b u v heq).1

/-- A family that a reader gives back. -/
theorem of_reader (read : Text → Option (α × Text)) (h : ∀ a u, read (w a ++ u) = some (a, u)) :
    PrefixCode w := by
  intro a b u v heq
  have hread := congrArg read heq
  rw [h, h] at hread
  exact Prod.mk.inj (Option.some.inj hread)

/-- Different texts without a certain byte, each with that byte behind it. -/
theorem delimited (hw : Function.Injective w) {d : UInt8} (hd : ∀ a, d ∉ w a) :
    PrefixCode fun a => w a ++ [d] := by
  intro a b u v heq
  have hends : ∀ a u, (w a ++ [d] ++ u).takeWhile (· != d) = w a := by
    intro a u
    have hne : ∀ c ∈ w a, (c != d) = true := fun c hc => bne_iff_ne.2 fun hcd => hd a (hcd ▸ hc)
    simp [List.takeWhile_append_of_pos hne]
  have hab : a = b := hw (by rw [← hends a u, ← hends b v, heq])
  exact ⟨hab, List.append_cancel_left (hab ▸ heq)⟩

theorem append_left (h : PrefixCode w) (t : Text) : PrefixCode fun a => t ++ w a := by
  intro a b u v heq
  rw [List.append_assoc, List.append_assoc] at heq
  exact h a b u v (List.append_cancel_left heq)

theorem append_right (h : PrefixCode w) (t : Text) : PrefixCode fun a => w a ++ t := by
  intro a b u v heq
  rw [List.append_assoc, List.append_assoc] at heq
  obtain ⟨hab, huv⟩ := h a b _ _ heq
  exact ⟨hab, List.append_cancel_left huv⟩

/-- One text behind another. -/
theorem pair (h : PrefixCode w) (hx : PrefixCode x) : PrefixCode fun p : α × β => w p.1 ++ x p.2 := by
  rintro ⟨a, b⟩ ⟨a', b'⟩ u v heq
  rw [List.append_assoc, List.append_assoc] at heq
  obtain ⟨rfl, hrest⟩ := h a a' _ _ heq
  obtain ⟨rfl, huv⟩ := hx b b' u v hrest
  exact ⟨rfl, huv⟩

/-- Sequences, with a byte behind them that starts no member. -/
theorem flatMap (h : PrefixCode w) {d : UInt8} (hd : ∀ a, Apart (w a) [d]) :
    PrefixCode fun as : List α => as.flatMap w ++ [d] := by
  intro as
  induction as with
  | nil =>
    intro bs u v heq
    cases bs with
    | nil => exact ⟨rfl, List.append_cancel_left heq⟩
    | cons b bs =>
      simp only [List.flatMap_nil, List.nil_append, List.flatMap_cons, List.append_assoc] at heq
      exact absurd heq.symm (hd b _ _)
  | cons a as ih =>
    intro bs u v heq
    cases bs with
    | nil =>
      simp only [List.flatMap_nil, List.nil_append, List.flatMap_cons, List.append_assoc] at heq
      exact absurd heq (hd a _ _)
    | cons b bs =>
      simp only [List.flatMap_cons, List.append_assoc] at heq
      obtain ⟨rfl, hrest⟩ := h a b _ _ heq
      obtain ⟨rfl, huv⟩ := ih bs u v (by simpa only [List.append_assoc] using hrest)
      exact ⟨rfl, huv⟩

end PrefixCode

/-! ### String literals -/

namespace Source

/-- The byte that a text starts with inside a string literal, and what stands behind it. -/
def unescapeByte? : Text → Option (UInt8 × Text)
  | [] => none
  | b :: rest =>
    if b != ch '\\' then some (b, rest)
    else
      match rest with
      | [] => none
      | c :: rest =>
        if c == ch 'n' then some (ch '\n', rest)
        else if c == ch 'r' then some (ch '\r', rest)
        else if c == ch 't' then some (ch '\t', rest)
        else if !Byte.isDigit c then some (c, rest)
        else
          match rest with
          | d :: e :: rest =>
            some ((64 * (c.toNat - 48) + 8 * (d.toNat - 48) + (e.toNat - 48)).toUInt8, rest)
          | _ => none

theorem toNat_octalDigit (n : Nat) : (48 + n % 8).toUInt8.toNat = 48 + n % 8 := by
  simp only [Nat.toUInt8_eq, UInt8.toNat_ofNat']
  omega

theorem isDigit_octalDigit (n : Nat) : Byte.isDigit (48 + n % 8).toUInt8 := by
  rw [Byte.isDigit_iff, toNat_octalDigit]
  omega

theorem unescapeByte?_octal (b : UInt8) (u : Text) :
    unescapeByte? (ch '\\' :: octal b ++ u) = some (b, u) := by
  have hdigit := isDigit_octalDigit (b.toNat / 64)
  have hne : ∀ c : UInt8, Byte.isDigit c = false → ((48 + b.toNat / 64 % 8).toUInt8 == c) = false :=
    fun c hc => beq_eq_false_iff_ne.2 (Byte.ne_of_isDigit hdigit hc)
  have hvalue : 64 * (b.toNat / 64 % 8) + 8 * (b.toNat / 8 % 8) + b.toNat % 8 = b.toNat := by
    have := b.toNat_lt
    omega
  simp only [octal, List.cons_append, List.nil_append, unescapeByte?, bne_self_eq_false,
    hne (ch 'n') rfl, hne (ch 'r') rfl, hne (ch 't') rfl, hdigit, toNat_octalDigit,
    Nat.add_sub_cancel_left, hvalue, Bool.not_true, Bool.false_eq_true, if_false]
  simp

theorem unescapeByte?_escapeByte (b : UInt8) (u : Text) :
    unescapeByte? (escapeByte b ++ u) = some (b, u) := by
  unfold escapeByte
  split_ifs with hslash hquote hnewline hreturn htab hmark hoctal
  · rw [beq_iff_eq.1 hslash]
    rfl
  · rw [beq_iff_eq.1 hquote]
    rfl
  · rw [beq_iff_eq.1 hnewline]
    rfl
  · rw [beq_iff_eq.1 hreturn]
    rfl
  · rw [beq_iff_eq.1 htab]
    rfl
  · rw [beq_iff_eq.1 hmark]
    rfl
  · exact unescapeByte?_octal b u
  · simp [unescapeByte?, bne, hslash]

theorem prefixCode_escapeByte : PrefixCode escapeByte :=
  .of_reader unescapeByte? unescapeByte?_escapeByte

/-- A quotation mark inside a string literal is escaped. -/
theorem apart_escapeByte_quote (b : UInt8) : Apart (escapeByte b) [ch '"'] := by
  intro u v h
  have hread : some (ch '"', v) = some (b, u) := by
    rw [← unescapeByte?_escapeByte b u, h]
    rfl
  obtain ⟨rfl, -⟩ := Prod.mk.inj (Option.some.inj hread)
  exact absurd (List.cons.inj h).1 (by decide)

/-- A string literal ends where it ends, whatever stands behind it. -/
theorem prefixCode_quoted : PrefixCode quoted :=
  (prefixCode_escapeByte.flatMap apart_escapeByte_quote).append_left [ch '"']

/-! ### Integers -/

theorem isDigit_or_of_mem_ofInt {i : Int} {b : UInt8} (h : b ∈ Text.ofInt i) :
    Byte.isDigit b ∨ b = ch '-' := by
  unfold Text.ofInt at h
  split at h
  · rcases List.mem_cons.1 h with rfl | h
    · exact Or.inr rfl
    · exact Or.inl (Text.isDigit_of_mem_ofNat _ b h)
  · exact Or.inl (Text.isDigit_of_mem_ofNat _ b h)

theorem ofNat_injective : Function.Injective Text.ofNat := by
  intro n m h
  rw [← Text.natValue_ofNat n, h, Text.natValue_ofNat]

theorem ofInt_injective : Function.Injective Text.ofInt := by
  -- a sign is no digit
  have hsign : ∀ n t, Text.ofNat n ≠ ch '-' :: t := by
    intro n t h
    have := Text.isDigit_of_mem_ofNat n (ch '-') (by rw [h]; exact List.mem_cons_self ..)
    cases this
  intro i j h
  unfold Text.ofInt at h
  split_ifs at h with hi hj hj
  · have := ofNat_injective (List.cons.inj h).2
    omega
  · exact absurd h.symm (hsign _ _)
  · exact absurd h (hsign _ _)
  · have := ofNat_injective h
    omega

theorem prefixCode_ofInt : PrefixCode fun i : Int64 => Text.ofInt i.toInt ++ [ch ')'] := by
  refine .delimited (fun i j h => Int64.toInt_inj.1 (ofInt_injective h)) fun i hmem => ?_
  rcases isDigit_or_of_mem_ofInt hmem with h | h <;> cases h

/-- The mark of a long integer. -/
def longMark (i : Int64) : Text :=
  if 0x7fffffff < i.toInt || i.toInt < -0x80000000 then ascii "LL" else []

theorem integerText_eq (i : Int64) : integerText i
    = ascii "TagValue::integer" ++ ascii "(" ++ (Text.ofInt i.toInt ++ longMark i ++ [ch ')']) := by
  have hclose : ascii ")" = [ch ')'] := rfl
  simp only [integerText, longMark, callText, hclose, List.append_assoc]

theorem eq_of_mem_longMark {i : Int64} {b : UInt8} (h : b ∈ longMark i) : b = ch 'L' := by
  unfold longMark at h
  split at h
  · simpa [ascii] using h
  · cases h

theorem prefixCode_integerText : PrefixCode integerText := by
  have hplain : ∀ i : Int64, (Text.ofInt i.toInt ++ longMark i).filter (· != ch 'L')
      = Text.ofInt i.toInt := by
    intro i
    have hdigits : (Text.ofInt i.toInt).filter (· != ch 'L') = Text.ofInt i.toInt := by
      refine List.filter_eq_self.2 fun b hb => bne_iff_ne.2 ?_
      rintro rfl
      rcases isDigit_or_of_mem_ofInt hb with h | h <;> cases h
    have hmark : (longMark i).filter (· != ch 'L') = [] :=
      List.filter_eq_nil_iff.2 fun b hb => by simp [eq_of_mem_longMark hb]
    rw [List.filter_append, hdigits, hmark, List.append_nil]
  have hinjective : Function.Injective fun i : Int64 => Text.ofInt i.toInt ++ longMark i := by
    intro i j h
    have := congrArg (List.filter (· != ch 'L')) h
    simp only [hplain] at this
    exact Int64.toInt_inj.1 (ofInt_injective this)
  have hdelimited : PrefixCode fun i : Int64 => Text.ofInt i.toInt ++ longMark i ++ [ch ')'] := by
    refine .delimited hinjective fun i hmem => ?_
    rcases List.mem_append.1 hmem with h | h
    · rcases isDigit_or_of_mem_ofInt h with h | h <;> cases h
    · cases eq_of_mem_longMark h
  rw [funext integerText_eq]
  exact hdelimited.append_left _

/-! ### Paths -/

namespace Step

/-- A step without the number of an argument. -/
def plain : Step → Step
  | .arg _ => .arg 0
  | s => s

/-- The start of a step's text, which tells it from other steps. -/
def start : Step → Text
  | .arg _ => ascii ".args["
  | s => s.toText

def plainSteps : List Step :=
  [.left, .right, .operand, .test, .yes, .no, .arg 0, .unit, .count, .subject]

theorem apart_start : plainSteps.Pairwise fun s t => Apart s.start t.start := by decide

theorem plain_mem (s : Step) : s.plain ∈ plainSteps := by
  cases s <;> simp [plain, plainSteps]

theorem exists_toText_eq (s : Step) : ∃ t, s.toText = s.plain.start ++ t := by
  cases s with
  | arg i => exact ⟨Text.ofNat i ++ ascii "]", List.append_assoc ..⟩
  | _ => exact ⟨[], (List.append_nil _).symm⟩

theorem prefixCode_toText : PrefixCode toText := by
  have harg : PrefixCode fun i => toText (.arg i) := by
    have hdelimited : PrefixCode fun i => Text.ofNat i ++ [ch ']'] := by
      refine .delimited ofNat_injective fun i hmem => ?_
      cases Text.isDigit_of_mem_ofNat i _ hmem
    simp only [toText, List.append_assoc]
    exact hdelimited.append_left (ascii ".args[")
  intro a b u v h
  by_cases hab : a.plain = b.plain
  · cases a with
    | arg i =>
      cases b with
      | arg j =>
        obtain ⟨rfl, huv⟩ := harg i j u v h
        exact ⟨rfl, huv⟩
      | _ => cases hab
    | _ =>
      cases b with
      | arg => cases hab
      | _ =>
        cases hab <;> exact ⟨rfl, List.append_cancel_left h⟩
  · have hapart := apart_of_pairwise apart_start a.plain_mem b.plain_mem hab
    obtain ⟨x, hx⟩ := exists_toText_eq a
    obtain ⟨y, hy⟩ := exists_toText_eq b
    rw [hx, hy] at h
    exact absurd h (hapart.append x y u v)

end Step

/-- The text of a path tells where it leads. -/
theorem pathText_injective : Function.Injective pathText := by
  intro p q h
  have hd : ∀ s : Step, Apart s.toText [ch ' '] := by
    intro s u v h
    cases s <;> exact absurd (List.cons.inj h).1 (by decide)
  refine (Step.prefixCode_toText.flatMap hd).injective ?_
  rw [List.append_cancel_left h]

end Source

end TagFormula

import Mathlib.Data.List.Forall2
import TagFormula.Job.Command
import TagFormula.Proofs.Splitting

/-!
Reading the line of a command back. A line is words with a space between neighbours, and a word is an argument
as it is or between quotes. Main statements: the reader gives the arguments that the words of a line stand for
and refuses every other line, and the line of a command tells its arguments.
-/

namespace TagFormula.Command

/-! ### The rules -/

/-- An argument that can stand without quotes and be told from a quoted one. -/
def Bare (arg : Text) : Prop := arg ≠ [] ∧ arg.head? ≠ some (ch '\'') ∧ ch ' ' ∉ arg

/-- A text between quotes and the argument it stands for: `'\''` stands for a quote. -/
inductive Quotes : Text → Text → Prop where
  | nil : Quotes [] []
  | plain {b : UInt8} {t arg : Text} (hb : b ≠ ch '\'') (h : Quotes t arg) : Quotes (b :: t) (b :: arg)
  | quote {t arg : Text} (h : Quotes t arg) : Quotes (ascii "'\\''" ++ t) (ch '\'' :: arg)

/-- A word and the argument it stands for. A word that starts with a quote runs to its closing quote; any
other word runs to the next space. -/
inductive Spells : Text → Text → Prop where
  | bare {arg : Text} (h : Bare arg) : Spells arg arg
  | quoted {t arg : Text} (h : Quotes t arg) : Spells (ch '\'' :: t ++ [ch '\'']) arg

/-- A line of words that stand for these arguments, with single spaces between the words. -/
def IsLineOf (line : Text) (argv : List Text) : Prop :=
  ∃ words, List.Forall₂ Spells words argv ∧ line = Text.joinWith (ascii " ") words

theorem quotes_flatMap (arg : Text) : Quotes (arg.flatMap quoteByte) arg := by
  induction arg with
  | nil => exact .nil
  | cons b arg ih =>
    rw [List.flatMap_cons, quoteByte]
    split_ifs with hquote
    · rw [beq_iff_eq.1 hquote]
      exact .quote ih
    · exact .plain (fun heq => hquote (beq_iff_eq.2 heq)) ih

theorem spells_word (arg : Text) : Spells (word arg) arg := by
  rw [word]
  split_ifs with hplain
  · simp only [isPlain, Bool.and_eq_true, Bool.not_eq_true', List.isEmpty_eq_false_iff,
      List.any_eq_false] at hplain
    obtain ⟨hne, hall⟩ := hplain
    refine .bare ⟨hne, fun hhead => ?_, fun hspace => hall _ hspace (by decide)⟩
    exact hall _ (List.mem_of_mem_head? hhead) (by decide)
  · exact .quoted (quotes_flatMap arg)

theorem Spells.ne_nil {w arg : Text} (h : Spells w arg) : w ≠ [] := by
  cases h with
  | bare hbare => exact hbare.1
  | quoted _ => exact List.cons_ne_nil _ _

theorem foldl_addWord {line : Text} (h : line ≠ []) (argv : List Text) :
    argv.foldl addWord line = line ++ (argv.map word).flatMap (ascii " " ++ ·) := by
  induction argv generalizing line with
  | nil => exact (List.append_nil line).symm
  | cons arg argv ih =>
    have hadd : addWord line arg = line ++ (ascii " " ++ word arg) := by
      rw [addWord, if_neg (by simpa using h), List.append_assoc]
    rw [List.foldl_cons, hadd, ih (List.append_ne_nil_of_left_ne_nil h _), List.map_cons, List.flatMap_cons,
      List.append_assoc]

/-- No word is empty, so that spaces stand between the words only. -/
theorem toText_eq_joinWith (argv : List Text) : toText argv = Text.joinWith (ascii " ") (argv.map word) := by
  cases argv with
  | nil => rfl
  | cons arg argv =>
    rw [List.map_cons, Text.joinWith_cons, ← foldl_addWord (spells_word arg).ne_nil]
    rfl

theorem isLineOf_toText (argv : List Text) : IsLineOf (toText argv) argv :=
  ⟨argv.map word, List.forall₂_map_left_iff.2 (List.forall₂_same.2 fun arg _ => spells_word arg),
    toText_eq_joinWith argv⟩

/-! ### The reader -/

/-- Where the reader stands, with the part of an argument that it has read. -/
inductive Place where
  /-- In front of a word. -/
  | front
  /-- In a word without quotes. -/
  | bare (arg : Text)
  /-- Between quotes. -/
  | inside (arg : Text)
  /-- Behind a quote that ends the word, unless `\''` follows. -/
  | closed (arg : Text)
  /-- Behind `'\`. -/
  | escape (arg : Text)
  /-- Behind `'\'`. -/
  | reopen (arg : Text)
  deriving DecidableEq, Repr

structure LineReader where
  place : Place
  args : List Text
  deriving DecidableEq, Repr

namespace LineReader

/-- The reader behind the next byte. -/
def step (s : LineReader) (b : UInt8) : Option LineReader :=
  match s.place with
  | .front =>
    if b == ch ' ' then none
    else if b == ch '\'' then some { s with place := .inside [] }
    else some { s with place := .bare [b] }
  | .bare arg =>
    if b == ch ' ' then some ⟨.front, s.args ++ [arg]⟩
    else some { s with place := .bare (arg ++ [b]) }
  | .inside arg =>
    if b == ch '\'' then some { s with place := .closed arg }
    else some { s with place := .inside (arg ++ [b]) }
  | .closed arg =>
    if b == ch ' ' then some ⟨.front, s.args ++ [arg]⟩
    else if b == ch '\\' then some { s with place := .escape arg }
    else none
  | .escape arg => if b == ch '\'' then some { s with place := .reopen arg } else none
  | .reopen arg => if b == ch '\'' then some { s with place := .inside (arg ++ [ch '\'']) } else none

def run (s : LineReader) (t : Text) : Option LineReader := t.foldlM step s

/-- The arguments, unless the line ends in quotes or behind a space. -/
def result? (s : LineReader) : Option (List Text) :=
  match s.place with
  | .front => if s.args.isEmpty then some [] else none
  | .bare arg | .closed arg => some (s.args ++ [arg])
  | _ => none

theorem run_cons (s : LineReader) (b : UInt8) (t : Text) : s.run (b :: t) = (s.step b).bind (·.run t) :=
  List.foldlM_cons

theorem run_append (s : LineReader) (t u : Text) : s.run (t ++ u) = (s.run t).bind (·.run u) :=
  List.foldlM_append ..

end LineReader

/-- The arguments that a line stands for. -/
def arguments? (line : Text) : Option (List Text) :=
  (LineReader.run ⟨.front, []⟩ line).bind LineReader.result?

/-! ### Lines are read -/

namespace LineReader

theorem run_bare (arg : Text) (args : List Text) {t : Text} (h : ch ' ' ∉ t) :
    run ⟨.bare arg, args⟩ t = some ⟨.bare (arg ++ t), args⟩ := by
  induction t generalizing arg with
  | nil =>
    rw [List.append_nil]
    rfl
  | cons b t ih =>
    rw [List.mem_cons, not_or] at h
    have hstep : step ⟨.bare arg, args⟩ b = some ⟨.bare (arg ++ [b]), args⟩ :=
      if_neg (by simpa using Ne.symm h.1)
    rw [run_cons, hstep, Option.bind_some, ih _ h.2, List.append_assoc]
    rfl

theorem run_inside {t arg : Text} (h : Quotes t arg) (before : Text) (args : List Text) :
    run ⟨.inside before, args⟩ t = some ⟨.inside (before ++ arg), args⟩ := by
  induction h generalizing before with
  | nil =>
    rw [List.append_nil]
    rfl
  | @plain b t arg hb h ih =>
    have hstep : step ⟨.inside before, args⟩ b = some ⟨.inside (before ++ [b]), args⟩ :=
      if_neg (by simpa using hb)
    rw [run_cons, hstep, Option.bind_some, ih, List.append_assoc]
    rfl
  | @quote t arg h ih =>
    have hquote : run ⟨.inside before, args⟩ (ascii "'\\''")
        = some ⟨.inside (before ++ [ch '\'']), args⟩ := rfl
    rw [run_append, hquote, Option.bind_some, ih, List.append_assoc]
    rfl

end LineReader

/-- Places where a word may end. -/
def Place.EndsWith (place : Place) (arg : Text) : Prop := place = .bare arg ∨ place = .closed arg

theorem Spells.run_front {w arg : Text} (h : Spells w arg) (args : List Text) :
    ∃ place : Place, place.EndsWith arg ∧ LineReader.run ⟨.front, args⟩ w = some ⟨place, args⟩ := by
  cases h with
  | bare hbare =>
    obtain ⟨hne, hquote, hspace⟩ := hbare
    obtain ⟨b, t, rfl⟩ := List.exists_cons_of_ne_nil hne
    rw [List.mem_cons, not_or] at hspace
    refine ⟨.bare (b :: t), .inl rfl, ?_⟩
    have hstep : LineReader.step ⟨.front, args⟩ b = some ⟨.bare [b], args⟩ :=
      (if_neg (by simpa using Ne.symm hspace.1)).trans (if_neg (by simpa using hquote))
    rw [LineReader.run_cons, hstep, Option.bind_some, LineReader.run_bare _ _ hspace.2]
    rfl
  | quoted hquotes =>
    refine ⟨.closed arg, .inr rfl, ?_⟩
    have hopen : LineReader.step ⟨.front, args⟩ (ch '\'') = some ⟨.inside [], args⟩ := rfl
    rw [List.cons_append, LineReader.run_cons, hopen, Option.bind_some, LineReader.run_append,
      LineReader.run_inside hquotes, List.nil_append, Option.bind_some]
    rfl

theorem Place.EndsWith.result?_eq {place : Place} {arg : Text} (h : place.EndsWith arg) (args : List Text) :
    LineReader.result? ⟨place, args⟩ = some (args ++ [arg]) := by
  rcases h with rfl | rfl <;> rfl

theorem Place.EndsWith.step_space {place : Place} {arg : Text} (h : place.EndsWith arg) (args : List Text) :
    LineReader.step ⟨place, args⟩ (ch ' ') = some ⟨.front, args ++ [arg]⟩ := by
  rcases h with rfl | rfl <;> rfl

theorem result?_run_joinWith {words argv : List Text} (h : List.Forall₂ Spells words argv) (hne : words ≠ [])
    (args : List Text) :
    (LineReader.run ⟨.front, args⟩ (Text.joinWith (ascii " ") words)).bind LineReader.result?
      = some (args ++ argv) := by
  induction h generalizing args with
  | nil => exact absurd rfl hne
  | @cons w arg words argv hw hwords ih =>
    obtain ⟨place, hends, hrun⟩ := hw.run_front args
    cases hwords with
    | nil =>
      have hone : Text.joinWith (ascii " ") [w] = w := List.append_nil w
      rw [hone, hrun, Option.bind_some, hends.result?_eq]
    | cons hv hvs =>
      have hspace : ∀ u, ascii " " ++ u = ch ' ' :: u := fun u => rfl
      rw [Text.joinWith_cons_cons, LineReader.run_append, hrun, Option.bind_some, hspace, LineReader.run_cons,
        hends.step_space, Option.bind_some, ih (List.cons_ne_nil _ _), List.append_assoc]
      rfl

theorem IsLineOf.arguments?_eq {line : Text} {argv : List Text} (h : IsLineOf line argv) :
    arguments? line = some argv := by
  obtain ⟨words, hwords, rfl⟩ := h
  cases hwords with
  | nil => rfl
  | cons hw hws => exact result?_run_joinWith (.cons hw hws) (List.cons_ne_nil _ _) []

/-! ### Other lines are refused -/

/-- The part of a word in front of a place. -/
def Place.text : Place → Text
  | .front => []
  | .bare arg => arg
  | .inside arg => ch '\'' :: arg.flatMap quoteByte
  | .closed arg => ch '\'' :: arg.flatMap quoteByte ++ [ch '\'']
  | .escape arg => ch '\'' :: arg.flatMap quoteByte ++ ascii "'\\"
  | .reopen arg => ch '\'' :: arg.flatMap quoteByte ++ ascii "'\\'"

/-- Words without quotes are such as can stand without them. -/
def Place.Legal : Place → Prop
  | .bare arg => Bare arg
  | _ => True

theorem Bare.concat {arg : Text} {b : UInt8} (h : Bare arg) (hb : b ≠ ch ' ') : Bare (arg ++ [b]) := by
  obtain ⟨hne, hquote, hspace⟩ := h
  refine ⟨by simp, ?_, by simp [hspace, hb.symm]⟩
  rwa [List.head?_append_of_ne_nil _ hne]

namespace LineReader

/-- The text in front of the reader is made up of words for its arguments and of a part of a word. -/
def HasRead (s : LineReader) (t : Text) : Prop :=
  s.place.Legal ∧ ∃ words, List.Forall₂ Spells words s.args ∧
    t = Text.joinWith (ascii " ") (words ++ [s.place.text])

theorem HasRead.extend {place next : Place} {args : List Text} {t : Text} {b : UInt8}
    (h : HasRead ⟨place, args⟩ t) (htext : next.text = place.text ++ [b]) (hlegal : next.Legal) :
    HasRead ⟨next, args⟩ (t ++ [b]) := by
  obtain ⟨-, words, hwords, rfl⟩ := h
  refine ⟨hlegal, words, hwords, ?_⟩
  rw [Text.joinWith_concat_append, ← htext]

theorem HasRead.endWord {place : Place} {args : List Text} {t arg : Text} (h : HasRead ⟨place, args⟩ t)
    (hword : Spells place.text arg) : HasRead ⟨.front, args ++ [arg]⟩ (t ++ [ch ' ']) := by
  obtain ⟨-, words, hwords, rfl⟩ := h
  have hne : words ++ [place.text] ≠ [] := by simp
  exact ⟨trivial, words ++ [place.text], List.rel_append hwords (.cons hword .nil),
    (Text.joinWith_concat hne []).symm⟩

theorem HasRead.step {s s' : LineReader} {t : Text} {b : UInt8} (h : s.HasRead t)
    (hstep : s.step b = some s') : s'.HasRead (t ++ [b]) := by
  obtain ⟨place, args⟩ := s
  cases place with
  | front =>
    simp only [LineReader.step] at hstep
    split_ifs at hstep with hspace hquote
    · obtain rfl := beq_iff_eq.1 hquote
      cases hstep
      exact h.extend rfl trivial
    · cases hstep
      have hne : b ≠ ch ' ' := fun heq => hspace (beq_iff_eq.2 heq)
      exact h.extend rfl ⟨List.cons_ne_nil b [], by simpa using hquote, by simpa using hne.symm⟩
  | bare arg =>
    have hbare : Bare arg := h.1
    simp only [LineReader.step] at hstep
    split_ifs at hstep with hspace
    · obtain rfl := beq_iff_eq.1 hspace
      cases hstep
      exact h.endWord (.bare hbare)
    · cases hstep
      exact h.extend rfl (hbare.concat fun heq => hspace (beq_iff_eq.2 heq))
  | inside arg =>
    simp only [LineReader.step] at hstep
    split_ifs at hstep with hquote
    · obtain rfl := beq_iff_eq.1 hquote
      cases hstep
      exact h.extend rfl trivial
    · cases hstep
      have hbyte : quoteByte b = [b] := if_neg hquote
      exact h.extend (by simp [Place.text, hbyte]) trivial
  | closed arg =>
    simp only [LineReader.step] at hstep
    split_ifs at hstep with hspace hslash
    · obtain rfl := beq_iff_eq.1 hspace
      cases hstep
      exact h.endWord (.quoted (quotes_flatMap arg))
    · obtain rfl := beq_iff_eq.1 hslash
      cases hstep
      exact h.extend (by simp [Place.text, ascii]) trivial
  | escape arg =>
    simp only [LineReader.step] at hstep
    split_ifs at hstep with hquote
    obtain rfl := beq_iff_eq.1 hquote
    cases hstep
    exact h.extend (by simp [Place.text, ascii]) trivial
  | reopen arg =>
    simp only [LineReader.step] at hstep
    split_ifs at hstep with hquote
    obtain rfl := beq_iff_eq.1 hquote
    cases hstep
    exact h.extend (by simp [Place.text, ascii, quoteByte]) trivial

theorem HasRead.run {s s' : LineReader} {t u : Text} (h : s.HasRead t) (hrun : s.run u = some s') :
    s'.HasRead (t ++ u) := by
  induction u generalizing s t with
  | nil =>
    cases hrun
    rwa [List.append_nil]
  | cons b u ih =>
    rw [run_cons] at hrun
    obtain ⟨s₁, hstep, hrun⟩ := Option.bind_eq_some_iff.1 hrun
    have hread := ih (h.step hstep) hrun
    rwa [List.append_assoc] at hread

theorem HasRead.isLineOf {s : LineReader} {t : Text} {argv : List Text} (h : s.HasRead t)
    (hresult : s.result? = some argv) : IsLineOf t argv := by
  obtain ⟨place, args⟩ := s
  obtain ⟨hlegal, words, hwords, rfl⟩ := h
  cases place with
  | front =>
    simp only [result?] at hresult
    split_ifs at hresult with hnil
    cases hresult
    rw [List.isEmpty_iff.1 hnil] at hwords
    cases hwords
    exact ⟨[], .nil, rfl⟩
  | bare arg =>
    cases hresult
    exact ⟨words ++ [arg], List.rel_append hwords (.cons (.bare hlegal) .nil), rfl⟩
  | closed arg =>
    cases hresult
    exact ⟨_, List.rel_append hwords (.cons (.quoted (quotes_flatMap arg)) .nil), rfl⟩
  | inside arg => cases hresult
  | escape arg => cases hresult
  | reopen arg => cases hresult

end LineReader

theorem isLineOf_of_arguments? {line : Text} {argv : List Text} (h : arguments? line = some argv) :
    IsLineOf line argv := by
  obtain ⟨s, hrun, hresult⟩ := Option.bind_eq_some_iff.1 h
  have hstart : LineReader.HasRead ⟨.front, []⟩ [] := ⟨trivial, [], .nil, rfl⟩
  exact (hstart.run hrun).isLineOf hresult

/-- The reader gives the arguments that the words of a line stand for. -/
theorem arguments?_eq_some_iff {line : Text} {argv : List Text} :
    arguments? line = some argv ↔ IsLineOf line argv :=
  ⟨isLineOf_of_arguments?, IsLineOf.arguments?_eq⟩

example : arguments? (ascii "cc '' 'it'\\''s'") = some [ascii "cc", [], ascii "it's"] := by decide
example : arguments? (ascii "a  b") = none ∧ arguments? (ascii "'a'b") = none := by decide

theorem arguments?_toText (argv : List Text) : arguments? (toText argv) = some argv :=
  (isLineOf_toText argv).arguments?_eq

/-- The line of a command is read back as its arguments, by the rules for words and quotes. Commands with the
same line have the same arguments. -/
theorem toText_identifies_arguments (argv other : List Text) :
    arguments? (toText argv) = some argv ∧ (∀ line, arguments? line = some argv ↔ IsLineOf line argv) ∧
    (toText argv = toText other ↔ argv = other) := by
  refine ⟨arguments?_toText argv, fun line => arguments?_eq_some_iff, ?_⟩
  constructor
  · intro h
    have hread := arguments?_toText argv
    rw [h, arguments?_toText] at hread
    exact (Option.some.inj hread).symm
  · intro h
    rw [h]

end TagFormula.Command

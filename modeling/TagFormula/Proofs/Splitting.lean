import Mathlib.Data.List.DropRight
import Mathlib.Data.List.Infix
import Mathlib.Tactic.Common
import TagFormula.Value.Function

/-!
Splitting text into fields and joining fields to text. A separator is found from the left, and empty fields at
the end are dropped; a single space separates words. Main statements: joining undoes splitting up to separators
at the end, splitting undoes joining where no field holds the separator, and the words of a text with a space
between neighbours are the text on one line.
-/

namespace TagFormula

namespace Text

/-! ### Joining -/

theorem joinWith_cons_cons (sep t u : Text) (ts : List Text) :
    joinWith sep (t :: u :: ts) = t ++ (sep ++ joinWith sep (u :: ts)) := by
  simp [joinWith]

theorem joinWith_cons (sep t : Text) (ts : List Text) :
    joinWith sep (t :: ts) = t ++ ts.flatMap (sep ++ ·) := by
  induction ts generalizing t with
  | nil => simp [joinWith]
  | cons u ts ih => rw [joinWith_cons_cons, ih, List.flatMap_cons, List.append_assoc]

theorem joinWith_concat {sep : Text} {ts : List Text} (h : ts ≠ []) (t : Text) :
    joinWith sep (ts ++ [t]) = joinWith sep ts ++ (sep ++ t) := by
  obtain ⟨u, us, rfl⟩ := List.exists_cons_of_ne_nil h
  rw [List.cons_append, joinWith_cons, joinWith_cons, List.flatMap_append, List.flatMap_singleton,
    List.append_assoc]

theorem joinWith_concat_append (sep : Text) (ts : List Text) (t u : Text) :
    joinWith sep (ts ++ [t]) ++ u = joinWith sep (ts ++ [t ++ u]) := by
  cases ts with
  | nil => simp [joinWith]
  | cons v ts =>
    rw [joinWith_concat (List.cons_ne_nil v ts), joinWith_concat (List.cons_ne_nil v ts),
      List.append_assoc, List.append_assoc]

/-- Separators in front of all fields, less the first one. -/
theorem joinWith_eq_drop (sep : Text) (ts : List Text) :
    joinWith sep ts = (ts.flatMap (sep ++ ·)).drop sep.length := by
  cases ts with
  | nil => simp [joinWith]
  | cons t ts => rw [joinWith_cons, List.flatMap_cons, List.append_assoc, List.drop_left]

/-! ### The first occurrence of a separator -/

/-- A cut is made at an occurrence, and none lies in front of it. -/
theorem cutAt?_eq_some {sep t before after : Text} (hsep : sep ≠ [])
    (h : cutAt? sep t = some (before, after)) : t = before ++ (sep ++ after) ∧ ¬sep <:+: before := by
  induction t generalizing before with
  | nil => simp [cutAt?, hsep] at h
  | cons b t ih =>
    rw [cutAt?] at h
    split at h
    · rename_i hstart
      obtain ⟨rest, hrest⟩ := List.isPrefixOf_iff_prefix.1 hstart
      rw [← hrest, List.drop_left] at h
      cases h
      exact ⟨hrest.symm, fun hin => hsep (List.eq_nil_of_infix_nil hin)⟩
    · rename_i hstart
      rw [List.isPrefixOf_iff_prefix] at hstart
      obtain ⟨⟨u, v⟩, hcut, heq⟩ := Option.map_eq_some_iff.1 h
      cases heq
      obtain ⟨rfl, hin⟩ := ih hcut
      refine ⟨rfl, fun hcons => ?_⟩
      rcases List.infix_cons_iff.1 hcons with hfirst | hlater
      · exact hstart (hfirst.trans (List.prefix_append (b :: u) _))
      · exact hin hlater

theorem cutAt?_eq_none {sep t : Text} (h : cutAt? sep t = none) : ¬sep <:+: t := by
  induction t with
  | nil =>
    intro hin
    rw [List.eq_nil_of_infix_nil hin] at h
    simp [cutAt?] at h
  | cons b t ih =>
    rw [cutAt?] at h
    split at h
    · cases h
    · rename_i hstart
      intro hin
      rcases List.infix_cons_iff.1 hin with hfirst | hlater
      · exact hstart (List.isPrefixOf_iff_prefix.2 hfirst)
      · exact ih (Option.map_eq_none_iff.1 h) hlater

/-! ### Fields -/

section

variable {sep : Text} (hsep : sep ≠ [])
include hsep

theorem fieldsBetween_of_none {t : Text} (h : cutAt? sep t = none) : fieldsBetween sep t = [t] := by
  rw [fieldsBetween, dif_neg hsep]
  split
  · rfl
  · rename_i hcut
    rw [h] at hcut
    cases hcut

theorem fieldsBetween_of_some {t before after : Text} (h : cutAt? sep t = some (before, after)) :
    fieldsBetween sep t = before :: fieldsBetween sep after := by
  rw [fieldsBetween, dif_neg hsep]
  split
  · rename_i hcut
    rw [h] at hcut
    cases hcut
  · rename_i hcut
    rw [h] at hcut
    cases hcut
    rfl

/-- The fields make up the text again, and none of them holds the separator. -/
theorem fieldsBetween_spec (t : Text) : fieldsBetween sep t ≠ [] ∧
    joinWith sep (fieldsBetween sep t) = t ∧ ∀ f ∈ fieldsBetween sep t, ¬sep <:+: f := by
  -- on the length of the text, since a cut leaves a shorter one
  induction h : t.length using Nat.strong_induction_on generalizing t with
  | _ n ih =>
    cases hcut : cutAt? sep t with
    | none =>
      rw [fieldsBetween_of_none hsep hcut]
      exact ⟨List.cons_ne_nil _ _, List.append_nil t, List.forall_mem_singleton.2 (cutAt?_eq_none hcut)⟩
    | some cut =>
      obtain ⟨before, after⟩ := cut
      obtain ⟨rfl, hbefore⟩ := cutAt?_eq_some hsep hcut
      obtain ⟨hne, hjoin, hfields⟩ := ih after.length (h ▸ length_lt_of_cutAt? hsep hcut) after rfl
      rw [fieldsBetween_of_some hsep hcut]
      refine ⟨List.cons_ne_nil _ _, ?_, List.forall_mem_cons.2 ⟨hbefore, hfields⟩⟩
      obtain ⟨f, fs, hfs⟩ := List.exists_cons_of_ne_nil hne
      rw [hfs, joinWith_cons] at hjoin
      rw [hfs, joinWith_cons, List.flatMap_cons, List.append_assoc, hjoin]

end

theorem splitAtEach_eq {sep : Text} (hsep : sep ≠ []) (hspace : sep ≠ ascii " ") (t : Text) :
    splitAtEach sep t = (fieldsBetween sep t).rdropWhile List.isEmpty := by
  rw [splitAtEach, if_neg hspace, if_neg (by simpa using hsep)]
  rfl

/-- Each empty field that is dropped at the end takes a separator with it. -/
theorem joinWith_rdropWhile (sep : Text) (fs : List Text) :
    ∃ n, joinWith sep fs = joinWith sep (fs.rdropWhile List.isEmpty) ++ (List.replicate n sep).flatten := by
  induction fs using List.reverseRecOn with
  | nil => exact ⟨0, rfl⟩
  | append_singleton fs f ih =>
    by_cases hf : f.isEmpty
    · obtain rfl := List.isEmpty_iff.1 hf
      rw [List.rdropWhile_concat_pos _ _ _ hf]
      by_cases hfs : fs = []
      · subst hfs
        exact ⟨0, rfl⟩
      · obtain ⟨n, hn⟩ := ih
        refine ⟨n + 1, ?_⟩
        rw [joinWith_concat hfs, hn, List.replicate_succ', List.flatten_append, List.flatten_singleton,
          List.append_nil, List.append_assoc]
    · rw [List.rdropWhile_concat_neg _ _ _ hf]
      exact ⟨0, (List.append_nil _).symm⟩

theorem ne_nil_of_mem_getLast?_rdropWhile {fs : List Text} {f : Text}
    (h : f ∈ (fs.rdropWhile List.isEmpty).getLast?) : f ≠ [] := by
  obtain ⟨hne, rfl⟩ := List.mem_getLast?_eq_getLast h
  simpa using List.rdropWhile_last_not List.isEmpty fs hne

/-! ### Separators of one byte -/

theorem cutAt?_append {c : UInt8} {t : Text} (h : c ∉ t) (rest : Text) :
    cutAt? [c] (t ++ c :: rest) = some (t, rest) := by
  induction t with
  | nil => simp [cutAt?, List.isPrefixOf]
  | cons b t ih =>
    obtain ⟨hb, ht⟩ := not_or.1 (mt List.mem_cons.2 h)
    rw [List.cons_append, cutAt?, if_neg (by simpa [List.isPrefixOf] using hb), ih ht]
    rfl

theorem cutAt?_of_not_mem {c : UInt8} {t : Text} (h : c ∉ t) : cutAt? [c] t = none := by
  cases hcut : cutAt? [c] t with
  | none => rfl
  | some cut =>
    obtain ⟨ht, -⟩ := cutAt?_eq_some (List.cons_ne_nil c []) hcut
    exact absurd (ht ▸ by simp) h

theorem fieldsBetween_joinWith {c : UInt8} {fs : List Text} (hne : fs ≠ []) (h : ∀ f ∈ fs, c ∉ f) :
    fieldsBetween [c] (joinWith [c] fs) = fs := by
  have hsep : [c] ≠ [] := List.cons_ne_nil c []
  induction fs with
  | nil => exact absurd rfl hne
  | cons f fs ih =>
    obtain ⟨hf, hfs⟩ := List.forall_mem_cons.1 h
    cases fs with
    | nil =>
      rw [joinWith_cons, List.flatMap_nil, List.append_nil]
      exact fieldsBetween_of_none hsep (cutAt?_of_not_mem hf)
    | cons g fs =>
      rw [joinWith_cons_cons, List.singleton_append, fieldsBetween_of_some hsep (cutAt?_append hf _),
        ih (List.cons_ne_nil g fs) hfs]

/-- Fields without the separator are found again, if the last one is not empty. -/
theorem splitAtEach_joinWith {c : UInt8} (hc : [c] ≠ ascii " ") {fs : List Text} (h : ∀ f ∈ fs, c ∉ f)
    (hlast : ∀ f ∈ fs.getLast?, f ≠ []) : splitAtEach [c] (joinWith [c] fs) = fs := by
  rw [splitAtEach_eq (List.cons_ne_nil c []) hc]
  by_cases hne : fs = []
  · subst hne
    rw [show joinWith [c] [] = [] from rfl, fieldsBetween_of_none (List.cons_ne_nil c []) rfl]
    rfl
  · rw [fieldsBetween_joinWith hne h, List.rdropWhile_eq_self_iff]
    intro hne
    simpa using hlast _ (List.getLast_mem_getLast? hne)

/-! ### Words -/

/-- A run of bytes that are no blanks. -/
def IsWord (t : Text) : Prop := t ≠ [] ∧ ∀ b ∈ t, Byte.isSpace b = false

theorem isWord_reverse {t : Text} (hne : t ≠ []) (h : ∀ b ∈ t, Byte.isSpace b = false) : IsWord t.reverse :=
  ⟨by simpa using hne, fun b hb => h b (List.mem_reverse.1 hb)⟩

theorem isWord_of_mem_words_go {current t : Text} (h : ∀ b ∈ current, Byte.isSpace b = false) :
    ∀ w ∈ words.go current t, IsWord w := by
  fun_induction words.go current t with
  | case1 => exact fun w hw => absurd hw List.not_mem_nil
  | case2 current hne => exact List.forall_mem_singleton.2 (isWord_reverse (by simpa using hne) h)
  | case3 current b rest hb ih => exact ih (List.forall_mem_cons.2 ⟨by simpa using hb, h⟩)
  | case4 current b rest hb hempty ih => exact ih (List.forall_mem_nil _)
  | case5 current b rest hb hne ih =>
    exact List.forall_mem_cons.2 ⟨isWord_reverse (by simpa using hne) h, ih (List.forall_mem_nil _)⟩

theorem isWord_of_mem_words {t w : Text} (h : w ∈ words t) : IsWord w :=
  isWord_of_mem_words_go (List.forall_mem_nil _) w h

/-- Inside a text, what is written on one line starts with the space that waits. -/
theorem oneLine_go_start (t : Text) : oneLine.go false false t = (oneLine.go true true t).drop 1 := by
  induction t with
  | nil => rfl
  | cons b t ih =>
    rw [oneLine.go, oneLine.go]
    split
    · exact ih
    · rfl

/-- Words with a space in front of each are what is written on one line behind other text; an unfinished word
is still to be written. -/
theorem flatMap_words_go (current t : Text) : (words.go current t).flatMap (ascii " " ++ ·)
    = if current = [] then oneLine.go true true t
      else ascii " " ++ (current.reverse ++ oneLine.go true false t) := by
  fun_induction words.go current t with
  | case1 current hempty => rw [if_pos (List.isEmpty_iff.1 hempty)]; rfl
  | case2 current hne =>
    rw [if_neg (by simpa using hne), List.flatMap_singleton]
    simp [oneLine.go]
  | case3 current b rest hb ih =>
    have hspace : ¬Byte.isSpace b := by simpa using hb
    rw [ih, if_neg (List.cons_ne_nil b current), oneLine.go, if_neg hspace, oneLine.go, if_neg hspace]
    split
    · rename_i hempty
      subst hempty
      rfl
    · simp
  | case4 current b rest hb hempty ih =>
    have hspace : Byte.isSpace b := by simpa using hb
    rw [ih, if_pos rfl, if_pos (List.isEmpty_iff.1 hempty), oneLine.go, if_pos hspace]
  | case5 current b rest hb hne ih =>
    have hspace : Byte.isSpace b := by simpa using hb
    rw [List.flatMap_cons, ih, if_pos rfl, if_neg (by simpa using hne), oneLine.go, if_pos hspace,
      List.append_assoc]

theorem joinWith_words (t : Text) : joinWith (ascii " ") (words t) = oneLine t := by
  rw [joinWith_eq_drop, words, flatMap_words_go, if_pos rfl, oneLine, oneLine_go_start]
  rfl

theorem words_go_append {w : Text} (h : ∀ b ∈ w, Byte.isSpace b = false) (current rest : Text) :
    words.go current (w ++ rest) = words.go (w.reverse ++ current) rest := by
  induction w generalizing current with
  | nil => rfl
  | cons b w ih =>
    obtain ⟨hb, hw⟩ := List.forall_mem_cons.1 h
    rw [List.cons_append, words.go, if_pos (by simp [hb]), ih hw, List.reverse_cons, List.append_assoc]
    rfl

theorem words_of_isWord {w : Text} (h : IsWord w) : words w = [w] := by
  have hgo := words_go_append h.2 [] []
  rw [List.append_nil, List.append_nil] at hgo
  rw [words, hgo, words.go, if_neg (by simpa using h.1), List.reverse_reverse]

theorem words_append {w : Text} (h : IsWord w) (rest : Text) :
    words (w ++ (ascii " " ++ rest)) = w :: words rest := by
  change words.go [] (w ++ ch ' ' :: rest) = _
  rw [words_go_append h.2, List.append_nil, words.go, if_neg (by decide), if_neg (by simpa using h.1),
    List.reverse_reverse]
  rfl

/-- Words with a space between neighbours are found again. -/
theorem words_joinWith {ws : List Text} (h : ∀ w ∈ ws, IsWord w) : words (joinWith (ascii " ") ws) = ws := by
  induction ws with
  | nil => rfl
  | cons w ws ih =>
    obtain ⟨hw, hws⟩ := List.forall_mem_cons.1 h
    cases ws with
    | nil =>
      rw [joinWith_cons, List.flatMap_nil, List.append_nil]
      exact words_of_isWord hw
    | cons v ws => rw [joinWith_cons_cons, words_append hw, ih hws]

theorem words_oneLine (t : Text) : words (oneLine t) = words t := by
  rw [← joinWith_words]
  exact words_joinWith fun w => isWord_of_mem_words

theorem oneLine_oneLine (t : Text) : oneLine (oneLine t) = oneLine t := by
  rw [← joinWith_words (oneLine t), words_oneLine, joinWith_words]

end Text

namespace Value

theorem flattenAll_strings (fs : List Text) : flattenAll (fs.map .string) = fs.map .string := by
  induction fs with
  | nil => rfl
  | cons f fs ih =>
    rw [List.map_cons, flattenAll, ih]
    rfl

theorem mapM_toText_strings (fs : List Text) : (fs.map Value.string).mapM toText = .ok fs := by
  induction fs with
  | nil => rfl
  | cons f fs ih =>
    rw [List.map_cons, List.mapM_cons, ih]
    rfl

theorem join_strings (sep : Text) (fs : List Text) :
    join [.string sep, .list (fs.map .string)] = .ok (.string (Text.joinWith sep fs)) := by
  have hparts : flattenAll [.list (fs.map .string)] = fs.map .string := by
    rw [flattenAll, flatten, flattenAll_strings, flattenAll, List.append_nil]
  rw [join, hparts, mapM_toText_strings]
  rfl

theorem split_strings (sep t : Text) :
    split (.string sep) (.string t) = .ok (.list ((Text.splitAtEach sep t).map .string)) := rfl

/-- Splitting and joining undo each other. For a separator other than the empty text and a space, no field holds
the separator, the last one is not empty, and the text is the joined fields followed by some separators. Fields
that do not hold a separator of one byte, the last one not empty, are what their joined text is split into. -/
theorem split_join_undo (sep t : Text) (hsep : sep ≠ []) (hspace : sep ≠ ascii " ") :
    (∃ (fields : List Text) (joined : Text) (n : Nat),
      split (.string sep) (.string t) = .ok (.list (fields.map .string)) ∧
      (∀ f ∈ fields, ¬sep <:+: f) ∧ (∀ f ∈ fields.getLast?, f ≠ []) ∧
      join [.string sep, .list (fields.map .string)] = .ok (.string joined) ∧
      t = joined ++ (List.replicate n sep).flatten) ∧
    (sep.length = 1 → ∀ fields : List Text, (∀ f ∈ fields, ¬sep <:+: f) → (∀ f ∈ fields.getLast?, f ≠ []) →
      ∃ joined, join [.string sep, .list (fields.map .string)] = .ok (.string joined) ∧
        split (.string sep) (.string joined) = .ok (.list (fields.map .string))) := by
  constructor
  · obtain ⟨-, hjoin, hfields⟩ := Text.fieldsBetween_spec hsep t
    obtain ⟨n, hn⟩ := Text.joinWith_rdropWhile sep (Text.fieldsBetween sep t)
    rw [hjoin, ← Text.splitAtEach_eq hsep hspace] at hn
    refine ⟨Text.splitAtEach sep t, _, n, split_strings sep t, ?_, ?_, join_strings sep _, hn⟩
    · intro f hf
      rw [Text.splitAtEach_eq hsep hspace] at hf
      exact hfields f ((List.rdropWhile_prefix _ _).subset hf)
    · intro f hf
      rw [Text.splitAtEach_eq hsep hspace] at hf
      exact Text.ne_nil_of_mem_getLast?_rdropWhile hf
  · intro hone fields hfields hlast
    obtain ⟨c, rfl⟩ := List.length_eq_one_iff.1 hone
    refine ⟨_, join_strings [c] fields, ?_⟩
    rw [split_strings, Text.splitAtEach_joinWith hspace (fun f hf => ?_) hlast]
    exact fun hmem => hfields f hf ((List.singleton_infix_iff c f).2 hmem)

/-- A separator that overlaps itself is found from the left, and the one at the end is dropped; a comma in front
and two in a row stand for empty fields. -/
theorem split_join_undo_overlap :
    (∃ (joined : Text) (n : Nat),
      split (.string (ascii "aa")) (.string (ascii "aaaxaa")) = .ok (.list ([[], ascii "ax"].map .string)) ∧
      join [.string (ascii "aa"), .list ([[], ascii "ax"].map .string)] = .ok (.string joined) ∧
      ascii "aaaxaa" = joined ++ (List.replicate n (ascii "aa")).flatten) ∧
    ∃ joined, join [.string (ascii ","), .list ([[], ascii "a", [], ascii "b"].map .string)] = .ok (.string joined) ∧
      split (.string (ascii ",")) (.string joined) = .ok (.list ([[], ascii "a", [], ascii "b"].map .string)) := by
  have hfields : Text.splitAtEach (ascii "aa") (ascii "aaaxaa") = [[], ascii "ax"] := by decide +kernel
  obtain ⟨⟨fields, joined, n, hsplit, -, -, hjoin, ht⟩, -⟩ :=
    split_join_undo (ascii "aa") (ascii "aaaxaa") (by decide) (by decide)
  obtain ⟨-, hback⟩ := split_join_undo (ascii ",") [] (by decide) (by decide)
  rw [split_strings, hfields] at hsplit
  have heq : [[], ascii "ax"].map Value.string = fields.map Value.string := by
    injection hsplit with hlist
    injection hlist
  rw [← heq] at hjoin
  refine ⟨⟨joined, n, by rw [split_strings, hfields], hjoin, ht⟩, hback rfl _ ?_ ?_⟩
  · decide
  · rintro f ⟨⟩
    decide

/-- Splitting at a space and writing on one line agree. The fields are words, with no blank of any kind; joined
with a space they are the text on one line, which has the same words and is on one line already. -/
theorem words_agree_oneLine (t : Text) : ∃ fields : List Text,
    split (.string (ascii " ")) (.string t) = .ok (.list (fields.map .string)) ∧
    join [.string (ascii " "), .list (fields.map .string)] = .ok (.string (Text.oneLine t)) ∧
    (∀ f ∈ fields, f ≠ [] ∧ ∀ b ∈ f, Byte.isSpace b = false) ∧
    split (.string (ascii " ")) (.string (Text.oneLine t)) = .ok (.list (fields.map .string)) ∧
    Text.oneLine (Text.oneLine t) = Text.oneLine t := by
  have hwords : ∀ u, Text.splitAtEach (ascii " ") u = Text.words u := fun u => if_pos rfl
  refine ⟨Text.words t, ?_, ?_, fun f hf => Text.isWord_of_mem_words hf, ?_, Text.oneLine_oneLine t⟩
  · rw [split_strings, hwords]
  · rw [join_strings, Text.joinWith_words]
  · rw [split_strings, hwords, Text.words_oneLine]

end Value

end TagFormula

import TagFormula.Catalog.Module
import TagFormula.Proofs.CatalogHistory

/-!
Free text in generated code. The names of modules, tables and tags and the texts of formulas come from outside
and may hold any bytes; they are written into comments. Main statement: what a compiler sees of a module does
not depend on the usages, and behind its first line a function depends on the text of its formula only through
the identifier.
-/

namespace TagFormula

/-! ### What a compiler sees -/

namespace Source

/-- Joins lines: a backslash directly in front of a newline goes with the newline. -/
def splice : Text → Text
  | [] => []
  | [b] => [b]
  | b :: c :: rest => if b == ch '\\' && c == ch '\n' then splice rest else b :: splice (c :: rest)

/-- A line up to a comment. Two slashes in a literal start none, nor does an escaped quote end it. -/
def uncomment (inLiteral : Bool) : Text → Text
  | [] => []
  | [b] => [b]
  | b :: c :: rest =>
    if inLiteral then
      if b == ch '\\' then b :: c :: uncomment true rest else b :: uncomment (b != ch '"') (c :: rest)
    else if b == ch '/' && c == ch '/' then []
    else b :: uncomment (b == ch '"') (c :: rest)

/-- The lines that are left of a source text: joined, without comments, and not blank. A literal ends with its
line at the latest. -/
def visibleLines (t : Text) : List Text :=
  ((Text.lines (splice t)).map (uncomment false)).filter fun line => !line.all Byte.isSpace

end Source

/-! ### Lines -/

namespace Text

theorem lines_go_append {u : Text} (hu : ch '\n' ∉ u) (current v : Text) :
    lines.go current (u ++ v) = lines.go (u.reverse ++ current) v := by
  induction u generalizing current with
  | nil => rfl
  | cons b u ih =>
    rw [List.mem_cons, not_or] at hu
    rw [List.cons_append, lines.go, if_neg (by rw [beq_iff_eq]; exact fun h => hu.1 h.symm), ih hu.2,
      List.reverse_cons, List.append_assoc]
    rfl

/-- The first line and those behind it. -/
theorem lines_line {u : Text} (hu : ch '\n' ∉ u) (v : Text) : lines (u ++ ch '\n' :: v) = u :: lines v := by
  rw [lines, lines_go_append hu, lines.go, if_pos (beq_self_eq_true _), List.append_nil, List.reverse_reverse]
  rfl

theorem lines_of_notMem {u : Text} (hu : ch '\n' ∉ u) (hne : u ≠ []) : lines u = [u] := by
  have h := lines_go_append hu [] []
  rw [List.append_nil, List.append_nil] at h
  rw [lines, h, lines.go, if_neg (by simpa using hne), List.reverse_reverse]

theorem lines_append (t v : Text) : lines (t ++ ch '\n' :: v) = lines (t ++ [ch '\n']) ++ lines v := by
  have hgo : ∀ current, lines.go current (t ++ ch '\n' :: v)
      = lines.go current (t ++ [ch '\n']) ++ lines v := by
    induction t with
    | nil =>
      intro current
      simp [lines.go, lines]
    | cons b t ih =>
      intro current
      simp only [List.cons_append, lines.go]
      split
      · rw [ih, List.cons_append]
      · exact ih _
  exact hgo []

theorem eq_space_of_mem_oneLine_go (started pending : Bool) (t : Text) :
    ∀ b ∈ oneLine.go started pending t, Byte.isSpace b → b = ch ' ' := by
  fun_induction oneLine.go started pending t with
  | case1 => exact fun b hb => absurd hb List.not_mem_nil
  | case2 started pending b rest hblank ih => exact ih
  | case3 started b rest hblank ih =>
    rw [List.forall_mem_cons, List.forall_mem_cons]
    exact ⟨fun _ => rfl, fun hb => absurd hb hblank, ih⟩
  | case4 started pending b rest hblank hpending ih =>
    rw [List.forall_mem_cons]
    exact ⟨fun hb => absurd hb hblank, ih⟩

/-- A text on one line has no blanks but spaces. -/
theorem eq_space_of_mem_oneLine (t : Text) : ∀ b ∈ oneLine t, Byte.isSpace b → b = ch ' ' :=
  eq_space_of_mem_oneLine_go false false t

theorem unlines_append (ts us : List Text) : unlines (ts ++ us) = unlines ts ++ unlines us :=
  List.flatMap_append

theorem unlines_cons (t : Text) (ts : List Text) : unlines (t :: ts) = t ++ ch '\n' :: unlines ts := by
  simp [unlines]

theorem unlines_concat (ts : List Text) (t : Text) : unlines (ts ++ [t]) = unlines ts ++ t ++ [ch '\n'] := by
  simp [unlines]

end Text

/-! ### Joining lines -/

namespace Source

open Text

theorem splice_cons {c : UInt8} (hc : c ≠ ch '\n') (b : UInt8) (rest : Text) :
    splice (b :: c :: rest) = b :: splice (c :: rest) := by
  rw [splice, if_neg]
  simp [hc]

/-- Behind a byte other than a backslash lines are joined on their own. -/
theorem splice_append {p : Text} (hp : p.getLast? ≠ some (ch '\\')) (q : Text) :
    splice (p ++ q) = splice p ++ splice q := by
  fun_induction splice p with
  | case1 => rfl
  | case2 b =>
    have hb : b ≠ ch '\\' := by simpa using hp
    cases q with
    | nil => rfl
    | cons c q =>
      rw [List.cons_append, List.nil_append, splice, if_neg (by simp [hb])]
      rfl
  | case3 b c rest hpair ih =>
    rw [List.cons_append, List.cons_append, splice, if_pos hpair]
    refine ih ?_
    cases rest with
    | nil => simp
    | cons d rest => rwa [List.getLast?_cons_cons, List.getLast?_cons_cons] at hp
  | case4 b c rest hpair ih =>
    rw [List.getLast?_cons_cons] at hp
    rw [List.cons_append, List.cons_append, splice, if_neg hpair, ← List.cons_append, ih hp, List.cons_append]

theorem splice_of_notMem {p : Text} (hp : ch '\n' ∉ p) : splice p = p := by
  induction p with
  | nil => rfl
  | cons b p ih =>
    rw [List.mem_cons, not_or] at hp
    cases p with
    | nil => rfl
    | cons c p => rw [splice_cons (fun h => hp.2 (by simp [h])), ih hp.2]

/-- A line that ends in a backslash goes on with the next. -/
theorem splice_joined {p : Text} (hp : ch '\n' ∉ p) (q : Text) :
    splice (p ++ ch '\\' :: ch '\n' :: q) = p ++ splice q := by
  induction p with
  | nil => rw [List.nil_append, splice, if_pos (by decide), List.nil_append]
  | cons b p ih =>
    rw [List.mem_cons, not_or] at hp
    have hnext : ∃ c r, c ≠ ch '\n' ∧ p ++ ch '\\' :: ch '\n' :: q = c :: r := by
      cases p with
      | nil => exact ⟨_, _, by decide, rfl⟩
      | cons c p => exact ⟨c, _, fun h => hp.2 (by simp [h]), rfl⟩
    obtain ⟨c, r, hc, hr⟩ := hnext
    rw [List.cons_append, hr, splice_cons hc, ← hr, ih hp.2, List.cons_append]

/-- A line that does not end in a backslash stays a line. -/
theorem lines_splice_line {p : Text} (hp : ch '\n' ∉ p) (hlast : p.getLast? ≠ some (ch '\\')) (q : Text) :
    Text.lines (splice (p ++ ch '\n' :: q)) = p :: Text.lines (splice q) := by
  have hnewline : splice (ch '\n' :: q) = ch '\n' :: splice q := splice_append (p := [ch '\n']) (by decide) q
  rw [splice_append hlast, splice_of_notMem hp, hnewline, Text.lines_line hp]

/-- A text behind which a new line starts. -/
def EndsLine (t : Text) : Prop := t = [] ∨ ∃ p, t = p ++ [ch '\n'] ∧ p.getLast? ≠ some (ch '\\')

theorem EndsLine.getLast?_ne {t : Text} (h : EndsLine t) : t.getLast? ≠ some (ch '\\') := by
  rcases h with rfl | ⟨p, rfl, -⟩
  · simp
  · rw [List.getLast?_concat]
    decide

theorem EndsLine.append {t u : Text} (ht : EndsLine t) (hu : EndsLine u) : EndsLine (t ++ u) := by
  rcases hu with rfl | ⟨p, rfl, hp⟩
  · rwa [List.append_nil]
  · refine Or.inr ⟨t ++ p, (List.append_assoc ..).symm, ?_⟩
    cases p with
    | nil => rw [List.append_nil]; exact ht.getLast?_ne
    | cons b p => rwa [List.getLast?_append_of_ne_nil _ (by simp)]

theorem getLast?_unlines_ne (ts : List Text) : (unlines ts).getLast? ≠ some (ch '\\') := by
  induction ts using List.reverseRecOn with
  | nil => simp [unlines]
  | append_singleton ts t _ =>
    rw [unlines_concat, List.getLast?_concat]
    decide

theorem endsLine_unlines (ts : List Text) {t : Text} (ht : t.getLast? ≠ some (ch '\\')) :
    EndsLine (unlines (ts ++ [t])) := by
  refine Or.inr ⟨unlines ts ++ t, unlines_concat ts t, ?_⟩
  cases t with
  | nil => rw [List.append_nil]; exact getLast?_unlines_ne ts
  | cons b t => rwa [List.getLast?_append_of_ne_nil _ (by simp)]

theorem visibleLines_append {t : Text} (h : EndsLine t) (q : Text) :
    visibleLines (t ++ q) = visibleLines t ++ visibleLines q := by
  have hlines : Text.lines (splice (t ++ q)) = Text.lines (splice t) ++ Text.lines (splice q) := by
    rw [splice_append h.getLast?_ne]
    rcases h with rfl | ⟨p, rfl, hp⟩
    · rfl
    · rw [splice_append hp, List.append_assoc]
      exact Text.lines_append _ _
  rw [visibleLines, hlines, List.map_append, List.filter_append]
  rfl

/-- A line break behind lines adds nothing. -/
theorem visibleLines_newline {t : Text} (h : EndsLine t) : visibleLines (t ++ [ch '\n']) = visibleLines t := by
  rw [visibleLines_append h]
  exact List.append_nil _

theorem visibleLines_flatMap {α : Type} {f : α → Text} {l : List α} (h : ∀ a ∈ l, EndsLine (f a)) (q : Text) :
    visibleLines (l.flatMap f ++ q) = l.flatMap (fun a => visibleLines (f a)) ++ visibleLines q := by
  induction l with
  | nil => rfl
  | cons a l ih =>
    rw [List.forall_mem_cons] at h
    rw [List.flatMap_cons, List.append_assoc, visibleLines_append h.1, ih h.2, List.flatMap_cons,
      List.append_assoc]

/-! ### Comments -/

/-- A comment on a line of its own. -/
structure IsLineComment (line : Text) : Prop where
  slashes : ascii "//" <+: line
  blanks : ∀ b ∈ line, Byte.isSpace b → b = ch ' '

theorem IsLineComment.newline_notMem {line : Text} (h : IsLineComment line) : ch '\n' ∉ line :=
  fun hmem => absurd (h.blanks _ hmem (by decide)) (by decide)

/-- A text on one line between texts without blanks but spaces. -/
theorem isLineComment_oneLine {start stop : Text} (hstart : ascii "//" <+: start)
    (hblanks : (start ++ stop).all fun b => !Byte.isSpace b || b == ch ' ') (t : Text) :
    IsLineComment (start ++ Text.oneLine t ++ stop) := by
  refine ⟨hstart.trans ((List.prefix_append ..).trans (List.prefix_append ..)), fun b hb hspace => ?_⟩
  have hall : ∀ b ∈ start ++ stop, Byte.isSpace b → b = ch ' ' := by
    intro b hb hspace
    simpa [hspace] using List.all_eq_true.1 hblanks b hb
  simp only [List.mem_append] at hb hall
  rcases hb with (hb | hb) | hb
  · exact hall b (Or.inl hb) hspace
  · exact Text.eq_space_of_mem_oneLine t b hb hspace
  · exact hall b (Or.inr hb) hspace

theorem uncomment_slashes {line : Text} (h : ascii "//" <+: line) : uncomment false line = [] := by
  obtain ⟨rest, rfl⟩ := h
  rfl

/-- A text of which nothing is left but comments. -/
def AllComments (t : Text) : Prop := ∀ line ∈ Text.lines (splice t), ascii "//" <+: line

theorem AllComments.visibleLines_eq {t : Text} (h : AllComments t) : visibleLines t = [] := by
  rw [visibleLines, List.filter_eq_nil_iff]
  intro line hline
  obtain ⟨l, hl, rfl⟩ := List.mem_map.1 hline
  rw [uncomment_slashes (h l hl)]
  decide

/-- What stands in front of the first line of comments is a comment, if it starts as one. -/
theorem prefix_of_mem_lines_append {p u : Text} (hp : ch '\n' ∉ p) (hslashes : ascii "//" <+: p)
    (hu : ∀ line ∈ Text.lines u, ascii "//" <+: line) : ∀ line ∈ Text.lines (p ++ u), ascii "//" <+: line := by
  by_cases hmem : ch '\n' ∈ u
  · obtain ⟨first, more, rfl, hfirst⟩ := List.eq_append_cons_of_mem hmem
    rw [Text.lines_line hfirst, List.forall_mem_cons] at hu
    rw [← List.append_assoc, Text.lines_line (by simp [hp, hfirst]), List.forall_mem_cons]
    exact ⟨hslashes.trans (List.prefix_append ..), hu.2⟩
  · have hne : p ++ u ≠ [] := by
      obtain ⟨rest, rfl⟩ := hslashes
      exact List.cons_ne_nil _ _
    rw [Text.lines_of_notMem (by simp [hp, hmem]) hne, List.forall_mem_singleton]
    exact hslashes.trans (List.prefix_append ..)

/-- Comments leave nothing, however their lines are joined, if the last one ends its line. -/
theorem allComments_unlines {cs : List Text} (hcs : ∀ c ∈ cs, IsLineComment c) {d : Text}
    (hd : IsLineComment d) (hlast : d.getLast? ≠ some (ch '\\')) : AllComments (unlines (cs ++ [d])) := by
  induction cs with
  | nil =>
    intro line hline
    rw [List.nil_append, unlines_cons, lines_splice_line hd.newline_notMem hlast] at hline
    rcases List.mem_cons.1 hline with rfl | hline
    · exact hd.slashes
    · cases hline
  | cons c cs ih =>
    rw [List.forall_mem_cons] at hcs
    rw [AllComments, List.cons_append, unlines_cons]
    by_cases hclast : c.getLast? = some (ch '\\')
    · -- the comment swallows the line break, and the next comment goes on with it
      obtain ⟨p, rfl⟩ := List.getLast?_eq_some_iff.1 hclast
      have hnewline : ch '\n' ∉ p := fun hmem => hcs.1.newline_notMem (by simp [hmem])
      have hslashes : ascii "//" <+: p := by
        rcases List.prefix_concat_iff.1 hcs.1.slashes with h | h
        · have hlast := congrArg List.getLast? h
          rw [List.getLast?_concat] at hlast
          exact absurd hlast (by decide)
        · exact h
      rw [List.append_assoc, List.singleton_append, splice_joined hnewline]
      exact prefix_of_mem_lines_append hnewline hslashes (ih hcs.2)
    · rw [lines_splice_line hcs.1.newline_notMem hclast, List.forall_mem_cons]
      exact ⟨hcs.1.slashes, ih hcs.2⟩

end Source

/-! ### Functions -/

namespace Formula

open Source Text

/-- The comment in front of the function. -/
def comment (f : Formula) : Text :=
  ascii "// " ++ f.role.name ++ ascii ": \"" ++ Text.oneLine f.text ++ ascii "\""

/-- The function behind the comment, under an identifier. -/
def codeText (role : Role) (identifier : Text) (e : Expr) (expression : Text) : Text :=
  let unused (used : Bool) (name : String) : List Text :=
    if used then [] else [ascii "  (void)" ++ ascii name ++ ascii ";"]
  Text.unlines ([role.returnType ++ ascii " " ++ role.functionName identifier
      ++ ascii "(const TagValue& val, const EvalContext& ctx)" ++ ascii " \x7b"]
    ++ unused e.usesValue "val" ++ unused e.usesContext "ctx" ++ bodyLines role expression ++ [ascii "\x7d"])

/-- The function of an expression behind the comment, if there is one. -/
def code? (role : Role) (identifier : Text) (e : Expr) : Option Text :=
  (Source.ofExpr e).toOption.map (codeText role identifier e)

theorem functionText_eq (f : Formula) (e : Expr) (expression : Text) : f.functionText e expression
    = f.comment ++ ch '\n' :: codeText f.role f.identifier e expression :=
  Text.unlines_cons _ _

theorem source_define (f : Formula) (e : Expr) : (f.define e).toOption.map FormulaFunction.source
    = (code? f.role f.identifier e).map fun code => f.comment ++ ch '\n' :: code := by
  unfold define code?
  cases Source.ofExpr e with
  | error => rfl
  | ok expression => exact congrArg some (functionText_eq f e expression)

/-- A function is the comment of its formula in front of code. -/
theorem exists_source_eq {f : Formula} {e : Expr} {g : FormulaFunction} (h : f.define e = .ok g) :
    ∃ code, EndsLine code ∧ g.source = f.comment ++ ch '\n' :: code := by
  have hsource := f.source_define e
  rw [h] at hsource
  obtain ⟨code, hcode, hline⟩ := Option.map_eq_some_iff.1 hsource.symm
  obtain ⟨expression, -, rfl⟩ := Option.map_eq_some_iff.1 hcode
  exact ⟨_, endsLine_unlines _ (by decide), hline.symm⟩

theorem isLineComment_comment (f : Formula) : IsLineComment f.comment := by
  refine isLineComment_oneLine ?_ ?_ f.text
  · cases f.role <;> decide
  · cases f.role <;> decide

theorem getLast?_comment (f : Formula) : f.comment.getLast? ≠ some (ch '\\') := by
  rw [comment, show ascii "\"" = [ch '"'] from rfl, List.getLast?_concat]
  decide

end Formula

/-! ### Modules -/

/-- The comment on a place that uses a formula. -/
def Usage.comment (u : Usage) : Text := ascii "// used by " ++ Text.oneLine u.toText

theorem Usage.isLineComment_comment (u : Usage) : Source.IsLineComment u.comment := by
  have hblanks : (ascii "// used by " ++ []).all fun b => !Byte.isSpace b || b == ch ' ' := by decide
  have h := Source.isLineComment_oneLine (by decide) hblanks u.toText
  rwa [List.append_nil] at h

namespace Catalog

open Source Text

/-- The item with no place that uses it. -/
def Item.withoutUsages (item : Item) : Item := { item with usages := [] }

/-- The catalog with no place that uses a formula. -/
def withoutUsages (c : Catalog) : Catalog := { c with items := c.items.mapValues Item.withoutUsages }

/-- The function is one that the formula defines. -/
def Item.Defined (item : Item) : Prop :=
  ∀ f, item.function = some f → ∃ e, item.formula.define e = .ok f

theorem defined_of_mem_run {as : List Action} {item : Item} (h : item ∈ (run as).items.values) :
    item.Defined := by
  intro f hf
  obtain ⟨⟨id, item⟩, hmem, rfl⟩ := List.mem_map.1 h
  have hfound : (run as).find? id = some item := Dictionary.mem_entries_iff.1 hmem
  obtain ⟨before, r, later, -, -, -, rfl⟩ := (recorded_of_find?_run as id).1 item hfound
  simp only [Registration.itemAfter] at hf
  cases hrules : later.findSome? Action.rules? with
  | none =>
    rw [hrules] at hf
    cases hf
  | some rules =>
    rw [hrules] at hf
    refine ⟨Rule.normalize rules (Expr.ofTokenTree r.tree), ?_⟩
    rw [(r.itemAfter_identity later).2]
    cases hdefine : r.formula.defineFrom rules r.tree with
    | error =>
      simp only [hdefine] at hf
      cases hf
    | ok g =>
      simp only [hdefine] at hf
      cases hf
      exact hdefine

/-- The source of an item with a function, whatever its usages: comments in front of the code. -/
theorem Item.source_of_function {item : Item} {f : FormulaFunction} (hf : item.function = some f)
    {code : Text} (hcode : f.source = item.formula.comment ++ ch '\n' :: code) (us : List Usage) :
    { item with usages := us }.source
      = unlines (us.map Usage.comment ++ [item.formula.comment]) ++ (code ++ [ch '\n']) := by
  simp only [source, hf, hcode, unlines_append, unlines_cons, List.append_assoc]
  rfl

/-- Of comments in front of code the code is left. -/
theorem visibleLines_commented (us : List Usage) (f : Formula) {code : Text} (hcode : EndsLine code) :
    EndsLine (unlines (us.map Usage.comment ++ [f.comment]) ++ (code ++ [ch '\n'])) ∧
      visibleLines (unlines (us.map Usage.comment ++ [f.comment]) ++ (code ++ [ch '\n'])) = visibleLines code := by
  have hcomments := endsLine_unlines (us.map Usage.comment) f.getLast?_comment
  have hhidden : AllComments (unlines (us.map Usage.comment ++ [f.comment])) := by
    refine allComments_unlines ?_ f.isLineComment_comment f.getLast?_comment
    intro c hc
    obtain ⟨u, -, rfl⟩ := List.mem_map.1 hc
    exact u.isLineComment_comment
  refine ⟨hcomments.append (Or.inr ⟨code, rfl, hcode.getLast?_ne⟩), ?_⟩
  rw [visibleLines_append hcomments, hhidden.visibleLines_eq, List.nil_append, visibleLines_newline hcode]

/-- What is left of an item: nothing, or the code of its function. -/
theorem Item.visibleLines_source_cases {item : Item} (h : item.Defined) :
    (item.function = none ∧ ∀ us, { item with usages := us }.source = []) ∨
    ∃ f code, item.function = some f ∧ f.source = item.formula.comment ++ ch '\n' :: code ∧
      ∀ us, EndsLine { item with usages := us }.source ∧
        visibleLines { item with usages := us }.source = visibleLines code := by
  rcases Option.eq_none_or_eq_some item.function with hf | ⟨f, hf⟩
  · exact Or.inl ⟨hf, fun us => by simp only [source, hf]⟩
  · obtain ⟨e, he⟩ := h f hf
    obtain ⟨code, hends, hcode⟩ := Formula.exists_source_eq he
    refine Or.inr ⟨f, code, hf, hcode, fun us => ?_⟩
    rw [Item.source_of_function hf hcode]
    exact visibleLines_commented us item.formula hends

theorem Item.visibleLines_source {item : Item} (h : item.Defined) : EndsLine item.source ∧
    EndsLine item.withoutUsages.source ∧ visibleLines item.withoutUsages.source = visibleLines item.source := by
  rcases Item.visibleLines_source_cases h with ⟨-, hnone⟩ | ⟨f, code, -, -, hcode⟩
  · have hall : item.source = [] := hnone item.usages
    have hempty : item.withoutUsages.source = [] := hnone []
    rw [hall, hempty]
    exact ⟨Or.inl rfl, Or.inl rfl, rfl⟩
  · exact ⟨(hcode item.usages).1, (hcode []).1, (hcode []).2.trans (hcode item.usages).2.symm⟩

/-- The tables do not show where formulas are used. -/
theorem lookupText_withoutUsages (c : Catalog) (r : Role) : c.withoutUsages.lookupText r = c.lookupText r := by
  have hvalues : c.withoutUsages.items.values = c.items.values.map Item.withoutUsages :=
    Dictionary.values_mapValues ..
  simp only [lookupText, hvalues, List.filter_map, List.map_map]
  rfl

theorem moduleText_congr {c d : Catalog} (h : c.items = d.items) (header : Text) :
    c.moduleText header = d.moduleText header := by
  have hlookup : c.lookupText = d.lookupText := funext fun r => by simp only [lookupText, h]
  rw [moduleText, moduleText, h, hlookup]

/-- A module: the functions, then the tables, between lines that are the same for all catalogs. -/
theorem exists_moduleText_eq (header : Text) : ∃ start stop, EndsLine start ∧ ∀ c : Catalog, c.moduleText header
    = start ++ (c.items.values.flatMap Item.source ++ (Role.all.flatMap c.lookupText ++ stop)) := by
  have hstart := endsLine_unlines [ascii "// Generated by tagconv. Do not edit.", [],
    ascii "#include \"" ++ header ++ ascii "\"", [], ascii "#include <string>",
    ascii "#include <unordered_map>", [], ascii "namespace tagconv::generated \x7b"] (t := []) (by decide)
  refine ⟨_, ascii "\x7d  // namespace tagconv::generated\n", hstart, fun c => ?_⟩
  simp only [moduleText, List.append_assoc]
  rfl

section

variable {c : Catalog} (h : ∀ item ∈ c.items.values, item.Defined) (header : Text)
include h

omit header in
theorem endsLine_source : ∀ item ∈ c.items.values, EndsLine item.source :=
  fun item hitem => (Item.visibleLines_source (h item hitem)).1

theorem visibleLines_moduleText :
    visibleLines (c.moduleText header) = visibleLines (c.withoutUsages.moduleText header) := by
  obtain ⟨start, stop, hstart, hmodule⟩ := exists_moduleText_eq header
  have hvalues : c.withoutUsages.items.values = c.items.values.map Item.withoutUsages :=
    Dictionary.values_mapValues ..
  have hlookup : c.withoutUsages.lookupText = c.lookupText := funext c.lookupText_withoutUsages
  have hends : ∀ item ∈ c.items.values, EndsLine item.withoutUsages.source :=
    fun item hitem => (Item.visibleLines_source (h item hitem)).2.1
  have hsources : (c.items.values.flatMap fun item => visibleLines item.withoutUsages.source)
      = c.items.values.flatMap fun item => visibleLines item.source :=
    List.flatMap_congr fun item hitem => (Item.visibleLines_source (h item hitem)).2.2
  rw [hmodule, hmodule, hlookup, hvalues, List.flatMap_map, visibleLines_append hstart,
    visibleLines_append hstart, visibleLines_flatMap (endsLine_source h), visibleLines_flatMap hends, hsources]

/-- The code of every function is left. -/
theorem code_infix_moduleText {item : Item} (hitem : item ∈ c.items.values) {f : FormulaFunction}
    (hf : item.function = some f) :
    ∃ code, f.source = item.formula.comment ++ ch '\n' :: code ∧
      visibleLines code <:+: visibleLines (c.moduleText header) := by
  obtain ⟨start, stop, hstart, hmodule⟩ := exists_moduleText_eq header
  rcases Item.visibleLines_source_cases (h item hitem) with ⟨hnone, -⟩ | ⟨g, code, hg, hcode, hvisible⟩
  · rw [hnone] at hf
    cases hf
  · obtain rfl : g = f := Option.some.inj (hg.symm.trans hf)
    have hlines : visibleLines item.source = visibleLines code := (hvisible item.usages).2
    refine ⟨code, hcode, ?_⟩
    rw [hmodule, visibleLines_append hstart, visibleLines_flatMap (endsLine_source h), ← hlines,
      ← List.append_assoc]
    refine List.IsInfix.trans ?_ (List.infix_append ..)
    exact List.infix_of_mem_flatten (List.mem_map_of_mem hitem)

end

/-! ### Histories with other usages -/

/-- Actions that differ at most in where a formula is used. -/
inductive SameButUsage : Action → Action → Prop
  | register {r s : Registration} (hformula : r.formula = s.formula) (htree : r.tree = s.tree) :
    SameButUsage (.register r) (.register s)
  | generate (rules : List Rule) : SameButUsage (.generate rules) (.generate rules)

theorem Item.withoutUsages_addUsage (item : Item) (u : Usage) :
    (item.addUsage u).withoutUsages = item.withoutUsages := by
  unfold addUsage
  split <;> rfl

theorem Item.withoutUsages_generate (item : Item) (rules : List Rule) :
    (item.generate rules).withoutUsages = item.withoutUsages.generate rules :=
  (generate_usages rules item []).symm

theorem find?_withoutUsages (c : Catalog) (id : Text) :
    c.withoutUsages.find? id = (c.find? id).map Item.withoutUsages :=
  Dictionary.find?_mapValues ..

theorem map_withoutUsages_register (c : Catalog) (r : Registration) (id : Text) :
    ((c.act (.register r)).find? id).map Item.withoutUsages
      = if r.formula.identifier = id then
          some (((c.find? id).map Item.withoutUsages).getD (.fresh r.formula r.tree))
        else (c.find? id).map Item.withoutUsages := by
  split
  · rename_i hid
    subst hid
    rw [find?_register, Option.map_some, Item.withoutUsages_addUsage]
    cases c.find? r.formula.identifier <;> rfl
  · rename_i hid
    rw [find?_register_of_ne c hid]

theorem map_withoutUsages_generate (c : Catalog) (rules : List Rule) (id : Text) :
    ((c.act (.generate rules)).find? id).map Item.withoutUsages
      = ((c.find? id).map Item.withoutUsages).map (Item.generate rules) := by
  rw [find?_generate]
  cases c.find? id with
  | none => rfl
  | some item => exact congrArg some (item.withoutUsages_generate rules)

theorem SameButUsage.act {a b : Action} (hab : SameButUsage a b) {c d : Catalog}
    (h : c.withoutUsages.items = d.withoutUsages.items) :
    (c.act a).withoutUsages.items = (d.act b).withoutUsages.items := by
  refine Dictionary.ext_find? fun id => ?_
  have hfind : (c.find? id).map Item.withoutUsages = (d.find? id).map Item.withoutUsages := by
    rw [← find?_withoutUsages, ← find?_withoutUsages, find?, h, find?]
  have hact : ((c.act a).find? id).map Item.withoutUsages = ((d.act b).find? id).map Item.withoutUsages := by
    cases hab with
    | register hformula htree =>
      rw [map_withoutUsages_register, map_withoutUsages_register, hfind, hformula, htree]
    | generate rules => rw [map_withoutUsages_generate, map_withoutUsages_generate, hfind]
  rw [← find?_withoutUsages, ← find?_withoutUsages] at hact
  exact hact

theorem withoutUsages_run {as bs : List Action} (h : List.Forall₂ SameButUsage as bs) :
    (run as).withoutUsages.items = (run bs).withoutUsages.items := by
  have hfoldl : ∀ {c d : Catalog}, c.withoutUsages.items = d.withoutUsages.items →
      (as.foldl Catalog.act c).withoutUsages.items = (bs.foldl Catalog.act d).withoutUsages.items := by
    induction h with
    | nil => exact id
    | cons hab _ ih => exact fun h => ih (hab.act h)
  exact hfoldl rfl

/-! ### The module and its functions -/

/-- What a compiler sees of a module does not depend on the usages, and no code is lost in their comments.
Behind its first line, a comment that ends with the line, a function depends on the text of its formula only
through the identifier. -/
theorem freeText_unseen :
    (∀ (as bs : List Action) (header : Text), (run as).withoutUsages.items = (run bs).withoutUsages.items →
      visibleLines ((run as).moduleText header) = visibleLines ((run bs).moduleText header)) ∧
    (∀ (as : List Action) (header : Text), ∀ item ∈ (run as).items.values, ∀ f,
      item.function = some f → ∃ code, f.source = item.formula.comment ++ ch '\n' :: code ∧
        visibleLines code <:+: visibleLines ((run as).moduleText header)) ∧
    ∀ (f : Formula) (e : Expr),
      (f.define e).toOption.map FormulaFunction.source
        = (Formula.code? f.role f.identifier e).map (fun code => f.comment ++ ch '\n' :: code) ∧
      IsLineComment f.comment ∧ f.comment.getLast? ≠ some (ch '\\') := by
  refine ⟨fun as bs header h => ?_, fun as header item hitem f hf => ?_, fun f e => ?_⟩
  · rw [visibleLines_moduleText fun _ => defined_of_mem_run, visibleLines_moduleText fun _ => defined_of_mem_run,
      moduleText_congr h]
  · exact code_infix_moduleText (fun _ => defined_of_mem_run) header hitem hf
  · exact ⟨f.source_define e, f.isLineComment_comment, f.getLast?_comment⟩

/-- `$val`, used somewhere. -/
def shownFor (usage : Usage) : Registration :=
  ⟨⟨ascii "$val", .printConv⟩, .node (.ofClass (ascii "PPI::Token::Symbol") (ascii "$val") [] none) [],
    usage⟩

/-- A tag that would join its comment with the next line, and names with lines of their own. -/
theorem freeText_unseen_backslash :
    let as := [.register (shownFor ⟨ascii "Exif", ascii "Main", ascii "Width\\"⟩), .generate Rule.standard]
    let bs := [.register (shownFor ⟨ascii "Exif\n#error", [], ascii "\"\n\x7d"⟩), .generate Rule.standard]
    (run as).withoutUsages.items = (run bs).withoutUsages.items ∧
      ((run as).items.values.map fun item => item.function.isSome) = [true] ∧
      visibleLines ((run as).moduleText (ascii "tags.h"))
        = visibleLines ((run bs).moduleText (ascii "tags.h")) := by
  intro as bs
  have hsame : (run as).withoutUsages.items = (run bs).withoutUsages.items :=
    withoutUsages_run (.cons (.register rfl rfl) (.cons (.generate _) .nil))
  exact ⟨hsame, rfl, freeText_unseen.1 as bs _ hsame⟩

end Catalog
end TagFormula

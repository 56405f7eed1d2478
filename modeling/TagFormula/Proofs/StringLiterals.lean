import TagFormula.Proofs.Numerals
import TagFormula.Proofs.Printing
import TagFormula.Proofs.SourceReader
import TagFormula.Proofs.Writer

/-!
The string literals in the source of an expression. Main statement: they spell the strings of the
expression, in order. A function receives a string up to its first zero byte, so all arrive as they are
exactly if none holds a zero byte.
-/

namespace TagFormula.Source

/-! ### Numbers -/

/-- Numbers are written without the bytes that matter to a reader of literals. -/
theorem isPlain_of_isNumeral {b : UInt8} (h : Byte.isNumeral b) : isPlain b := by
  simp only [Byte.isNumeral, Bool.or_eq_true, beq_iff_eq] at h
  rcases h with ((h | rfl) | rfl) | rfl
  · exact isPlain_of_isWord h
  all_goals decide

theorem plain_of_numeral {t : Text} (h : Numeral t) : Plain t := fun b hb => isPlain_of_isNumeral (h b hb)

/-! ### The strings of an expression -/

theorem lastPart_string : LastPart (ascii "TagValue::string") (ascii "string") :=
  ⟨ascii "TagValue:", ch ':', by decide⟩

theorem lastPart_get : LastPart (ascii "ctx.get") (ascii "get") := ⟨ascii "ctx", ch '.', by decide⟩

theorem lastPart_makeRegex : LastPart (ascii "rt::make_regex") (ascii "make_regex") :=
  ⟨ascii "rt:", ch ':', by decide⟩

theorem plain_callText {function args : Text} (hfunction : Plain function) (hargs : Plain args) :
    Plain (callText function args) :=
  plain_append.2 ⟨plain_append.2 ⟨plain_append.2 ⟨hfunction, by decide⟩, hargs⟩, by decide⟩

theorem plain_integerText (i : Int64) : Plain (integerText i) :=
  plain_callText (by decide) (plain_append.2 ⟨plain_of_numeral (numeral_ofInt _), by split_ifs <;> decide⟩)

theorem plain_realText (d : Double) : Plain (realText d) :=
  plain_callText (by decide) (plain_append.2 ⟨plain_of_numeral (numeral_toExact d), by split_ifs <;> decide⟩)

theorem Reads.callText {function args : Text} {found : List StringArgument} (h : Reads args found)
    (hfunction : Plain function) : Reads (callText function args) found :=
  h.within (plain_append.2 ⟨hfunction, by decide⟩) (by decide)

theorem reads_argsText {ts : List Text} {founds : List (List StringArgument)}
    (h : List.Forall₂ Reads ts founds) : Reads (argsText ts) founds.flatten := by
  induction h with
  | nil => exact Plain.reads (by decide)
  | @cons t found ts founds ht hts ih =>
    cases hts with
    | nil =>
      have hone : argsText [t] = t := List.append_nil _
      rwa [hone, List.flatten_cons, List.flatten_nil, List.append_nil]
    | @cons u _ ts _ hu hts =>
      have hcons : argsText (t :: u :: ts) = t ++ ascii ", " ++ argsText (u :: ts) := by
        simp [argsText, Text.joinWith]
      rw [hcons]
      exact ht.join (Plain.reads (by decide)) ih

theorem Reads.pair {t u : Text} {found more : List StringArgument} (h : Reads t found) (hu : Reads u more) :
    Reads (argsText [t, u]) (found ++ more) := by
  have := reads_argsText (.cons h (.cons hu .nil))
  rwa [List.flatten_cons, List.flatten_singleton] at this

/-- The names and signs that operators are written with. -/
def Form.isPlain : Form → Bool
  | .sign s => s == "/" || (ascii s).all Source.isPlain
  | .function name | .delayed name => (ascii name).all Source.isPlain

theorem isPlain_of_binaryForm? {op : Text} {form : Form} (h : binaryForm? op = some form) :
    form.isPlain := by
  have hall : ∀ entry ∈ binaryForms, entry.2.isPlain := by decide +kernel
  obtain ⟨entry, hentry, rfl⟩ := Option.map_eq_some_iff.1 h
  exact hall entry (List.mem_of_find?_eq_some hentry)

theorem plain_of_callForm? {name : Text} {form : CallForm} (h : callForm? name = some form) :
    Plain (ascii form.function) := by
  have hall : ∀ entry ∈ callForms, Plain (ascii entry.2.function) := by decide
  obtain ⟨entry, hentry, rfl⟩ := Option.map_eq_some_iff.1 h
  exact hall entry (List.mem_of_find?_eq_some hentry)

/-- A slash with blanks around it opens no comment. -/
theorem reads_sign {s : String} (h : (Form.sign s).isPlain) : Reads (ascii " " ++ ascii s ++ ascii " ") [] := by
  rcases Bool.or_eq_true_iff.1 h with hslash | hplain
  · rw [beq_iff_eq.1 hslash]
    intro r hr
    obtain ⟨mode, n, hstep, -, hmode⟩ := Reader.step_of_isPlain hr (b := ch ' ') (by decide)
    obtain rfl := hmode (by decide)
    have htext : ascii " " ++ ascii "/" ++ ascii " " = [ch ' ', ch '/', ch ' '] := rfl
    refine ⟨⟨.code, n, r.found⟩, ?_, .inl rfl, (List.append_nil _).symm⟩
    rw [htext, Reader.run, List.foldlM_cons, hstep]
    rfl
  · exact Plain.reads (plain_append.2 ⟨plain_append.2 ⟨by decide, List.all_eq_true.1 hplain⟩, by decide⟩)

theorem reads_binaryText {form : Form} (hform : form.isPlain) {left right : Text}
    {found more : List StringArgument} (hleft : Reads left found) (hright : Reads right more) :
    Reads (binaryText form left right) (found ++ more) := by
  cases form with
  | sign s =>
    have htext : binaryText (.sign s) left right
        = ascii "(" ++ (left ++ (ascii " " ++ ascii s ++ ascii " ") ++ right) ++ ascii ")" := by
      simp [binaryText]
    rw [htext]
    exact (hleft.join (reads_sign hform) hright).within (by decide) (by decide)
  | function name => exact (hleft.pair hright).callText (List.all_eq_true.1 hform)
  | delayed name =>
    have hdelayed : Reads (ascii "[&]() \x7b return " ++ right ++ ascii "; \x7d") more :=
      hright.within (by decide) (by decide)
    exact (hleft.pair hdelayed).callText (List.all_eq_true.1 hform)

theorem reads_conditionalText {test yes no : Text} {found more last : List StringArgument}
    (htest : Reads test found) (hyes : Reads yes more) (hno : Reads no last) :
    Reads (conditionalText test yes no) (found ++ more ++ last) := by
  have htext : conditionalText test yes no = ascii "((" ++ (test ++ ascii ").truthy() ? TagValue(" ++ yes
      ++ ascii ") : TagValue(" ++ no) ++ ascii "))" := by
    simp [conditionalText]
  rw [htext]
  exact ((htest.join (Plain.reads (by decide)) hyes).join (Plain.reads (by decide)) hno).within
    (by decide) (by decide)

theorem reads_matchText {subject : Text} {found : List StringArgument} (h : Reads subject found)
    (pattern flags : Text) (negated : Bool) :
    Reads (matchText subject pattern flags negated)
      (found ++ [⟨ascii "make_regex", pattern⟩, ⟨ascii "make_regex", flags⟩]) := by
  have hcompiled := lastPart_makeRegex.reads_call (List.cons_ne_nil pattern [flags])
  have honce : Reads (ascii "[]() -> const std::regex& \x7b static const std::regex re = "
      ++ callText (ascii "rt::make_regex") (argsText ([pattern, flags].map quoted))
      ++ ascii "; return re; \x7d()") _ := hcompiled.within (by decide) (by decide)
  have hmatch : Reads (callText (ascii "rt::regex_match") _) _ := (h.pair honce).callText (by decide)
  cases negated with
  | false => exact hmatch
  | true => exact hmatch.callText (by decide)

mutual
/-- The strings that an expression passes to functions, in the order of its text. -/
def passedStrings : Expr → List StringArgument
  | .literal (.string t) => [⟨ascii "string", t⟩]
  | .field name => [⟨ascii "get", name⟩]
  | .binary _ l r => passedStrings l ++ passedStrings r
  | .unary _ x => passedStrings x
  | .conditional c y n => passedStrings c ++ passedStrings y ++ passedStrings n
  | .call _ args => passedStringsAll args
  | .repeated x n => passedStrings x ++ passedStrings n
  | .regexMatch s pattern flags _ =>
    passedStrings s ++ [⟨ascii "make_regex", pattern⟩, ⟨ascii "make_regex", flags⟩]
  | _ => []

def passedStringsAll : List Expr → List StringArgument
  | [] => []
  | e :: es => passedStrings e ++ passedStringsAll es
end

theorem passedStringsAll_eq (es : List Expr) : passedStringsAll es = (es.map passedStrings).flatten := by
  induction es with
  | nil => rfl
  | cons e es ih => rw [passedStringsAll, ih, List.map_cons, List.flatten_cons]

/-- One case for each kind of node. -/
theorem reads_of_writes {e : Expr} {ts : List Text} {t : Text} (h : Writes e ts t)
    (hparts : List.Forall₂ Reads ts ((parts e).map fun p => passedStrings p.2)) :
    Reads t (passedStrings e) := by
  cases h with
  | integer i => exact (plain_integerText i).reads
  | float d => exact (plain_realText d).reads
  | string t => exact lastPart_string.reads_literal t
  | value => exact Plain.reads (by decide)
  | element i =>
    have hvalue : Reads (ascii "val") [] := Plain.reads (by decide)
    exact (hvalue.pair (plain_of_numeral (numeral_ofInt i.toInt)).reads).callText (by decide)
  | field name => exact lastPart_get.reads_literal name
  | binary hform l r left right =>
    rcases hparts with _ | ⟨hl, _ | ⟨hr, -⟩⟩
    exact reads_binaryText (isPlain_of_binaryForm? hform) hl hr
  | unary hwrite x operand =>
    rcases hparts with _ | ⟨hx, -⟩
    rw [unaryText?] at hwrite
    split_ifs at hwrite
    · cases hwrite
      exact Reads.within hx (by decide) (by decide)
    · cases hwrite
      exact hx
    · cases hwrite
      exact Reads.callText hx (by decide)
    · cases hwrite
      exact Reads.callText hx (by decide)
  | conditional c y n test yes no =>
    rcases hparts with _ | ⟨hc, _ | ⟨hy, _ | ⟨hn, -⟩⟩⟩
    exact reads_conditionalText hc hy hn
  | @call name form args hform hcount =>
    have hfunction := plain_of_callForm? hform
    have hmap : (parts (.call name args)).map (fun p => passedStrings p.2) = args.map passedStrings :=
      List.map_map.symm.trans (congrArg (List.map passedStrings) (map_snd_argParts 0 args))
    have hargs := reads_argsText hparts
    rw [hmap, ← passedStringsAll_eq] at hargs
    rw [passedStrings, CallForm.text]
    cases form.arity with
    | exactly k => exact hargs.callText hfunction
    | atLeast k => exact (hargs.within (by decide) (by decide)).callText hfunction
  | repeated x n =>
    rcases hparts with _ | ⟨hx, _ | ⟨hn, -⟩⟩
    exact (Reads.pair hx hn).callText (by decide)
  | regexMatch s pattern flags negated =>
    rcases hparts with _ | ⟨hs, -⟩
    exact reads_matchText hs pattern flags negated

theorem reads_of_ofPartsAt {ps : List (Step × Expr)}
    (hps : ∀ p ∈ ps, ∀ {path t}, ofExprAt path p.2 = .ok t → Reads t (passedStrings p.2))
    {path : Path} {ts : List Text} (h : ofPartsAt path ps = .ok ts) :
    List.Forall₂ Reads ts (ps.map fun p => passedStrings p.2) := by
  induction ps generalizing ts with
  | nil =>
    cases h
    exact .nil
  | cons p ps ih =>
    rw [ofPartsAt] at h
    obtain ⟨first, hfirst, h⟩ := bind_eq_ok.1 h
    obtain ⟨rest, hrest, h⟩ := bind_eq_ok.1 h
    cases h
    exact .cons (hps p (List.mem_cons_self ..) hfirst)
      (ih (fun q hq => hps q (List.mem_cons_of_mem _ hq)) hrest)

theorem reads_of_ofExprAt {e : Expr} {path : Path} {t : Text} (h : ofExprAt path e = .ok t) :
    Reads t (passedStrings e) := by
  induction e using partsInduct generalizing path t with
  | node e ih =>
    -- the parts are read wherever they stand, so their texts can be put together
    obtain ⟨ts, hts, hwrites⟩ := exists_writes_of_ofExprAt h
    exact reads_of_writes hwrites (reads_of_ofPartsAt (fun p hp _ _ => ih p hp) hts)

/-! ### What arrives -/

theorem upToZero_eq_self_iff {t : Text} : t.upToZero = t ↔ 0 ∉ t := by
  rw [Text.upToZero, List.takeWhile_eq_self_iff]
  constructor
  · intro h hzero
    exact absurd (h 0 hzero) (by decide)
  · intro h b hb
    exact bne_iff_ne.2 fun heq => h (heq ▸ hb)

/-- Modifiers that a pattern can have are letters. -/
theorem zero_not_mem_flags {pattern flags : Text} (h : (Pattern.compile pattern flags).isOk) : 0 ∉ flags := by
  intro hzero
  rw [Pattern.compile] at h
  cases hfind : flags.find? fun m => !(ascii "igo").contains m with
  | none => exact absurd (List.find?_eq_none.1 hfind 0 hzero) (by decide)
  | some m =>
    rw [hfind] at h
    cases h

theorem zero_not_mem_flags_of_ofExpr {s : Expr} {pattern flags : Text} {negated : Bool} {t : Text}
    (h : ofExpr (.regexMatch s pattern flags negated) = .ok t) : 0 ∉ flags := by
  rcases ofExprAt_cases [] (.regexMatch s pattern flags negated) with ⟨d, -, hfails⟩ | ⟨hnone, -⟩
  · rw [ofExpr, hfails] at h
    cases h
  · have hok : (Pattern.compile pattern flags).isOk := by
      by_contra hnot
      simp [defectKind?, hnot] at hnone
    exact zero_not_mem_flags hok

theorem StringArgument.upToZero_eq_self_iff {a : StringArgument} : a.upToZero = a ↔ 0 ∉ a.bytes := by
  obtain ⟨function, bytes⟩ := a
  rw [upToZero, StringArgument.mk.injEq, ← Source.upToZero_eq_self_iff]
  exact and_iff_right rfl

theorem map_upToZero_eq_self_iff {strings : List StringArgument} :
    strings.map .upToZero = strings ↔ ∀ a ∈ strings, 0 ∉ a.bytes := by
  calc strings.map .upToZero = strings
      ↔ strings.map .upToZero = strings.map id := by rw [List.map_id]
    _ ↔ ∀ a ∈ strings, a.upToZero = a := List.map_inj_left
    _ ↔ ∀ a ∈ strings, 0 ∉ a.bytes := forall₂_congr fun _ _ => StringArgument.upToZero_eq_self_iff

theorem receivedStrings_of_ofExpr {e : Expr} {t : Text} (h : ofExpr e = .ok t) :
    receivedStrings t = some ((passedStrings e).map .upToZero) := by
  rw [receivedStrings, (reads_of_ofExprAt h).stringArguments_eq, Option.map_some]

theorem receivedStrings_eq_iff {e : Expr} {t : Text} (h : ofExpr e = .ok t) :
    receivedStrings t = some (passedStrings e) ↔ ∀ a ∈ passedStrings e, 0 ∉ a.bytes := by
  rw [receivedStrings_of_ofExpr h, Option.some.injEq, map_upToZero_eq_self_iff]

/-- The text of an expression spells its strings as they are. A function receives a string whole exactly if
the string holds no zero byte; of a pattern it receives what stands before the first one, and flags hold
none. -/
theorem strings_arrive_iff (t : Text) (e : Expr) :
    (∃ text, ofExpr (.string t) = .ok text ∧
      (receivedStrings text = some [⟨ascii "string", t⟩] ↔ 0 ∉ t)) ∧
    (t ≠ [] → ∃ text, ofExpr (.field t) = .ok text ∧
      (receivedStrings text = some [⟨ascii "get", t⟩] ↔ 0 ∉ t)) ∧
    (∀ pattern flags negated text, ofExpr (.regexMatch e pattern flags negated) = .ok text →
      receivedStrings text = some ((passedStrings e).map .upToZero
        ++ [⟨ascii "make_regex", pattern.upToZero⟩, ⟨ascii "make_regex", flags⟩]) ∧
      (pattern.upToZero = pattern ↔ 0 ∉ pattern)) ∧
    ∀ text, ofExpr e = .ok text →
      stringArguments text = some (passedStrings e) ∧
      (receivedStrings text = some (passedStrings e) ↔ ∀ a ∈ passedStrings e, 0 ∉ a.bytes) := by
  refine ⟨?_, fun hname => ?_, fun pattern flags negated text h => ?_, fun text h => ?_⟩
  · have htext : ofExpr (.string t) = .ok (callText (ascii "TagValue::string") (quoted t)) := rfl
    refine ⟨_, htext, (receivedStrings_eq_iff htext).trans ?_⟩
    exact List.forall_mem_singleton
  · have htext : ofExpr (.field t) = .ok (callText (ascii "ctx.get") (quoted t)) := by
      rw [ofExpr, ofExprAt, if_neg (by simpa using hname)]
    refine ⟨_, htext, (receivedStrings_eq_iff htext).trans ?_⟩
    exact List.forall_mem_singleton
  · have hflags := upToZero_eq_self_iff.2 (zero_not_mem_flags_of_ofExpr h)
    refine ⟨?_, upToZero_eq_self_iff⟩
    rw [receivedStrings_of_ofExpr h, passedStrings, List.map_append]
    simp only [List.map_cons, List.map_nil, StringArgument.upToZero, hflags]
  · exact ⟨(reads_of_ofExprAt h).stringArguments_eq, receivedStrings_eq_iff h⟩

theorem eq_string_of_same {e : Expr} {t : Text} (h : e.same (.string t)) : e = .string t := by
  cases e with
  | literal l =>
    cases l with
    | string u => exact congrArg Expr.string (beq_iff_eq.1 h)
    | _ => cases h
  | _ => cases h

/-- `"a\x00b"` is a string of three bytes, of which one arrives. -/
theorem strings_arrive_zeroByte :
    let quote := TokenTree.leaf "PPI::Token::Quote::Double" (ascii "\"a\\x00b\"")
    let e := Rule.normalize Rule.standard (Expr.ofTokenTree (.document [.statement [quote]]))
    let text := ascii "TagValue::string(\"a\\000b\")"
    e = .string [97, 0, 98] ∧ ofExpr e = .ok text ∧
      stringArguments text = some [⟨ascii "string", [97, 0, 98]⟩] ∧
      receivedStrings text = some [⟨ascii "string", [97]⟩] := by
  intro quote e text
  have he : e = .string [97, 0, 98] := eq_string_of_same (by decide +kernel)
  have htext : callText (ascii "TagValue::string") (quoted [97, 0, 98]) = text := by decide
  rw [he]
  exact ⟨rfl, congrArg Except.ok htext, by decide, by decide⟩

end TagFormula.Source

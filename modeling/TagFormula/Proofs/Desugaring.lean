import TagFormula.Proofs.Phrase
import TagFormula.Proofs.Writer

/-!
Expressions that are written alike. A sign in front of an operand, the operator for repetitions, the
operators that are words, and matches that are negated are written as other operations. Main statement: two
expressions have the same text exactly if they are equal once these have been replaced.
-/

namespace TagFormula

namespace Expr

mutual
/-- An expression without the operations that are written as others. -/
def desugar : Expr → Expr
  | .binary op l r =>
    if op = ascii "x" then .repeated (desugar l) (desugar r)
    else if op = ascii "and" then .binary (ascii "&&") (desugar l) (desugar r)
    else if op = ascii "or" then .binary (ascii "||") (desugar l) (desugar r)
    else .binary op (desugar l) (desugar r)
  | .unary op x =>
    if op = ascii "+" then desugar x
    else if op = ascii "-" then .binary (ascii "-") (.integer 0) (desugar x)
    else .unary op (desugar x)
  | .conditional c y n => .conditional (desugar c) (desugar y) (desugar n)
  | .call name args => .call name (desugarAll args)
  | .repeated x n => .repeated (desugar x) (desugar n)
  | .regexMatch s p fl true => .unary (ascii "!") (.regexMatch (desugar s) p fl false)
  | .regexMatch s p fl false => .regexMatch (desugar s) p fl false
  | .group t children => .group t (desugarAll children)
  | e => e

def desugarAll : List Expr → List Expr
  | [] => []
  | e :: es => desugar e :: desugarAll es
end

mutual
/-- No literal is a floating-point number. -/
def isFloatFree : Expr → Bool
  | .literal (.float _) => false
  | .binary _ l r => isFloatFree l && isFloatFree r
  | .unary _ x => isFloatFree x
  | .conditional c y n => isFloatFree c && isFloatFree y && isFloatFree n
  | .call _ args => allFloatFree args
  | .repeated x n => isFloatFree x && isFloatFree n
  | .regexMatch s _ _ _ => isFloatFree s
  | .group _ children => allFloatFree children
  | _ => true

def allFloatFree : List Expr → Bool
  | [] => true
  | e :: es => isFloatFree e && allFloatFree es
end

theorem length_desugarAll (es : List Expr) : (desugarAll es).length = es.length := by
  induction es with
  | nil => rfl
  | cons e es ih => rw [desugarAll, List.length_cons, ih, List.length_cons]

theorem allFloatFree_iff {es : List Expr} : allFloatFree es ↔ ∀ e ∈ es, e.isFloatFree := by
  induction es with
  | nil => simp [allFloatFree]
  | cons e es ih => simp [allFloatFree, ih]

end Expr

namespace Source

open Expr

/-! ### Phrases of expressions -/

mutual
/-- The phrase of an expression without the operations that are written as others. -/
def phrase : Expr → Phrase
  | .literal l => .node (.literal l) []
  | .element i => .node (.element i) []
  | .field name => .node (.field name) []
  | .binary op l r => .node (.binary op) [phrase l, phrase r]
  | .unary op x => .node (.unary op) [phrase x]
  | .conditional c y n => .node .conditional [.node .truth [phrase c], phrase y, phrase n]
  | .call name args => .node (.call name (args.length - 1)) (phrases args)
  | .repeated x n => .node .repeated [phrase x, phrase n]
  | .regexMatch s p fl _ => .node (.regexMatch p fl) [phrase s]
  | .hole | .value | .group .. => .node .value []

def phrases : List Expr → List Phrase
  | [] => []
  | e :: es => phrase e :: phrases es
end

theorem length_phrases (es : List Expr) : (phrases es).length = es.length := by
  induction es with
  | nil => rfl
  | cons e es ih => rw [phrases, List.length_cons, ih, List.length_cons]

theorem isFloatFree_of_mem_parts {e : Expr} (h : e.isFloatFree) {p : Step × Expr} (hp : p ∈ parts e) :
    p.2.isFloatFree := by
  cases e with
  | call name args => exact allFloatFree_iff.1 h p.2 (mem_of_mem_argParts hp)
  | binary | unary | conditional | repeated | regexMatch =>
    simp only [isFloatFree, Bool.and_eq_true] at h
    simp only [parts, List.mem_cons, List.not_mem_nil, or_false] at hp
    rcases hp with rfl | rfl | rfl <;> simp [h]
  | _ => cases hp

/-- The expression that a frame stands for, with given parts. -/
def Frame.toExpr : Frame → List Expr → Expr
  | .literal l, _ => .literal l
  | .value, _ => .value
  | .element i, _ => .element i
  | .field name, _ => .field name
  | .binary op, [l, r] => .binary op l r
  | .unary op, [x] => .unary op x
  | .truth, [c] => c
  | .conditional, [c, y, n] => .conditional c y n
  | .call name _, args => .call name args
  | .repeated, [x, n] => .repeated x n
  | .regexMatch p fl, [s] => .regexMatch s p fl false
  | _, _ => .hole

mutual
/-- The expression that a phrase was written for. -/
def Phrase.toExpr : Phrase → Expr
  | .node frame parts => frame.toExpr (Phrase.toExprs parts)

def Phrase.toExprs : List Phrase → List Expr
  | [] => []
  | p :: ps => Phrase.toExpr p :: Phrase.toExprs ps
end

/-- A phrase is written as a text, and stands for an expression. -/
structure Says (p : Phrase) (e : Expr) (t : Text) : Prop where
  proper : p.Proper
  text : p.text = t
  toExpr : p.toExpr = e

/-- Phrases are written as texts, and stand for expressions, each for one. -/
structure SaysAll (ps : List Phrase) (es : List Expr) (ts : List Text) : Prop where
  proper : ∀ p ∈ ps, p.Proper
  texts : Phrase.texts ps = ts
  toExprs : Phrase.toExprs ps = es

theorem SaysAll.nil : SaysAll [] [] [] := ⟨nofun, rfl, rfl⟩

theorem SaysAll.cons {p : Phrase} {ps : List Phrase} {e : Expr} {es : List Expr} {t : Text}
    {ts : List Text} (h : Says p e t) (hs : SaysAll ps es ts) : SaysAll (p :: ps) (e :: es) (t :: ts) where
  proper := List.forall_mem_cons.2 ⟨h.proper, hs.proper⟩
  texts := by rw [Phrase.texts, h.text, hs.texts]
  toExprs := by rw [Phrase.toExprs, h.toExpr, hs.toExprs]

theorem SaysAll.head {p : Phrase} {ps : List Phrase} {e : Expr} {es : List Expr} {t : Text}
    {ts : List Text} (h : SaysAll (p :: ps) (e :: es) (t :: ts)) : Says p e t where
  proper := h.proper p (List.mem_cons_self ..)
  text := (List.cons.inj h.texts).1
  toExpr := (List.cons.inj h.toExprs).1

theorem SaysAll.tail {p : Phrase} {ps : List Phrase} {e : Expr} {es : List Expr} {t : Text}
    {ts : List Text} (h : SaysAll (p :: ps) (e :: es) (t :: ts)) : SaysAll ps es ts where
  proper q hq := h.proper q (List.mem_cons_of_mem _ hq)
  texts := (List.cons.inj h.texts).2
  toExprs := (List.cons.inj h.toExprs).2

theorem SaysAll.node {ps : List Phrase} {es : List Expr} {ts : List Text} (hs : SaysAll ps es ts)
    {frame : Frame} (hframe : frame.Listed) (hcount : frame.pieces.length = ps.length + 1) :
    Says (.node frame ps) (frame.toExpr es) (weave frame.pieces ts) where
  proper := .node hframe hcount hs.proper
  text := by rw [Phrase.text, hs.texts]
  toExpr := by rw [Phrase.toExpr, hs.toExprs]

/-- What a text says can be read off it. -/
theorem Says.eq_of_text_eq {p q : Phrase} {e d : Expr} {t : Text} (hp : Says p e t) (hq : Says q d t) :
    e = d := by
  obtain ⟨rfl, -⟩ := hp.proper.readable q hq.proper [] [] (by rw [hp.text, hq.text])
  rw [← hp.toExpr, hq.toExpr]

/-! ### Every text says what its expression is without the replaced operations -/

theorem Says.binary {p q : Phrase} {l r : Expr} {s t : Text} (hl : Says p l s) (hr : Says q r t)
    {op : Text} (hop : op ∈ Frame.operators) {form : Form} (hform : binaryForm? op = some form) :
    Says (.node (.binary op) [p, q]) (.binary op l r) (binaryText form s t) := by
  have hpieces : (Frame.binary op).pieces = form.pieces := by simp [Frame.pieces, hform]
  have hcount : form.pieces.length = 3 := by cases form <;> rfl
  rw [binaryText_eq_weave, ← hpieces]
  exact (SaysAll.cons hl (.cons hr .nil)).node hop (by rw [hpieces, hcount]; rfl)

/-- A sign is written as a difference. -/
theorem Says.negative {p : Phrase} {x : Expr} {t : Text} (hx : Says p x t) :
    Says (.node (.binary (ascii "-")) [phrase (.integer 0), p]) (.binary (ascii "-") (.integer 0) x)
      (ascii "(TagValue::integer(0) - " ++ t ++ ascii ")") := by
  have hzero : Says (phrase (.integer 0)) (.integer 0) (integerText 0) := SaysAll.nil.node trivial rfl
  have hstart : ascii "(TagValue::integer(0) - "
      = ascii "(" ++ integerText 0 ++ ascii " " ++ ascii "-" ++ ascii " " := by decide
  have htext : ascii "(TagValue::integer(0) - " ++ t ++ ascii ")"
      = binaryText (.sign "-") (integerText 0) t := by
    simp only [binaryText, hstart, List.append_assoc]
  rw [htext]
  exact hzero.binary hx (by decide) (by decide)

theorem Says.repeated {p q : Phrase} {x n : Expr} {s t : Text} (hx : Says p x s) (hn : Says q n t) :
    Says (.node .repeated [p, q]) (.repeated x n) (binaryText (.function "rt::repeat") s t) := by
  rw [binaryText_eq_weave]
  exact (SaysAll.cons hx (.cons hn .nil)).node trivial rfl

theorem Says.unary {p : Phrase} {x : Expr} {t : Text} (hx : Says p x t) {op : Text} {function : String}
    (h : op = ascii "!" ∧ function = "rt::logical_not" ∨ op = ascii "~" ∧ function = "rt::bit_not") :
    Says (.node (.unary op) [p]) (.unary op x) (callText (ascii function) t) := by
  have hpieces : (Frame.unary op).pieces = [ascii function ++ ascii "(", ascii ")"] := by
    rcases h with ⟨rfl, rfl⟩ | ⟨rfl, rfl⟩ <;> rfl
  have htext : callText (ascii function) t = weave (Frame.unary op).pieces [t] := by
    simp [hpieces, callText, weave]
  rw [htext]
  exact (SaysAll.cons hx .nil).node (h.imp And.left And.left) rfl

theorem Says.conditional {p q r : Phrase} {c y n : Expr} {test yes no : Text} (hc : Says p c test)
    (hy : Says q y yes) (hn : Says r n no) :
    Says (.node .conditional [.node .truth [p], q, r]) (.conditional c y n)
      (conditionalText test yes no) := by
  have htruth : Says (.node .truth [p]) c (weave Frame.truth.pieces [test]) :=
    (SaysAll.cons hc .nil).node trivial rfl
  have hopen : ascii "((" = ascii "(" ++ ascii "(" := by decide
  have hmark : ascii ").truthy() ? TagValue(" = ascii ").truthy()" ++ ascii " ? TagValue(" := by decide
  have htext : conditionalText test yes no
      = weave Frame.conditional.pieces [weave Frame.truth.pieces [test], yes, no] := by
    simp only [conditionalText, hopen, hmark, Frame.pieces, weave, List.append_assoc]
  rw [htext]
  exact (SaysAll.cons htruth (.cons hy (.cons hn .nil))).node trivial rfl

theorem Says.regexMatch {p : Phrase} {s : Expr} {t : Text} (hs : Says p s t) (pattern flags : Text) :
    Says (.node (.regexMatch pattern flags) [p]) (.regexMatch s pattern flags false)
      (matchText t pattern flags false) := by
  have htext : matchText t pattern flags false
      = weave (Frame.regexMatch pattern flags).pieces [t] := by
    simp [matchText, Frame.pieces, weave, patternText, callText, argsText, Text.joinWith]
  rw [htext]
  exact (SaysAll.cons hs .nil).node trivial rfl

theorem SaysAll.call {ps : List Phrase} {es : List Expr} {ts : List Text} (hs : SaysAll ps es ts)
    {name : Text} {form : CallForm} (hform : callForm? name = some form)
    (hcount : form.arity.allows ps.length) :
    Says (.node (.call name (ps.length - 1)) ps) (.call name es) (form.text ts) := by
  have hargs : ps.length ≠ 0 := by
    intro hnil
    have hsome : ∀ entry ∈ callForms, entry.2.arity.allows 0 = false := by decide
    obtain ⟨entry, hentry, rfl⟩ := Option.map_eq_some_iff.1 hform
    rw [hnil, hsome entry (List.mem_of_find?_eq_some hentry)] at hcount
    cases hcount
  obtain ⟨more, hmore⟩ := Nat.exists_eq_succ_of_ne_zero hargs
  have hpieces : (Frame.call name more).pieces = form.pieces more := by simp [Frame.pieces, hform]
  have htexts : ts.length = more + 1 := by rw [← hs.texts, Phrase.length_texts, hmore]
  rw [form.text_eq_weave htexts, hmore, Nat.succ_sub_one, ← hpieces]
  rw [hmore] at hcount
  refine hs.node ⟨form, hform, hcount⟩ ?_
  rw [hpieces, hmore, form.length_pieces]

/-- One case for each kind of node: what is written says the node, if the texts of its parts say these. -/
theorem says_of_writes {e : Expr} {ts : List Text} {t : Text} (h : Writes e ts t) (hfree : e.isFloatFree)
    (hparts : SaysAll (phrases (desugarAll ((parts e).map (·.2)))) (desugarAll ((parts e).map (·.2))) ts) :
    Says (phrase e.desugar) e.desugar t := by
  cases h with
  | float => cases hfree
  | integer | string | value | element | field => exact SaysAll.nil.node trivial rfl
  | @binary op form hform l r left right =>
    have hl : Says (phrase l.desugar) l.desugar left := hparts.head
    have hr : Says (phrase r.desugar) r.desugar right := hparts.tail.head
    rw [desugar]
    split_ifs with hx hand hor
    · obtain rfl : form = .function "rt::repeat" := by
        rw [hx] at hform
        exact Option.some.inj (hform.symm.trans (by decide))
      exact hl.repeated hr
    · have hsame : binaryForm? (ascii "&&") = binaryForm? (ascii "and") := by decide
      exact hl.binary hr (by decide) (by rw [hsame, ← hand, hform])
    · have hsame : binaryForm? (ascii "||") = binaryForm? (ascii "or") := by decide
      exact hl.binary hr (by decide) (by rw [hsame, ← hor, hform])
    · exact hl.binary hr (Frame.mem_operators hform hx hand hor) hform
  | @unary op write hwrite x operand =>
    have hx : Says (phrase x.desugar) x.desugar operand := hparts.head
    rw [unaryText?] at hwrite
    split_ifs at hwrite with hminus hplus hnot hcomplement
    · cases hwrite
      rw [beq_iff_eq.1 hminus, desugar, if_neg (by decide), if_pos rfl]
      exact hx.negative
    · cases hwrite
      rw [beq_iff_eq.1 hplus, desugar, if_pos rfl]
      exact hx
    · cases hwrite
      rw [beq_iff_eq.1 hnot, desugar, if_neg (by decide), if_neg (by decide)]
      exact hx.unary (Or.inl ⟨rfl, rfl⟩)
    · cases hwrite
      rw [beq_iff_eq.1 hcomplement, desugar, if_neg (by decide), if_neg (by decide)]
      exact hx.unary (Or.inr ⟨rfl, rfl⟩)
  | conditional c y n => exact hparts.head.conditional hparts.tail.head hparts.tail.tail.head
  | @call name form args hform hcount =>
    rw [parts, map_snd_argParts] at hparts
    rw [desugar, phrase, ← length_phrases]
    refine hparts.call hform ?_
    rwa [length_phrases, length_desugarAll]
  | repeated x n => exact hparts.head.repeated hparts.tail.head
  | regexMatch s pattern flags negated =>
    have hmatch := hparts.head.regexMatch pattern flags
    cases negated with
    | false => exact hmatch
    | true => exact hmatch.unary (Or.inl ⟨rfl, rfl⟩)

theorem saysAll_of_ofPartsAt {ps : List (Step × Expr)}
    (hps : ∀ p ∈ ps, ∀ {path t}, ofExprAt path p.2 = .ok t → Says (phrase p.2.desugar) p.2.desugar t)
    {path : Path} {ts : List Text} (h : ofPartsAt path ps = .ok ts) :
    SaysAll (phrases (desugarAll (ps.map (·.2)))) (desugarAll (ps.map (·.2))) ts := by
  induction ps generalizing ts with
  | nil =>
    cases h
    exact .nil
  | cons p ps ih =>
    rw [ofPartsAt] at h
    obtain ⟨first, hfirst, h⟩ := bind_eq_ok.1 h
    obtain ⟨rest, hrest, h⟩ := bind_eq_ok.1 h
    cases h
    exact .cons (hps p (List.mem_cons_self ..) hfirst)
      (ih (fun q hq => hps q (List.mem_cons_of_mem _ hq)) hrest)

theorem says_of_ofExprAt {e : Expr} (hfree : e.isFloatFree) {path : Path} {t : Text}
    (h : ofExprAt path e = .ok t) : Says (phrase e.desugar) e.desugar t := by
  induction e using partsInduct generalizing path t with
  | node e ih =>
    obtain ⟨ts, hts, hwrites⟩ := exists_writes_of_ofExprAt h
    refine says_of_writes hwrites hfree (saysAll_of_ofPartsAt ?_ hts)
    intro p hp _ _ hp'
    exact ih p hp (isFloatFree_of_mem_parts hfree hp) hp'

/-! ### Texts and expressions -/

/-- Expressions without floating-point literals have the same text exactly if they are equal without the
operations that are written as others. -/
theorem text_eq_iff_desugar_eq {a b : Expr} {s t : Text} (ha : a.isFloatFree) (hb : b.isFloatFree)
    (hs : ofExpr a = .ok s) (ht : ofExpr b = .ok t) : s = t ↔ a.desugar = b.desugar := by
  have hsa := says_of_ofExprAt ha hs
  have htb := says_of_ofExprAt hb ht
  constructor
  · rintro rfl
    exact hsa.eq_of_text_eq htb
  · intro h
    rw [← hsa.text, ← htb.text, h]

/-- Two ways to write a conjunction of a sign and a repetition. -/
theorem text_eq_iff_desugar_eq_conjunction :
    let a : Expr := .binary (ascii "and") (.unary (ascii "-") (.element 2))
      (.unary (ascii "+") (.binary (ascii "x") (.string (ascii "\"?")) .value))
    let b : Expr := .binary (ascii "&&") (.binary (ascii "-") (.integer 0) (.element 2))
      (.repeated (.string (ascii "\"?")) .value)
    let t := ascii "rt::logical_and((TagValue::integer(0) - rt::element(val, 2)), [&]() \x7b return "
      ++ ascii "rt::repeat(TagValue::string(\"\\\"\\?\"), val); \x7d)"
    a.isFloatFree ∧ b.isFloatFree ∧ ofExpr a = .ok t ∧ ofExpr b = .ok t ∧ a.desugar = b.desugar := by
  intro a b t
  have ha : ofExpr a = .ok t := by rfl
  have hb : ofExpr b = .ok t := by rfl
  exact ⟨rfl, rfl, ha, hb, (text_eq_iff_desugar_eq rfl rfl ha hb).1 rfl⟩

end Source

end TagFormula

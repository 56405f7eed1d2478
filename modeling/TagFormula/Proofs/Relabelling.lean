import TagFormula.Proofs.Normalization
import TagFormula.Proofs.RoundingOrder

/-!
Expressions with other tokens in place of theirs. Equality of expressions is that of their outlines, in which tokens
keep their kind, class and content only. What the rules read of a token is more: of a quote also the text it stands
for, and of a subscript also the bracket that opens it. Main statement: expressions that are equal, with tokens that
the rules read alike, differ in nothing that a rule can see.
-/

namespace TagFormula

/-- Lists that agree in two functions agree in a third that the two determine. -/
theorem map_eq_of_determined {α β γ δ : Type*} {f : α → β} {g : α → γ} {h : α → δ}
    (hdetermined : ∀ a b, f a = f b → g a = g b → h a = h b) {as bs : List α} (hf : as.map f = bs.map f)
    (hg : as.map g = bs.map g) : as.map h = bs.map h := by
  induction as generalizing bs with
  | nil =>
    cases bs with
    | nil => rfl
    | cons b bs => cases hf
  | cons a as ih =>
    cases bs with
    | nil => cases hf
    | cons b bs =>
      simp only [List.map_cons, List.cons.injEq] at hf hg ⊢
      exact ⟨hdetermined a b hf.1 hg.1, ih hf.2 hg.2⟩

/-! ### Tokens and literals -/

/-- The bracket of a subscript, if it is one that the rules know. -/
def Leaf.bracket (t : Token) : UInt8 :=
  if opener t == ch '[' || opener t == ch '\x7b' then opener t else 0

namespace Token

/-- What the rules read of a token beside its kind, class and content. -/
@[ext] structure Reading where
  text : Option Text
  bracket : Option UInt8
  deriving DecidableEq, Repr

def reading (t : Token) : Reading where
  text := if t.kind = .quote then t.quotedText? else none
  bracket := if t.kind = .subscript then some (Leaf.bracket t) else none

/-- The token with its reading in place of the fields that it comes from. -/
def erase (t : Token) : Token := { t with bounds := t.reading.bracket.toList, decoded := t.reading.text }

/-- The token without the fields that equality passes over. -/
def outline (t : Token) : Token := { t with bounds := [], decoded := none }

theorem outline_eq_outline_iff {t u : Token} :
    t.outline = u.outline ↔ t.kind = u.kind ∧ t.className = u.className ∧ t.content = u.content := by
  simp [outline]

@[simp] theorem kind_erase (t : Token) : t.erase.kind = t.kind := by rw [erase]

@[simp] theorem className_erase (t : Token) : t.erase.className = t.className := by rw [erase]

@[simp] theorem content_erase (t : Token) : t.erase.content = t.content := by rw [erase]

theorem erase_eq_erase_iff {t u : Token} : t.erase = u.erase ↔
    (t.kind = u.kind ∧ t.className = u.className ∧ t.content = u.content) ∧ t.reading = u.reading := by
  have htoList : ∀ a b : Option UInt8, a.toList = b.toList ↔ a = b := by
    intro a b
    cases a <;> cases b <;> simp
  rw [erase, erase, Token.mk.injEq, htoList]
  constructor
  · rintro ⟨hkind, hclass, hcontent, hbracket, htext⟩
    exact ⟨⟨hkind, hclass, hcontent⟩, Reading.ext htext hbracket⟩
  · rintro ⟨⟨hkind, hclass, hcontent⟩, hreading⟩
    exact ⟨hkind, hclass, hcontent, hreading ▸ rfl, hreading ▸ rfl⟩

theorem quotedText?_erase {t : Token} (h : t.kind = .quote) : t.erase.quotedText? = t.quotedText? := by
  have hdecoded : t.erase.decoded = t.quotedText? := if_pos h
  simp only [quotedText?, content_erase] at hdecoded ⊢
  split
  · rfl
  · rename_i hnone
    have hinterpolating : Quoted.isInterpolating t.erase = Quoted.isInterpolating t := rfl
    rw [hnone] at hdecoded
    simp only [Quoted.ofDecoded, hinterpolating] at hdecoded ⊢
    rw [hdecoded]
    cases hd : t.decoded with
    | none => rfl
    | some d =>
      simp only [Option.bind_eq_bind, Option.bind_some]
      split
      · rfl
      · rename_i hplain
        rw [Option.bind_some, if_neg hplain]

theorem opener_erase {t : Token} (h : t.kind = .subscript) : Leaf.opener t.erase = Leaf.bracket t := by
  simp [Leaf.opener, erase, reading, h]

theorem opener_erase_eq_iff {t : Token} (h : t.kind = .subscript) {b : UInt8} (hb : b = ch '[' ∨ b = ch '\x7b') :
    Leaf.opener t.erase = b ↔ Leaf.opener t = b := by
  rw [opener_erase h, Leaf.bracket]
  rcases hb with rfl | rfl <;> split <;> simp_all [ch]

theorem reading_erase (t : Token) : t.erase.reading = t.reading := by
  refine Reading.ext ?_ ?_
  · by_cases hk : t.kind = .quote
    · simp only [reading, kind_erase, hk, if_true, quotedText?_erase hk]
    · simp only [reading, kind_erase, hk, if_false]
  · by_cases hk : t.kind = .subscript
    · simp only [reading, kind_erase, hk, if_true, Option.some.injEq]
      rw [Leaf.bracket, opener_erase hk, Leaf.bracket]
      split <;> simp_all
    · simp only [reading, kind_erase, hk, if_false]

theorem erase_erase (t : Token) : t.erase.erase = t.erase :=
  erase_eq_erase_iff.2 ⟨⟨rfl, rfl, rfl⟩, reading_erase t⟩

end Token

namespace Double

/-- One word for both zeros, and one for all NaN. -/
def erase (d : Double) : Double := if d.isNaN then nan false else if d.isZero then zero else d

theorem erase_erase (d : Double) : d.erase.erase = d.erase := by
  unfold erase
  split
  · decide
  · split
    · decide
    · rfl

theorem isNaN_erase (d : Double) : d.erase.isNaN = d.isNaN := by
  unfold erase
  split
  · rename_i hnan
    rw [hnan]
    decide
  · split
    · simp_all [zero, isNaN, magnitude, infinityWord]
    · rfl

theorem key_eq_zero_iff {d : Double} : d.key = 0 ↔ d.isZero := by
  rw [key, isZero, beq_iff_eq]
  split <;> omega

theorem isZero_erase (d : Double) : d.erase.isZero = d.isZero := by
  unfold erase
  split
  · rename_i hnan
    simp only [isNaN, decide_eq_true_eq] at hnan
    simp [isZero, nan, Nat.ne_of_gt (Nat.lt_of_le_of_lt (Nat.zero_le _) hnan)]
    decide
  · split
    · rename_i hzero
      rw [hzero]
      decide
    · rfl

theorem key_erase {d : Double} (h : d.isNaN = false) : d.erase.key = d.key := by
  rw [erase, h, if_neg Bool.false_ne_true]
  split
  · rename_i hzero
    rw [key_eq_zero_iff.2 hzero]
    decide
  · rfl

theorem eq_erase (d e : Double) : d.erase.eq e = d.eq e := by
  cases hd : d.isNaN with
  | true => simp [eq, isNaN_erase, hd]
  | false => rw [eq, isNaN_erase, key_erase hd, eq]

/-- Words at one position on the number line are the two zeros or one word. -/
theorem erase_of_key_eq {d e : Double} (hd : d.isNaN = false) (he : e.isNaN = false) (h : d.key = e.key) :
    d.erase = e.erase := by
  have hzero : d.isZero = e.isZero := by rw [Bool.eq_iff_iff, ← key_eq_zero_iff, h, key_eq_zero_iff]
  simp only [erase, hd, he, hzero, Bool.false_eq_true, if_false]
  split
  · rfl
  · rename_i hne
    have hmagnitude : d.magnitude = e.magnitude := by
      unfold key at h
      split at h <;> split at h <;> omega
    refine eq_of_parts ?_ hmagnitude
    rw [← key_eq_zero_iff] at hne
    unfold key at h hne
    split at h <;> split at h <;> simp_all

theorem erase_eq_erase_iff {d e : Double} : d.erase = e.erase ↔ (d.eq e || (d.isNaN && e.isNaN)) := by
  simp only [eq, Bool.or_eq_true, Bool.and_eq_true, Bool.not_eq_true', beq_iff_eq]
  constructor
  · intro h
    have hnan : d.isNaN = e.isNaN := by rw [← isNaN_erase d, h, isNaN_erase]
    cases he : e.isNaN with
    | true => exact Or.inr ⟨hnan.trans he, rfl⟩
    | false => exact Or.inl ⟨⟨hnan.trans he, rfl⟩, by rw [← key_erase (hnan.trans he), h, key_erase he]⟩
  · rintro (⟨⟨hd, he⟩, hkey⟩ | ⟨hd, he⟩)
    · exact erase_of_key_eq hd he hkey
    · simp [erase, hd, he]

end Double

namespace Literal

def erase : Literal → Literal
  | .float d => .float d.erase
  | l => l

theorem erase_erase (l : Literal) : l.erase.erase = l.erase := by
  cases l with
  | float d => simp only [erase, Double.erase_erase]
  | _ => rfl

theorem erase_eq_erase_iff {a b : Literal} : a.erase = b.erase ↔ a.same b := by
  cases a <;> cases b <;> simp [erase, same, Double.erase_eq_erase_iff]

end Literal

/-! ### Expressions -/

namespace Expr

mutual
/-- The expression with a token in place of each of its tokens, and with one literal in place of all equal ones. -/
def relabel (f : Token → Token) : Expr → Expr
  | .literal l => .literal l.erase
  | .binary op l r => .binary op (relabel f l) (relabel f r)
  | .unary op x => .unary op (relabel f x)
  | .conditional c y n => .conditional (relabel f c) (relabel f y) (relabel f n)
  | .call name args => .call name (relabelAll f args)
  | .repeated x n => .repeated (relabel f x) (relabel f n)
  | .regexMatch s p fl neg => .regexMatch (relabel f s) p fl neg
  | .group t parts => .group (f t) (relabelAll f parts)
  | e => e

def relabelAll (f : Token → Token) : List Expr → List Expr
  | [] => []
  | e :: es => relabel f e :: relabelAll f es
end

mutual
/-- The tokens of the groups, from left to right. -/
def labels : Expr → List Token
  | .binary _ l r => labels l ++ labels r
  | .unary _ x => labels x
  | .conditional c y n => labels c ++ (labels y ++ labels n)
  | .call _ args => labelsAll args
  | .repeated x n => labels x ++ labels n
  | .regexMatch s _ _ _ => labels s
  | .group t parts => t :: labelsAll parts
  | _ => []

def labelsAll : List Expr → List Token
  | [] => []
  | e :: es => labels e ++ labelsAll es
end

section

variable (f : Token → Token)

@[simp] theorem relabelAll_eq_map (es : List Expr) : relabelAll f es = es.map (relabel f) := by
  induction es with
  | nil => rfl
  | cons e es ih => rw [relabelAll, ih, List.map_cons]

theorem relabel_relabel (g : Token → Token) (e : Expr) : (e.relabel f).relabel g = e.relabel (g ∘ f) := by
  have hall : ∀ es : List Expr, (∀ e ∈ es, (e.relabel f).relabel g = e.relabel (g ∘ f)) →
      (es.map (relabel f)).map (relabel g) = es.map (relabel (g ∘ f)) := by
    intro es h
    rw [List.map_map]
    exact List.map_congr_left h
  induction e using Expr.induct with
  | literal l => simp only [relabel, Literal.erase_erase]
  | call name args ih => simp only [relabel, relabelAll_eq_map, hall args ih]
  | group t parts ih => simp only [relabel, relabelAll_eq_map, hall parts ih, Function.comp_apply]
  | _ => simp_all only [relabel]

theorem labels_relabel (e : Expr) : (e.relabel f).labels = e.labels.map f := by
  have hall : ∀ es : List Expr, (∀ e ∈ es, (e.relabel f).labels = e.labels.map f) →
      labelsAll (es.map (relabel f)) = (labelsAll es).map f := by
    intro es h
    induction es with
    | nil => rfl
    | cons e es ih =>
      rw [List.map_cons, labelsAll, labelsAll, h e (List.mem_cons_self ..),
        ih fun e he => h e (List.mem_cons_of_mem _ he), List.map_append]
  induction e using Expr.induct with
  | call name args ih => simp only [relabel, relabelAll_eq_map, labels, hall args ih]
  | group t parts ih => simp only [relabel, relabelAll_eq_map, labels, hall parts ih, List.map_cons]
  | _ => simp_all only [relabel, labels, List.map_append, List.map_nil]

end

/-! ### Outlines -/

/-- The expression as equality sees it. -/
def outline (e : Expr) : Expr := e.relabel Token.outline

theorem sameAll_iff {as bs : List Expr} (h : ∀ a ∈ as, ∀ b, a.same b ↔ a.outline = b.outline) :
    sameAll as bs ↔ as.map outline = bs.map outline := by
  induction as generalizing bs with
  | nil => cases bs <;> simp [sameAll]
  | cons a as ih =>
    cases bs with
    | nil => simp [sameAll]
    | cons b bs =>
      rw [sameAll, Bool.and_eq_true, h a (List.mem_cons_self ..), ih fun a ha => h a (List.mem_cons_of_mem _ ha),
        List.map_cons, List.map_cons, List.cons.injEq]

theorem same_iff_outline_eq {a b : Expr} : a.same b ↔ a.outline = b.outline := by
  have hrelabel : ∀ e : Expr, e.outline = e.relabel Token.outline := fun _ => rfl
  induction a using Expr.induct generalizing b with
  | hole | value | element | field => cases b <;> simp [same, outline, relabel]
  | literal l =>
    cases b with
    | literal l' => simp only [same, outline, relabel, literal.injEq, Literal.erase_eq_erase_iff]
    | _ => simp only [same, outline, relabel, Bool.false_eq_true, reduceCtorEq]
  | binary op l r ihl ihr =>
    cases b with
    | binary op' l' r' =>
      simp only [same, Bool.and_eq_true, beq_iff_eq, ihl, ihr, hrelabel, relabel, binary.injEq, and_assoc]
    | _ => simp only [same, outline, relabel, Bool.false_eq_true, reduceCtorEq]
  | unary op x ih =>
    cases b with
    | unary op' x' => simp only [same, Bool.and_eq_true, beq_iff_eq, ih, hrelabel, relabel, unary.injEq]
    | _ => simp only [same, outline, relabel, Bool.false_eq_true, reduceCtorEq]
  | conditional c y n ihc ihy ihn =>
    cases b with
    | conditional c' y' n' =>
      simp only [same, Bool.and_eq_true, ihc, ihy, ihn, hrelabel, relabel, conditional.injEq, and_assoc]
    | _ => simp only [same, outline, relabel, Bool.false_eq_true, reduceCtorEq]
  | call name args ih =>
    cases b with
    | call name' args' =>
      simp only [same, Bool.and_eq_true, beq_iff_eq, sameAll_iff fun a ha b => ih a ha, hrelabel, relabel,
        relabelAll_eq_map, call.injEq]
      rfl
    | _ => simp only [same, outline, relabel, Bool.false_eq_true, reduceCtorEq]
  | repeated x n ihx ihn =>
    cases b with
    | repeated x' n' => simp only [same, Bool.and_eq_true, ihx, ihn, hrelabel, relabel, repeated.injEq]
    | _ => simp only [same, outline, relabel, Bool.false_eq_true, reduceCtorEq]
  | regexMatch s p fl neg ih =>
    cases b with
    | regexMatch s' p' fl' neg' =>
      simp only [same, Bool.and_eq_true, beq_iff_eq, ih, hrelabel, relabel, regexMatch.injEq]
      tauto
    | _ => simp only [same, outline, relabel, Bool.false_eq_true, reduceCtorEq]
  | group t parts ih =>
    cases b with
    | group u parts' =>
      simp only [same, Bool.and_eq_true, decide_eq_true_eq, beq_iff_eq, sameAll_iff fun a ha b => ih a ha, hrelabel,
        relabel, relabelAll_eq_map, group.injEq, Token.outline_eq_outline_iff, and_assoc]
      rfl
    | _ => simp only [same, outline, relabel, Bool.false_eq_true, reduceCtorEq]

theorem map_outline_labels {a b : Expr} (h : a.outline = b.outline) :
    a.labels.map Token.outline = b.labels.map Token.outline := by
  rw [← labels_relabel, ← labels_relabel]
  exact congrArg labels h

theorem length_labels_of_outline_eq {a b : Expr} (h : a.outline = b.outline) :
    a.labels.length = b.labels.length := by
  simpa using congrArg List.length (map_outline_labels h)

section

variable {f : Token → Token} {a b : Expr}

/-- The tokens of two equal parts are found at the same places. -/
theorem map_labels_append (h : a.outline = b.outline) {ts us : List Token}
    (hlabels : (a.labels ++ ts).map f = (b.labels ++ us).map f) :
    a.labels.map f = b.labels.map f ∧ ts.map f = us.map f := by
  rw [List.map_append, List.map_append] at hlabels
  exact List.append_inj hlabels (by rw [List.length_map, List.length_map, length_labels_of_outline_eq h])

theorem map_relabel_eq {as bs : List Expr}
    (ih : ∀ a ∈ as, ∀ {b : Expr}, a.outline = b.outline → a.labels.map f = b.labels.map f → a.relabel f = b.relabel f)
    (h : as.map outline = bs.map outline) (hlabels : (labelsAll as).map f = (labelsAll bs).map f) :
    as.map (relabel f) = bs.map (relabel f) := by
  induction as generalizing bs with
  | nil =>
    cases bs with
    | nil => rfl
    | cons b bs => cases h
  | cons a as ihs =>
    cases bs with
    | nil => cases h
    | cons b bs =>
      rw [List.map_cons, List.map_cons, List.cons.injEq] at h
      obtain ⟨hfirst, hrest⟩ := map_labels_append h.1 hlabels
      rw [List.map_cons, List.map_cons, ih a (List.mem_cons_self ..) h.1 hfirst,
        ihs (fun a ha => ih a (List.mem_cons_of_mem _ ha)) h.2 hrest]

/-- An expression is its outline and its tokens. -/
theorem relabel_eq_of_outline_eq (h : a.outline = b.outline) (hlabels : a.labels.map f = b.labels.map f) :
    a.relabel f = b.relabel f := by
  induction a using Expr.induct generalizing b with
  | hole | literal | value | element | field =>
    cases b <;> simp only [outline, relabel, reduceCtorEq] at h ⊢ <;> exact h
  | binary op l r ihl ihr =>
    cases b with
    | binary op' l' r' =>
      simp only [outline, relabel, binary.injEq] at h
      obtain ⟨hleft, hright⟩ := map_labels_append h.2.1 hlabels
      rw [relabel, relabel, h.1, ihl h.2.1 hleft, ihr h.2.2 hright]
    | _ => simp only [outline, relabel, reduceCtorEq] at h
  | unary op x ih =>
    cases b with
    | unary op' x' =>
      simp only [outline, relabel, unary.injEq] at h
      rw [relabel, relabel, h.1, ih h.2 hlabels]
    | _ => simp only [outline, relabel, reduceCtorEq] at h
  | conditional c y n ihc ihy ihn =>
    cases b with
    | conditional c' y' n' =>
      simp only [outline, relabel, conditional.injEq] at h
      obtain ⟨htest, hbranches⟩ := map_labels_append h.1 hlabels
      obtain ⟨hyes, hno⟩ := map_labels_append h.2.1 hbranches
      rw [relabel, relabel, ihc h.1 htest, ihy h.2.1 hyes, ihn h.2.2 hno]
    | _ => simp only [outline, relabel, reduceCtorEq] at h
  | call name args ih =>
    cases b with
    | call name' args' =>
      simp only [outline, relabel, relabelAll_eq_map, call.injEq] at h
      rw [relabel, relabel, relabelAll_eq_map, relabelAll_eq_map, h.1, map_relabel_eq ih h.2 hlabels]
    | _ => simp only [outline, relabel, reduceCtorEq] at h
  | repeated x n ihx ihn =>
    cases b with
    | repeated x' n' =>
      simp only [outline, relabel, repeated.injEq] at h
      obtain ⟨hunit, hcount⟩ := map_labels_append h.1 hlabels
      rw [relabel, relabel, ihx h.1 hunit, ihn h.2 hcount]
    | _ => simp only [outline, relabel, reduceCtorEq] at h
  | regexMatch s p fl neg ih =>
    cases b with
    | regexMatch s' p' fl' neg' =>
      simp only [outline, relabel, regexMatch.injEq] at h
      obtain ⟨hs, rfl, rfl, rfl⟩ := h
      rw [relabel, relabel, ih hs hlabels]
    | _ => simp only [outline, relabel, reduceCtorEq] at h
  | group t parts ih =>
    cases b with
    | group u parts' =>
      simp only [outline, relabel, relabelAll_eq_map, group.injEq] at h
      rw [labels, labels, List.map_cons, List.map_cons, List.cons.injEq] at hlabels
      rw [relabel, relabel, relabelAll_eq_map, relabelAll_eq_map, hlabels.1, map_relabel_eq ih h.2 hlabels.2]
    | _ => simp only [outline, relabel, reduceCtorEq] at h

end

/-! ### Erasure -/

/-- The expression without what the rules do not read. -/
def erase (e : Expr) : Expr := e.relabel Token.erase

@[simp] theorem erase_hole : hole.erase = .hole := rfl

@[simp] theorem erase_value : value.erase = .value := rfl

@[simp] theorem erase_element (i : Int64) : (element i).erase = .element i := rfl

@[simp] theorem erase_field (name : Text) : (field name).erase = .field name := rfl

@[simp] theorem erase_literal (l : Literal) : (literal l).erase = .literal l.erase := rfl

@[simp] theorem erase_binary (op : Text) (l r : Expr) : (binary op l r).erase = .binary op l.erase r.erase := rfl

@[simp] theorem erase_unary (op : Text) (x : Expr) : (unary op x).erase = .unary op x.erase := rfl

@[simp] theorem erase_conditional (c y n : Expr) :
    (conditional c y n).erase = .conditional c.erase y.erase n.erase := rfl

@[simp] theorem erase_call (name : Text) (args : List Expr) : (call name args).erase = .call name (args.map erase) :=
  congrArg (call name) (relabelAll_eq_map _ args)

@[simp] theorem erase_repeated (x n : Expr) : (repeated x n).erase = .repeated x.erase n.erase := rfl

@[simp] theorem erase_regexMatch (s : Expr) (p fl : Text) (neg : Bool) :
    (regexMatch s p fl neg).erase = .regexMatch s.erase p fl neg := rfl

@[simp] theorem erase_group (t : Token) (parts : List Expr) :
    (group t parts).erase = .group t.erase (parts.map erase) :=
  congrArg (group t.erase) (relabelAll_eq_map _ parts)

@[simp] theorem erase_erase (e : Expr) : e.erase.erase = e.erase := by
  have hcomp : Token.erase ∘ Token.erase = Token.erase := funext Token.erase_erase
  rw [erase, erase, relabel_relabel, hcomp]

theorem outline_erase (e : Expr) : e.erase.outline = e.outline := by
  rw [outline, erase, relabel_relabel]
  rfl

theorem same_erase (a b : Expr) : a.erase.same b.erase = a.same b := by
  rw [Bool.eq_iff_iff, same_iff_outline_eq, outline_erase, outline_erase, same_iff_outline_eq]

theorem same_of_erase_eq {a b : Expr} (h : a.erase = b.erase) : a.same b := by
  rw [same_iff_outline_eq, ← outline_erase a, h, outline_erase]

/-- Expressions that are equal, with tokens that are read alike at all places, differ in nothing that a rule sees. -/
theorem erase_eq_of_same {a b : Expr} (h : a.same b)
    (hreading : a.labels.map Token.reading = b.labels.map Token.reading) : a.erase = b.erase := by
  have houtline := same_iff_outline_eq.1 h
  refine relabel_eq_of_outline_eq houtline
    (map_eq_of_determined (fun t u ho hr => ?_) (map_outline_labels houtline) hreading)
  exact Token.erase_eq_erase_iff.2 ⟨Token.outline_eq_outline_iff.1 ho, hr⟩

end Expr
end TagFormula

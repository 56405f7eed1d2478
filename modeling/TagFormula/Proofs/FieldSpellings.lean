import TagFormula.Proofs.BareCalls

/-!
The spellings of a field: `$$self{F}` as one symbol, and `$ $self {F}`, `$$self {F}` and `$self -> {F}` as
several tokens. The symbol is read on its own, the others only when the group that holds them is searched
from left to right. Main statement: whatever stands around it, a spelling may be replaced by another.
-/

namespace TagFormula

open Expr Rule

/-! ### Items that a reference in front of them does not reach -/

namespace Leaf

/-- Items that neither give a reference in front of them its index or name nor go on with it. -/
def StandsApart : List Expr → Prop
  | [] => True
  | x :: rest => index? x = none ∧ fieldOfSubscript? x = none ∧ x.isSymbol "->" = false ∧
      (isToken .symbol "$self" x → rest.head?.bind fieldOfSubscript? = none)

theorem reference?_of_standsApart {items : List Expr} (h : StandsApart items) (item : Expr) :
    reference? item items = none := by
  cases items with
  | nil => rfl
  | cons x rest =>
    obtain ⟨hindex, hfield, harrow, hself⟩ := h
    simp only [reference?, hindex, hfield, harrow, Bool.and_false, Bool.or_false, Option.map_none]
    split
    · rfl
    · split
      · rename_i hcast
        rw [Bool.and_eq_true] at hcast
        rw [hself hcast.2, Option.map_none]
      · simp

theorem reference?_append {items : List Expr} (h : StandsApart items) (item : Expr) (front : List Expr) :
    reference? item (front ++ items) = reference? item front := by
  rcases front with - | ⟨next, - | ⟨x, after⟩⟩
  · exact reference?_of_standsApart h item
  · have hname : items.head?.bind fieldOfSubscript? = none := by
      cases items with
      | nil => rfl
      | cons x rest => exact h.2.1
    simp only [reference?, List.cons_append, List.nil_append, hname, List.head?_nil, Option.bind_none]
  · exact reference?_cons_cons_congr _ _

/-- A reference covers items that are there. -/
theorem le_length_of_reference? {item e : Expr} {rest : List Expr} {n : Nat}
    (h : reference? item rest = some (e, n)) : n ≤ rest.length := by
  rcases rest with - | ⟨next, after⟩
  · cases h
  · simp only [reference?] at h
    split at h
    · obtain ⟨i, -, hi⟩ := Option.map_eq_some_iff.1 h
      cases hi
      simp
    · split at h
      · obtain ⟨name, hname, hn⟩ := Option.map_eq_some_iff.1 h
        cases hn
        cases after with
        | nil => cases hname
        | cons => simp
      · split at h
        · obtain ⟨name, -, hn⟩ := Option.map_eq_some_iff.1 h
          cases hn
          simp
        · cases h

theorem references_append {items : List Expr} (h : StandsApart items) (front : List Expr) :
    replaceAll reference? (front ++ items) = replaceAll reference? front ++ replaceAll reference? items :=
  replaceAll_append (reference?_append h) le_length_of_reference? front

end Leaf

/-! ### Names -/

/-- Letters, digits and underscores. -/
structure IsName (name : Text) : Prop where
  ne_nil : name ≠ []
  isWord : ∀ b ∈ name, Byte.isWord b

theorem Byte.ne_of_isWord {b c : UInt8} (hb : isWord b) (hc : isWord c = false) : b ≠ c := by
  rintro rfl
  rw [hb] at hc
  cases hc

namespace Quoted

theorem decodeSingle_of_isWord {t : Text} (h : ∀ b ∈ t, Byte.isWord b) : decodeSingle t = t := by
  fun_induction decodeSingle t with
  | case1 => rfl
  | case2 => rfl
  | case3 b e rest hescape =>
    rw [Bool.and_eq_true, beq_iff_eq] at hescape
    exact absurd hescape.1 (Byte.ne_of_isWord (h b (by simp)) (by decide))
  | case4 b e rest _ ih => rw [ih fun c hc => h c (List.mem_cons_of_mem _ hc)]

theorem decodeDouble?_of_isWord {t : Text} (h : ∀ b ∈ t, Byte.isWord b) : decodeDouble? t = some t := by
  induction t with
  | nil => rw [decodeDouble?]
  | cons b t ih =>
    rw [List.forall_mem_cons] at h
    have hne : ∀ c, Byte.isWord c = false → (b == c) = false := fun c hc => by
      simpa using Byte.ne_of_isWord h.1 hc
    have hplain : interpolates b t = false := by
      simp only [interpolates, hne (ch '$') (by decide), hne (ch '@') (by decide), Bool.or_self, Bool.false_and]
    have hslash : (b != ch '\\') = true := by simp only [bne, hne (ch '\\') (by decide), Bool.not_false]
    rw [decodeDouble?.eq_def]
    simp only [hplain, hslash, Bool.false_eq_true, if_false, if_true, ih h.2, Option.map_some]

end Quoted

namespace IsName

theorem head?_ne {name : Text} (h : IsName name) {c : UInt8} (hc : Byte.isWord c = false) :
    name.head? ≠ some c := by
  intro hhead
  exact Byte.ne_of_isWord (h.isWord c (List.mem_of_mem_head? hhead)) hc rfl

theorem printable_field {name : Text} (h : IsName name) : (Expr.field name).Printable :=
  ⟨h.ne_nil, fun hquoted => hquoted.2.2.elim (h.head?_ne (by decide)) (h.head?_ne (by decide))⟩

end IsName

/-! ### Spellings -/

/-- A token of a kind with a content and no parts. -/
inductive LoneToken (kind : TokenKind) (content : Text) : Expr → Prop
  | mk {t : Token} (hkind : t.kind = kind) (h : t.content = content) : LoneToken kind content (.group t [])

/-- A token that gives a name: a word, or the name in quotes. -/
inductive NameToken (name : Text) (x : Expr) : Prop
  | word (h : LoneToken .word name x)
  | single (h : LoneToken .quote (ch '\'' :: name ++ [ch '\'']) x)
  | double (h : LoneToken .quote (ch '"' :: name ++ [ch '"']) x)

/-- A name in braces. -/
inductive BracedName (name : Text) : Expr → Prop
  | bare {t : Token} {x : Expr} (hkind : t.kind = .subscript) (hbounds : t.bounds = ascii "\x7b\x7d")
    (h : NameToken name x) : BracedName name (.group t [x])
  | expression {t u : Token} {x : Expr} (hkind : t.kind = .subscript) (hbounds : t.bounds = ascii "\x7b\x7d")
    (hinner : u.kind = .expression) (h : NameToken name x) : BracedName name (.group t [.group u [x]])

/-- The tokens that a field may be written with. -/
inductive FieldSpelling (name : Text) : List Expr → Prop
  | symbol {x : Expr} (hx : LoneToken .symbol (ascii "$$self\x7b" ++ name ++ ascii "\x7d") x) :
    FieldSpelling name [x]
  | cast {x y z : Expr} (hx : LoneToken .cast (ascii "$") x) (hy : LoneToken .symbol (ascii "$self") y)
    (hz : BracedName name z) : FieldSpelling name [x, y, z]
  | double {x z : Expr} (hx : LoneToken .symbol (ascii "$$self") x) (hz : BracedName name z) :
    FieldSpelling name [x, z]
  | arrow {x y z : Expr} (hx : LoneToken .symbol (ascii "$self") x) (hy : LoneToken .operator (ascii "->") y)
    (hz : BracedName name z) : FieldSpelling name [x, y, z]

namespace Rule

theorem normalForm_leaf {t : Token} {x : Expr} (h : leaf.reduce? (.group t []) = some x) (hx : x.Printable) :
    normalForm (.group t []) = x := by
  rw [← normalizeWithin_of_weight_le (Nat.le_succ _)]
  exact normalizeWithin_leaf h hx _

/-- A subscript around a single item that is no call. -/
theorem normalForm_subscript {t : Token} (ht : t.kind = .subscript) {e : Expr}
    (hstep : Call.step? (normalForm e) [] = none) : normalForm (.group t [e]) = .group t [normalForm e] := by
  rw [← normalForm_mapChildren, mapChildren_group, List.map_singleton]
  refine normalForm_of_settled (.node (declined_structure (Or.inr ht) hstep) ?_)
  exact settled_map_normalForm [e]

end Rule

section

variable {name : Text} (hname : IsName name)
include hname

/-- The normal form of a name is a word or a string. -/
theorem NameToken.normalForm_cases {x : Expr} (h : NameToken name x) :
    (∃ t, t.kind = .word ∧ t.content = name ∧ normalForm x = .group t []) ∨ normalForm x = .string name := by
  cases h with
  | word h =>
    obtain ⟨hkind, h⟩ := h
    exact Or.inl ⟨_, hkind, h, normalForm_of_settled (settled_token (Or.inr hkind))⟩
  | single h =>
    obtain ⟨hkind, h⟩ := h
    refine Or.inr (normalForm_leaf ?_ trivial)
    rw [leaf_single_quoted hkind h, Quoted.decodeSingle_of_isWord hname.isWord]
  | double h =>
    obtain ⟨hkind, h⟩ := h
    have henclosed : Quoted.enclosed? (ch '"' :: name ++ [ch '"']) = some (ch '"', name) := by
      simp [Quoted.enclosed?]
    refine Or.inr (normalForm_leaf ?_ trivial)
    rw [leaf_quote hkind, Token.quotedText?, h, henclosed]
    exact congrArg _ (Quoted.decodeDouble?_of_isWord hname.isWord)

theorem NameToken.normalForm_spec {x : Expr} (h : NameToken name x) :
    (normalForm x).isHole = false ∧ Call.step? (normalForm x) [] = none ∧
      ∀ t : Token, t.kind = .subscript → t.bounds = ascii "\x7b\x7d" →
        Leaf.fieldOfSubscript? (.group t [normalForm x]) = some name := by
  have hopener : ∀ t : Token, t.bounds = ascii "\x7b\x7d" → (Leaf.opener t != ch '[') = true := by
    intro t hbounds
    rw [Leaf.opener, hbounds]
    rfl
  have hne := hname.ne_nil
  rcases h.normalForm_cases hname with ⟨word, hword, rfl, hx⟩ | hx
  · rw [hx]
    refine ⟨rfl, Call.step?_eq_none_iff.2 ⟨fun _ _ => rfl, rfl⟩, fun t hkind hbounds => ?_⟩
    simp [Leaf.fieldOfSubscript?, hkind, hopener t hbounds, hword, hne]
  · rw [hx]
    refine ⟨rfl, rfl, fun t hkind hbounds => ?_⟩
    simp [Leaf.fieldOfSubscript?, Expr.string, hkind, hopener t hbounds, hne]

/-- The name that a reference reads in braces. -/
theorem BracedName.fieldOfSubscript? {z : Expr} (h : BracedName name z) :
    Leaf.fieldOfSubscript? (normalForm z) = some name := by
  cases h with
  | bare hkind hbounds h =>
    obtain ⟨-, hstep, hfield⟩ := h.normalForm_spec hname
    rw [normalForm_subscript hkind hstep]
    exact hfield _ hkind hbounds
  | expression hkind hbounds hinner h =>
    obtain ⟨hhole, hstep, hfield⟩ := h.normalForm_spec hname
    have hlone := normalForm_lone (by rw [hinner]; rfl) hhole hstep
    rw [normalForm_subscript hkind (by rwa [hlone]), hlone]
    exact hfield _ hkind hbounds

/-- A field as one symbol is read on its own. -/
theorem LoneToken.normalForm_field {x : Expr}
    (h : LoneToken .symbol (ascii "$$self\x7b" ++ name ++ ascii "\x7d") x) : normalForm x = .field name := by
  have hprintable := hname.printable_field
  cases h with
  | mk hkind h =>
    refine normalForm_leaf ?_ hprintable
    rw [leaf_symbol hkind, h, if_neg (by simp [ascii, ch])]
    exact congrArg _ (Leaf.fieldOfSymbol?_append hname.ne_nil (Quoted.enclosed?_eq_none hprintable.2))

end

namespace LoneToken

variable {content : Text} {x : Expr}

theorem settled_symbol (h : LoneToken .symbol content x) (hvalue : content ≠ ascii "$val")
    (hfield : Leaf.fieldOfSymbol? content = none) : Settled standard x := by
  cases h with
  | mk hkind h =>
    refine settled_of_leaf_eq_none ?_
    rw [leaf_symbol hkind, h, if_neg (by rwa [beq_iff_eq]), hfield]
    rfl

theorem settled_cast (h : LoneToken .cast content x) : Settled standard x := by
  cases h with
  | mk hkind h => exact settled_of_leaf_eq_none (by simp [leaf, Leaf.reduce?, hkind, replaceItems?])

theorem settled_operator (h : LoneToken .operator content x) : Settled standard x := by
  cases h with
  | mk hkind h => exact settled_token (Or.inl hkind)

theorem standsApart {kind : TokenKind} (h : LoneToken kind content x) (hkind : kind ≠ .operator)
    {rest : List Expr} (hrest : kind = .symbol → content = ascii "$self" →
      rest.head?.bind Leaf.fieldOfSubscript? = none) : Leaf.StandsApart (x :: rest) := by
  cases h with
  | mk hk h =>
    refine ⟨rfl, rfl, by simp [isSymbol, token?, hk, hkind], fun hself => ?_⟩
    simp only [Leaf.isToken, token?, Option.any_some, Bool.and_eq_true, decide_eq_true_eq, beq_iff_eq] at hself
    exact hrest (hk ▸ hself.1) (h ▸ hself.2)

end LoneToken

/-- A spelling is read as the field whatever follows it, and no reference in front of it reaches it. -/
theorem FieldSpelling.reads {name : Text} (hname : IsName name) {s : List Expr} (h : FieldSpelling name s)
    (after : List Expr) : Leaf.StandsApart (s.map normalForm ++ after) ∧
      replaceAll Leaf.reference? (s.map normalForm ++ after)
        = .field name :: replaceAll Leaf.reference? after := by
  have hself : ∀ {x}, LoneToken .symbol (ascii "$self") x → normalForm x = x :=
    fun hx => normalForm_of_settled (hx.settled_symbol (by decide) (by decide))
  cases h with
  | symbol hx =>
    rw [List.map_singleton, hx.normalForm_field hname]
    have hinert : (Expr.field name).Inert := rfl
    exact ⟨⟨rfl, rfl, rfl, fun h => by cases h⟩, replaceAll_of_none (Leaf.reference?_of_inert hinert _)⟩
  | cast hx hy hz =>
    have hfield := hz.fieldOfSubscript? hname
    simp only [List.map_cons, List.map_nil, normalForm_of_settled hx.settled_cast, hself hy, List.cons_append,
      List.nil_append]
    refine ⟨hx.standsApart (by decide) fun h => absurd h (by decide), replaceAll_of_some (n := 2) ?_⟩
    obtain ⟨hcast, hdollar⟩ := hx
    obtain ⟨hsymbol, hcontent⟩ := hy
    simp [Leaf.reference?, Leaf.isValue, Leaf.isToken, token?, hcast, hdollar, hsymbol, hcontent, hfield]
  | double hx hz =>
    have hfield := hz.fieldOfSubscript? hname
    simp only [List.map_cons, List.map_nil,
      normalForm_of_settled (hx.settled_symbol (by decide) (by decide)), List.cons_append, List.nil_append]
    refine ⟨hx.standsApart (by decide) fun _ h => absurd h (by decide), replaceAll_of_some (n := 1) ?_⟩
    obtain ⟨hsymbol, hcontent⟩ := hx
    have hne : ascii "$$self" ≠ ascii "$self" := by decide
    simp [Leaf.reference?, Leaf.isValue, Leaf.isToken, token?, hsymbol, hcontent, hne, hfield]
  | arrow hx hy hz =>
    have hfield := hz.fieldOfSubscript? hname
    simp only [List.map_cons, List.map_nil, normalForm_of_settled hy.settled_operator, hself hx,
      List.cons_append, List.nil_append]
    -- a cast in front of `$self` finds the arrow where a name in braces would have to be
    refine ⟨hx.standsApart (by decide) fun _ _ => by cases hy; rfl, replaceAll_of_some (n := 2) ?_⟩
    obtain ⟨hsymbol, hcontent⟩ := hx
    obtain ⟨hoperator, harrow⟩ := hy
    simp [Leaf.reference?, Leaf.isValue, Leaf.isToken, isSymbol, token?, hsymbol, hcontent, hoperator, harrow,
      hfield]

/-- A spelling stands for the field whatever is around it. -/
theorem FieldSpelling.referenced {name : Text} (hname : IsName name) {s : List Expr} (h : FieldSpelling name s)
    (before after : List Expr) : referenced (before ++ s ++ after)
      = referenced before ++ .field name :: referenced after := by
  obtain ⟨hapart, hreads⟩ := h.reads hname (after.map normalForm)
  rw [Rule.referenced, List.append_assoc, List.map_append, List.map_append, Leaf.references_append hapart,
    hreads]
  rfl

/-! ### Replacing one spelling by another -/

/-- A group whose items hold one spelling where those of the other group hold another. -/
inductive Respells (name : Text) : Expr → Expr → Prop
  | mk {t : Token} (ht : t.kind.isContainer) (before : List Expr) {s s' : List Expr} (after : List Expr)
    (hs : FieldSpelling name s) (hs' : FieldSpelling name s') :
    Respells name (.group t (before ++ s ++ after)) (.group t (before ++ s' ++ after))

theorem Respells.normalForm_eq {name : Text} (hname : IsName name) {e e' : Expr} (h : Respells name e e') :
    normalForm e = normalForm e' := by
  cases h with
  | mk ht before after hs hs' =>
    rw [normalForm_referenced ht, normalForm_referenced ht, hs.referenced hname, hs'.referenced hname]

/-- One part, at any depth, is replaced by one that a relation allows in its place. -/
inductive Expr.Somewhere (R : Expr → Expr → Prop) : Expr → Expr → Prop
  | here {e e' : Expr} (h : R e e') : Somewhere R e e'
  | left {op : Text} {l l' r : Expr} (h : Somewhere R l l') : Somewhere R (.binary op l r) (.binary op l' r)
  | right {op : Text} {l r r' : Expr} (h : Somewhere R r r') : Somewhere R (.binary op l r) (.binary op l r')
  | operand {op : Text} {x x' : Expr} (h : Somewhere R x x') : Somewhere R (.unary op x) (.unary op x')
  | test {c c' y n : Expr} (h : Somewhere R c c') : Somewhere R (.conditional c y n) (.conditional c' y n)
  | yes {c y y' n : Expr} (h : Somewhere R y y') : Somewhere R (.conditional c y n) (.conditional c y' n)
  | no {c y n n' : Expr} (h : Somewhere R n n') : Somewhere R (.conditional c y n) (.conditional c y n')
  | argument {name : Text} (front : List Expr) {a a' : Expr} (back : List Expr) (h : Somewhere R a a') :
    Somewhere R (.call name (front ++ a :: back)) (.call name (front ++ a' :: back))
  | unit {x x' n : Expr} (h : Somewhere R x x') : Somewhere R (.repeated x n) (.repeated x' n)
  | count {x n n' : Expr} (h : Somewhere R n n') : Somewhere R (.repeated x n) (.repeated x n')
  | subject {s s' : Expr} {p fl : Text} {neg : Bool} (h : Somewhere R s s') :
    Somewhere R (.regexMatch s p fl neg) (.regexMatch s' p fl neg)
  | part {t : Token} (front : List Expr) {c c' : Expr} (back : List Expr) (h : Somewhere R c c') :
    Somewhere R (.group t (front ++ c :: back)) (.group t (front ++ c' :: back))

theorem Expr.mapChildren_regexMatch (s : Expr) (p fl : Text) (neg : Bool) :
    (regexMatch s p fl neg).mapChildren normalForm = .regexMatch (normalForm s) p fl neg := by
  cases s <;> rfl

/-- Parts with one normal form may stand for each other. -/
theorem Expr.Somewhere.normalForm_eq {R : Expr → Expr → Prop}
    (hR : ∀ {e e'}, R e e' → normalForm e = normalForm e') {e e' : Expr} (h : Somewhere R e e') :
    normalForm e = normalForm e' := by
  induction h with
  | here h => exact hR h
  | subject h ih => exact normalForm_congr (by rw [mapChildren_regexMatch, mapChildren_regexMatch, ih])
  | argument front back h ih | part front back h ih =>
    exact normalForm_congr (by simp only [mapChildren, List.map_append, List.map_cons, ih])
  | _ => exact normalForm_congr (by simp only [mapChildren, *])

/-! ### Within the limit -/

theorem LoneToken.weight_eq {kind : TokenKind} {content : Text} {x : Expr} (h : LoneToken kind content x) :
    x.weight = 2 := by
  cases h
  rfl

theorem BracedName.weight_le {name : Text} {z : Expr} (h : BracedName name z) : z.weight ≤ 4 := by
  have htoken : ∀ {x}, NameToken name x → x.weight = 2 := by
    rintro x (h | h | h) <;> exact h.weight_eq
  cases h with
  | bare _ _ h => simp [weight, weightAll, htoken h]
  | expression _ _ _ h => simp [weight, weightAll, htoken h]

theorem FieldSpelling.weight_le {name : Text} {s : List Expr} (h : FieldSpelling name s) (t : Token) :
    (group t s).weight ≤ 9 := by
  cases h with
  | symbol hx => simp [weight, weightAll, hx.weight_eq]
  | cast hx hy hz | arrow hx hy hz =>
    have := hz.weight_le
    simp only [weight, weightAll, hx.weight_eq, hy.weight_eq]
    omega
  | double hx hz =>
    have := hz.weight_le
    simp only [weight, weightAll, hx.weight_eq]
    omega

namespace Rule

/-- A spelling alone is the field, and among any items it may be replaced by another. -/
theorem normalize_respelled {name : Text} (hname : IsName name) :
    (∀ {t : Token} {s : List Expr}, t.kind.isWrapper → FieldSpelling name s →
      normalize standard (.group t s) = .field name) ∧
    ∀ {e e' : Expr}, Somewhere (Respells name) e e' →
      ¬MeetsLimit standard (fun _ => True) (maxDepth + 1) e →
      ¬MeetsLimit standard (fun _ => True) (maxDepth + 1) e' →
      normalize standard e = normalize standard e' := by
  constructor
  · intro t s ht hs
    have hweight : (group t s).weight ≤ maxDepth + 1 := Nat.le_trans (hs.weight_le t) (by decide)
    have hreferenced : referenced s = [.field name] := by
      have h := hs.referenced hname [] []
      rwa [List.append_nil] at h
    have hcalls : replaceAll Call.step? [.field name] = [.field name] := replaceAll_of_none rfl
    rw [normalize, normalizeWithin_of_weight_le hweight,
      normalForm_referenced (TokenKind.isContainer_of_isWrapper ht), hreferenced, hcalls, operated_single,
      finished_single ht rfl]
    rfl
  · intro e e' h hlimit hlimit'
    rw [normalize, normalize, normalizeWithin_of_not_meetsLimit hlimit,
      normalizeWithin_of_not_meetsLimit hlimit']
    exact h.normalForm_eq fun h => h.normalForm_eq hname

/-- A token without parts as an item. -/
def plainItem (kind : TokenKind) (content : String) : Expr := .group (plainToken kind content) []

/-- Items in braces. -/
def inBraces (items : List Expr) : Expr := .group ⟨.subscript, [], [], ascii "\x7b\x7d", none⟩ items

/-- `$self -> {"Make"}`, with the name in an expression. -/
def makeByArrow : List Expr :=
  [plainItem .symbol "$self", plainItem .operator "->",
    inBraces [.group (plainToken .expression "") [plainItem .quote "\"Make\""]]]

/-- `$ $self {Make}`. -/
def makeByCast : List Expr :=
  [plainItem .cast "$", plainItem .symbol "$self", inBraces [plainItem .word "Make"]]

theorem fieldSpelling_makeByArrow : FieldSpelling (ascii "Make") makeByArrow :=
  .arrow ⟨rfl, rfl⟩ ⟨rfl, rfl⟩ (.expression rfl rfl rfl (.double ⟨rfl, rfl⟩))

theorem fieldSpelling_makeByCast : FieldSpelling (ascii "Make") makeByCast :=
  .cast ⟨rfl, rfl⟩ ⟨rfl, rfl⟩ (.bare rfl rfl (.word ⟨rfl, rfl⟩))

/-- `($ make {Model} . $val)` with a spelling of the field for `make`: the cast in front of it and the braces
behind it could be taken for parts of it. -/
def besideCast (make : List Expr) : Expr :=
  .group (plainToken .document "") [.group (plainToken .statement "") [.group (plainToken .list "")
    ([plainItem .cast "$"] ++ make ++
      [inBraces [plainItem .word "Model"], plainItem .operator ".", plainItem .symbol "$val"])]]

theorem normalize_respelled_besideCast :
    IsName (ascii "Make") ∧
      Somewhere (Respells (ascii "Make")) (besideCast makeByArrow) (besideCast makeByCast) ∧
      ¬MeetsLimit standard (fun _ => True) (maxDepth + 1) (besideCast makeByArrow) ∧
      ¬MeetsLimit standard (fun _ => True) (maxDepth + 1) (besideCast makeByCast) ∧
      normalize standard (.group (plainToken .statement "") makeByArrow) = .field (ascii "Make") ∧
      normalize standard (besideCast makeByArrow) = normalize standard (besideCast makeByCast) := by
  have hname : IsName (ascii "Make") := ⟨by decide, List.all_eq_true.1 (by decide)⟩
  have hsomewhere : Somewhere (Respells (ascii "Make")) (besideCast makeByArrow) (besideCast makeByCast) :=
    .part [] [] (.part [] [] (.here (.mk rfl _ _ fieldSpelling_makeByArrow fieldSpelling_makeByCast)))
  have harrow : ¬MeetsLimit standard (fun _ => True) (maxDepth + 1) (besideCast makeByArrow) :=
    not_meetsLimit_standard (by decide)
  have hcast : ¬MeetsLimit standard (fun _ => True) (maxDepth + 1) (besideCast makeByCast) :=
    not_meetsLimit_standard (by decide)
  obtain ⟨halone, hamong⟩ := normalize_respelled hname
  exact ⟨hname, hsomewhere, harrow, hcast, halone rfl fieldSpelling_makeByArrow,
    hamong hsomewhere harrow hcast⟩

end Rule
end TagFormula

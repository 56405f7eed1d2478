import TagFormula.Proofs.PrefixCode

/-!
Unique reading of what is written for expressions. Each operation writes pieces of text around its parts,
and any two operations are told apart at the first piece that differs, after parts that have been read by
then. Main statement: a phrase can be read off the start of a text, whatever stands behind it.
-/

namespace TagFormula.Source

/-! ### Pieces of text around parts -/

/-- Pieces of text with parts between them. -/
def weave : List Text → List Text → Text
  | [], _ => []
  | piece :: _, [] => piece
  | piece :: pieces, part :: parts => piece ++ (part ++ weave pieces parts)

/-- The first pieces that differ are apart. -/
def Diverge : List Text → List Text → Prop
  | p :: ps, q :: qs => Apart p q ∨ p = q ∧ Diverge ps qs
  | _, _ => False

instance decidableDiverge : ∀ ps qs : List Text, Decidable (Diverge ps qs)
  | [], _ => inferInstanceAs (Decidable False)
  | _ :: _, [] => inferInstanceAs (Decidable False)
  | p :: ps, q :: qs =>
    have := decidableDiverge ps qs
    inferInstanceAs (Decidable (Apart p q ∨ p = q ∧ Diverge ps qs))

theorem not_diverge_self (ps : List Text) : ¬Diverge ps ps := by
  induction ps with
  | nil => exact id
  | cons p ps ih =>
    rintro (h | ⟨-, h⟩)
    · exact h [] [] rfl
    · exact ih h

/-- Sequences of different length, with the same separator and the same end. -/
theorem diverge_replicate {sep close : Text} (h : Apart sep close) {n m : Nat} (hne : n ≠ m) :
    Diverge (List.replicate n sep ++ [close]) (List.replicate m sep ++ [close]) := by
  induction n generalizing m with
  | zero =>
    cases m with
    | zero => exact absurd rfl hne
    | succ m => exact Or.inl h.symm
  | succ n ih =>
    cases m with
    | zero => exact Or.inl h
    | succ m => exact Or.inr ⟨rfl, ih fun hnm => hne (congrArg Nat.succ hnm)⟩

/-- Arguments with separators between them. -/
theorem weave_replicate (opening sep close : Text) {args : List Text} {n : Nat}
    (h : args.length = n + 1) : weave (opening :: (List.replicate n sep ++ [close])) args
      = opening ++ Text.joinWith sep args ++ close := by
  induction args generalizing opening n with
  | nil => cases h
  | cons a args ih =>
    cases args with
    | nil =>
      obtain rfl : n = 0 := by simpa using h.symm
      simp [weave, Text.joinWith]
    | cons b args =>
      obtain ⟨n, rfl⟩ : ∃ k, n = k + 1 := ⟨args.length, by simpa using h.symm⟩
      have hrest := ih sep (by simpa using h)
      rw [List.replicate_succ, List.cons_append, weave, hrest]
      simp [Text.joinWith]

/-! ### The pieces of each operation -/

def Form.pieces : Form → List Text
  | .sign s => [ascii "(", ascii " " ++ ascii s ++ ascii " ", ascii ")"]
  | .function name => [ascii name ++ ascii "(", ascii ", ", ascii ")"]
  | .delayed name =>
    [ascii name ++ ascii "(", ascii ", " ++ ascii "[&]() \x7b return ", ascii "; \x7d" ++ ascii ")"]

/-- A call with a number of arguments behind the first. -/
def CallForm.pieces (form : CallForm) (more : Nat) : List Text :=
  match form.arity with
  | .exactly _ =>
    (ascii form.function ++ ascii "(") :: (List.replicate more (ascii ", ") ++ [ascii ")"])
  | .atLeast _ =>
    (ascii form.function ++ ascii "(" ++ ascii "\x7b")
      :: (List.replicate more (ascii ", ") ++ [ascii "\x7d" ++ ascii ")"])

theorem CallForm.length_pieces (form : CallForm) (more : Nat) : (form.pieces more).length = more + 2 := by
  obtain ⟨function, arity⟩ := form
  cases arity <;> simp [CallForm.pieces]

theorem binaryText_eq_weave (form : Form) (left right : Text) :
    binaryText form left right = weave form.pieces [left, right] := by
  cases form <;> simp [binaryText, Form.pieces, weave, callText, argsText, Text.joinWith]

theorem CallForm.text_eq_weave (form : CallForm) {args : List Text} {more : Nat}
    (h : args.length = more + 1) : form.text args = weave (form.pieces more) args := by
  obtain ⟨function, arity⟩ := form
  cases arity with
  | exactly k => simp only [CallForm.text, CallForm.pieces, callText, argsText, weave_replicate _ _ _ h]
  | atLeast k =>
    simp only [CallForm.text, CallForm.pieces, callText, argsText, weave_replicate _ _ _ h,
      List.append_assoc]

/-- The compiled pattern of a match, behind its subject. -/
def patternText (pattern flags : Text) : Text :=
  ascii ", " ++ (ascii "[]() -> const std::regex& \x7b static const std::regex re = "
    ++ callText (ascii "rt::make_regex") (argsText [quoted pattern, quoted flags])
    ++ ascii "; return re; \x7d()") ++ ascii ")"

/-- What is written around the parts of an expression. -/
inductive Frame where
  | literal (l : Literal)
  | value
  | element (index : Int64)
  | field (name : Text)
  | binary (op : Text)
  | unary (op : Text)
  /-- The test of a conditional. -/
  | truth
  | conditional
  /-- A call with a number of arguments behind the first. -/
  | call (name : Text) (more : Nat)
  | repeated
  | regexMatch (pattern flags : Text)
  deriving DecidableEq

namespace Frame

def pieces : Frame → List Text
  | .literal (.integer i) => [integerText i]
  | .literal (.float d) => [realText d]
  | .literal (.string t) => [callText (ascii "TagValue::string") (quoted t)]
  | .value => [ascii "val"]
  | .element i => [callText (ascii "rt::element") (argsText [ascii "val", Text.ofInt i.toInt])]
  | .field name => [callText (ascii "ctx.get") (quoted name)]
  | .binary op => ((binaryForm? op).map Form.pieces).getD []
  | .unary op =>
    [(if op == ascii "!" then ascii "rt::logical_not" else ascii "rt::bit_not") ++ ascii "(", ascii ")"]
  | .truth => [ascii "(", ascii ").truthy()"]
  | .conditional => [ascii "(", ascii " ? TagValue(", ascii ") : TagValue(", ascii "))"]
  | .call name more => ((callForm? name).map (·.pieces more)).getD []
  | .repeated => Form.pieces (.function "rt::repeat")
  | .regexMatch pattern flags => [ascii "rt::regex_match" ++ ascii "(", patternText pattern flags]

/-- Operators without those that are written like others. -/
def operators : List Text :=
  (binaryForms.filter fun entry => entry.1 != "x" && entry.1 != "and" && entry.1 != "or").map (ascii ·.1)

/-- Frames that are written. -/
def Listed : Frame → Prop
  | .literal (.float _) => False
  | .binary op => op ∈ operators
  | .unary op => op = ascii "!" ∨ op = ascii "~"
  | .call name more => ∃ form, callForm? name = some form ∧ form.arity.allows (more + 1)
  | _ => True

/-! ### Frames are told apart -/

/-- Frames that start with a parenthesis. -/
def enclosing : List Frame :=
  [.truth, .conditional, .binary (ascii "+"), .binary (ascii "-"), .binary (ascii "*"),
    .binary (ascii "/"), .binary (ascii "%")]

/-- A frame without what is written behind its start. -/
def erased : Frame → Frame
  | .literal (.integer _) => .literal (.integer 0)
  | .literal (.string _) => .literal (.string [])
  | .element _ => .element 0
  | .field _ => .field []
  | .call name _ => .call name 0
  | .regexMatch _ _ => .regexMatch [] []
  | f => f

/-- One frame for all that start alike. -/
def plain (f : Frame) : Frame := if f ∈ enclosing then .truth else f.erased

/-- The start of a frame's text, which tells it from the frames that start in another way. -/
def start : Frame → Text
  | .literal (.integer _) => ascii "TagValue::integer" ++ ascii "("
  | .literal (.string _) => ascii "TagValue::string" ++ ascii "("
  | .element _ => ascii "rt::element" ++ ascii "("
  | .field _ => ascii "ctx.get" ++ ascii "("
  | f => f.pieces.headD []

def plainFrames : List Frame :=
  [.value, .literal (.integer 0), .literal (.string []), .element 0, .field [], .truth,
    .unary (ascii "!"), .unary (ascii "~"), .repeated, .regexMatch [] []]
    ++ ((operators.map .binary).filter (· ∉ enclosing))
    ++ callForms.map fun entry => .call (ascii entry.1) 0

theorem apart_start : plainFrames.Pairwise fun f g => Apart f.start g.start := by decide +kernel

theorem mem_operators {op : Text} {form : Form} (h : binaryForm? op = some form) (hx : op ≠ ascii "x")
    (hand : op ≠ ascii "and") (hor : op ≠ ascii "or") : op ∈ operators := by
  obtain ⟨entry, hentry, -⟩ := Option.map_eq_some_iff.1 h
  obtain rfl : ascii entry.1 = op := by simpa using List.find?_some hentry
  have hne : ∀ s, ascii entry.1 ≠ ascii s → (entry.1 != s) = true :=
    fun s hs => bne_iff_ne.2 fun heq => hs (by rw [heq])
  refine List.mem_map_of_mem (List.mem_filter.2 ⟨List.mem_of_find?_eq_some hentry, ?_⟩)
  rw [hne _ hx, hne _ hand, hne _ hor]
  rfl

theorem isSome_binaryForm? {op : Text} (h : op ∈ operators) : ∃ form, binaryForm? op = some form := by
  obtain ⟨entry, hentry, rfl⟩ := List.mem_map.1 h
  have hsome : (binaryForms.find? (ascii ·.1 == ascii entry.1)).isSome :=
    List.find?_isSome.2 ⟨entry, (List.mem_filter.1 hentry).1, beq_self_eq_true _⟩
  obtain ⟨found, hfound⟩ := Option.isSome_iff_exists.1 hsome
  exact ⟨found.2, by rw [binaryForm?, hfound]; rfl⟩

theorem plain_mem {f : Frame} (h : f.Listed) : f.plain ∈ plainFrames := by
  unfold plain
  split
  · simp [plainFrames]
  · rename_i hnot
    cases f with
    | literal l =>
      cases l with
      | float => cases h
      | _ => simp [erased, plainFrames]
    | binary op =>
      have hop : Frame.binary op ∈ (operators.map .binary).filter (· ∉ enclosing) :=
        List.mem_filter.2 ⟨List.mem_map_of_mem h, by simpa using hnot⟩
      exact List.mem_append_left _ (List.mem_append_right _ hop)
    | unary op => rcases h with rfl | rfl <;> simp [erased, plainFrames]
    | call name more =>
      obtain ⟨form, hform, -⟩ := h
      obtain ⟨entry, hentry, -⟩ := Option.map_eq_some_iff.1 hform
      have hname : ascii entry.1 = name := by simpa using List.find?_some hentry
      refine List.mem_append_right _ (List.mem_map.2 ⟨entry, List.mem_of_find?_eq_some hentry, ?_⟩)
      rw [hname, erased]
    | conditional => exact absurd (by simp [enclosing]) hnot
    | _ => simp [erased, plainFrames]

theorem exists_pieces_eq {f : Frame} (h : f.Listed) : ∃ x rest, f.pieces = (f.plain.start ++ x) :: rest := by
  by_cases henclosing : f ∈ enclosing
  · have hhead : ∀ f ∈ enclosing, f.pieces.head? = some (ascii "(") := by decide
    obtain ⟨rest, hrest⟩ := List.head?_eq_some_iff.1 (hhead f henclosing)
    refine ⟨[], rest, ?_⟩
    rw [hrest, plain, if_pos henclosing]
    rfl
  · rw [plain, if_neg henclosing]
    cases f with
    | literal l =>
      cases l with
      | float => cases h
      | integer i => exact ⟨_, [], by rw [pieces, integerText_eq]; rfl⟩
      | string t => exact ⟨_, [], congrArg (List.cons · []) (List.append_assoc ..)⟩
    | element i => exact ⟨_, [], congrArg (List.cons · []) (List.append_assoc ..)⟩
    | field name => exact ⟨_, [], congrArg (List.cons · []) (List.append_assoc ..)⟩
    | binary op =>
      obtain ⟨form, hform⟩ := isSome_binaryForm? h
      cases form <;> exact ⟨[], _, by simp [erased, start, pieces, hform, Form.pieces]; rfl⟩
    | call name more =>
      obtain ⟨⟨function, arity⟩, hform, -⟩ := h
      cases arity <;>
        exact ⟨[], _, by simp [erased, start, pieces, hform, CallForm.pieces]; rfl⟩
    | _ => exact ⟨[], _, by simp [erased, start, pieces]; rfl⟩

theorem prefixCode_element : PrefixCode fun i : Int64 =>
    callText (ascii "rt::element") (argsText [ascii "val", Text.ofInt i.toInt]) := by
  have hclose : ascii ")" = [ch ')'] := rfl
  have := prefixCode_ofInt.append_left (ascii "rt::element" ++ ascii "(" ++ ascii "val" ++ ascii ", ")
  simpa [callText, argsText, Text.joinWith, hclose] using this

theorem prefixCode_patternText : PrefixCode fun p : Text × Text => patternText p.1 p.2 := by
  have := (((prefixCode_quoted.append_right (ascii ", ")).pair prefixCode_quoted).append_left
    (ascii ", " ++ ascii "[]() -> const std::regex& \x7b static const std::regex re = "
      ++ ascii "rt::make_regex" ++ ascii "(")).append_right
    (ascii ")" ++ ascii "; return re; \x7d()" ++ ascii ")")
  simpa only [patternText, callText, argsText, Text.joinWith, List.intersperse_cons_cons,
    List.intersperse_singleton, List.flatten_cons, List.flatten_nil, List.append_nil,
    List.append_assoc] using this

theorem diverge_pieces_call {form : CallForm} {n m : Nat} (hn : form.arity.allows (n + 1))
    (hm : form.arity.allows (m + 1)) (hne : n ≠ m) : Diverge (form.pieces n) (form.pieces m) := by
  obtain ⟨function, arity⟩ := form
  cases arity with
  | exactly k =>
    simp only [Arity.allows, beq_iff_eq] at hn hm
    omega
  | atLeast k => exact Or.inr ⟨rfl, diverge_replicate (by decide) hne⟩

/-- Frames that differ in what is written behind their start only. -/
theorem diverge_of_erased {f g : Frame} (hf : f.Listed) (hg : g.Listed) (h : f.erased = g.erased)
    (hne : f ≠ g) : Diverge f.pieces g.pieces := by
  cases f with
  | literal l =>
    cases g with
    | literal m =>
      cases l with
      | float => cases hf
      | integer i =>
        cases m with
        | integer j => exact Or.inl (prefixCode_integerText.apart fun hij => hne (by rw [hij]))
        | _ => cases h
      | string t =>
        cases m with
        | string u =>
          have hcode : PrefixCode fun t => callText (ascii "TagValue::string") (quoted t) :=
            (prefixCode_quoted.append_left _).append_right _
          exact Or.inl (hcode.apart fun htu => hne (by rw [htu]))
        | _ => cases h
    | _ => cases l <;> cases h
  | element i =>
    cases g with
    | element j => exact Or.inl (prefixCode_element.apart fun hij => hne (by rw [hij]))
    | literal l => cases l <;> cases h
    | _ => cases h
  | field name =>
    cases g with
    | field name' =>
      have hcode : PrefixCode fun t => callText (ascii "ctx.get") (quoted t) :=
        (prefixCode_quoted.append_left _).append_right _
      exact Or.inl (hcode.apart fun hname => hne (by rw [hname]))
    | literal l => cases l <;> cases h
    | _ => cases h
  | call name n =>
    cases g with
    | call name' m =>
      cases h
      obtain ⟨form, hform, hn⟩ := hf
      obtain ⟨form', hform', hm⟩ := hg
      obtain rfl : form = form' := Option.some.inj (hform.symm.trans hform')
      have := diverge_pieces_call hn hm fun hnm => hne (by rw [hnm])
      simpa [pieces, hform] using this
    | literal l => cases l <;> cases h
    | _ => cases h
  | regexMatch p fl =>
    cases g with
    | regexMatch p' fl' =>
      refine Or.inr ⟨rfl, Or.inl (prefixCode_patternText.apart (a := (p, fl)) (b := (p', fl')) ?_)⟩
      intro hpair
      cases hpair
      exact hne rfl
    | literal l => cases l <;> cases h
    | _ => cases h
  | _ =>
    cases g with
    | literal l => cases l <;> cases h
    | _ => first | exact absurd h hne | cases h

theorem mem_enclosing_of_plain {f g : Frame} (hf : f ∈ enclosing) (h : f.plain = g.plain) :
    g ∈ enclosing := by
  by_contra hg
  rw [plain, if_pos hf, plain, if_neg hg] at h
  have htruth : g = .truth := by
    cases g with
    | literal l => cases l <;> cases h
    | truth => rfl
    | _ => cases h
  exact hg (by simp [htruth, enclosing])

/-- Any two frames are told apart by the first pieces that differ. -/
theorem eq_or_diverge {f g : Frame} (hf : f.Listed) (hg : g.Listed) :
    f = g ∨ Diverge f.pieces g.pieces := by
  by_cases hplain : f.plain = g.plain
  · by_cases henclosing : f ∈ enclosing
    · have hall : ∀ f ∈ enclosing, ∀ g ∈ enclosing, f = g ∨ Diverge f.pieces g.pieces := by decide
      exact hall f henclosing g (mem_enclosing_of_plain henclosing hplain)
    · have hg' : g ∉ enclosing := fun hmem => henclosing (mem_enclosing_of_plain hmem hplain.symm)
      rw [plain, if_neg henclosing, plain, if_neg hg'] at hplain
      by_cases hne : f = g
      · exact Or.inl hne
      · exact Or.inr (diverge_of_erased hf hg hplain hne)
  · have hapart := apart_of_pairwise apart_start (plain_mem hf) (plain_mem hg) hplain
    obtain ⟨x, rest, hpieces⟩ := exists_pieces_eq hf
    obtain ⟨y, rest', hpieces'⟩ := exists_pieces_eq hg
    rw [hpieces, hpieces']
    exact Or.inr (Or.inl (hapart.append x y))

end Frame

/-! ### Phrases -/

/-- A frame with phrases as its parts. -/
inductive Phrase where
  | node (frame : Frame) (parts : List Phrase)

namespace Phrase

mutual
def text : Phrase → Text
  | .node frame parts => weave frame.pieces (texts parts)

def texts : List Phrase → List Text
  | [] => []
  | p :: ps => text p :: texts ps
end

theorem length_texts (ps : List Phrase) : (texts ps).length = ps.length := by
  induction ps with
  | nil => rfl
  | cons p ps ih => rw [texts, List.length_cons, ih, List.length_cons]

/-- Every frame is listed and has as many parts as it has places for them. -/
inductive Proper : Phrase → Prop
  | node {frame : Frame} {parts : List Phrase} (hframe : frame.Listed)
      (hcount : frame.pieces.length = parts.length + 1) (hparts : ∀ p ∈ parts, Proper p) :
      Proper (.node frame parts)

/-- A phrase can be read off the start of a text. -/
def Readable (p : Phrase) : Prop :=
  ∀ q : Phrase, q.Proper → ∀ u v, p.text ++ u = q.text ++ v → p = q ∧ u = v

/-- Pieces with readable parts between them: what differs first is a piece, and it tells. -/
theorem eq_of_weave_eq {pieces pieces' : List Text} {parts parts' : List Phrase} {u v : Text}
    (hpieces : pieces = pieces' ∨ Diverge pieces pieces') (hcount : pieces.length = parts.length + 1)
    (hcount' : pieces'.length = parts'.length + 1) (hread : ∀ p ∈ parts, p.Readable)
    (hproper : ∀ p ∈ parts', p.Proper)
    (h : weave pieces (texts parts) ++ u = weave pieces' (texts parts') ++ v) :
    pieces = pieces' ∧ parts = parts' ∧ u = v := by
  induction pieces generalizing pieces' parts parts' with
  | nil => cases hcount
  | cons p ps ih =>
    cases pieces' with
    | nil => cases hcount'
    | cons q qs =>
      rw [List.length_cons, Nat.add_right_cancel_iff] at hcount hcount'
      have hstart : ∀ p ps (parts : List Phrase), ∃ rest, weave (p :: ps) (texts parts) = p ++ rest := by
        intro p ps parts
        cases parts with
        | nil => exact ⟨[], (List.append_nil _).symm⟩
        | cons => exact ⟨_, rfl⟩
      obtain ⟨rfl, hrest⟩ : p = q ∧ (ps = qs ∨ Diverge ps qs) := by
        rcases hpieces with heq | hapart | ⟨heq, hdiverge⟩
        · exact ⟨(List.cons.inj heq).1, Or.inl (List.cons.inj heq).2⟩
        · obtain ⟨x, hx⟩ := hstart p ps parts
          obtain ⟨y, hy⟩ := hstart q qs parts'
          rw [hx, hy] at h
          exact absurd h (hapart.append x y u v)
        · exact ⟨heq, Or.inr hdiverge⟩
      cases parts with
      | nil =>
        obtain rfl := List.length_eq_zero_iff.1 hcount
        rcases hrest with rfl | hdiverge
        · obtain rfl := List.length_eq_zero_iff.1 hcount'.symm
          exact ⟨rfl, rfl, List.append_cancel_left h⟩
        · exact hdiverge.elim
      | cons a as =>
        cases parts' with
        | nil =>
          obtain rfl := List.length_eq_zero_iff.1 hcount'
          cases ps with
          | nil => cases hcount
          | cons =>
            rcases hrest with heq | hdiverge
            · cases heq
            · exact hdiverge.elim
        | cons b bs =>
          simp only [texts, weave, List.append_assoc, List.append_cancel_left_eq] at h
          obtain ⟨rfl, hbehind⟩ := hread a (List.mem_cons_self ..) b (hproper b (List.mem_cons_self ..)) _ _ h
          obtain ⟨rfl, rfl, huv⟩ := ih hrest hcount hcount'
            (fun p hp => hread p (List.mem_cons_of_mem _ hp))
            (fun p hp => hproper p (List.mem_cons_of_mem _ hp)) hbehind
          exact ⟨rfl, rfl, huv⟩

/-- Every phrase can be read off the start of a text. -/
theorem Proper.readable {p : Phrase} (hp : p.Proper) : p.Readable := by
  induction hp with
  | @node frame parts hframe hcount _ ih =>
    rintro ⟨frame', parts'⟩ ⟨hframe', hcount', hproper⟩ u v h
    rw [text, text] at h
    rcases Frame.eq_or_diverge hframe hframe' with rfl | hdiverge
    · obtain ⟨-, rfl, huv⟩ := eq_of_weave_eq (Or.inl rfl) hcount hcount' ih hproper h
      exact ⟨rfl, huv⟩
    · obtain ⟨heq, -, -⟩ := eq_of_weave_eq (Or.inr hdiverge) hcount hcount' ih hproper h
      rw [heq] at hdiverge
      exact absurd hdiverge (not_diverge_self _)

end Phrase

end TagFormula.Source

import TagFormula.Proofs.Normalization
import TagFormula.Source.Expression

/-!
How the source of an expression is put together. Main statement: a node with a defect of its own fails
there; otherwise its parts are written, in their order, and the node is written around their texts.
-/

namespace TagFormula.Source

/-! ### Defects -/

/-- The kind of the defect that a node has, whatever its parts are like otherwise. -/
def defectKind? : Expr → Option DefectKind
  | .hole => some .missingContent
  | .group .. => some .unsupportedStructure
  | .literal (.float d) => if d.isFinite then none else some .unsupportedStructure
  | .field name => if name = [] then some .missingContent else none
  | .binary op _ _ =>
    if op = [] then some .missingContent
    else if op ∈ binaryForms.map (ascii ·.1) then none
    else some .unsupportedOperator
  | .unary op _ =>
    if op = [] then some .missingContent
    else if op ∈ [ascii "-", ascii "+", ascii "!", ascii "~"] then none
    else some .unsupportedOperator
  | .conditional _ (.binary op _ d) no =>
    if op = ascii "/" ∧ no.isLiteralZero ∧ ¬isNonzeroLiteral d then some .unsupportedStructure else none
  | .call name args =>
    if name = [] then some .missingContent
    else
      match callForm? name with
      | none => some .unsupportedStructure
      | some form => if form.arity.allows args.length then none else some .wrongArity
  | .regexMatch s pattern flags _ =>
    if s.isHole ∨ ¬(Pattern.compile pattern flags).isOk then some .unsupportedStructure else none
  | .literal (.integer _) | .literal (.string _) | .value | .element _ | .conditional .. | .repeated .. =>
    none

/-! ### Parts -/

/-- Arguments with the steps to them, the first of which has the given number. -/
def argParts (i : Nat) : List Expr → List (Step × Expr)
  | [] => []
  | e :: es => (.arg i, e) :: argParts (i + 1) es

/-- The parts of a node with the steps to them. No step leads into tokens. -/
def parts : Expr → List (Step × Expr)
  | .binary _ l r => [(.left, l), (.right, r)]
  | .unary _ x => [(.operand, x)]
  | .conditional c y n => [(.test, c), (.yes, y), (.no, n)]
  | .call _ args => argParts 0 args
  | .repeated x n => [(.unit, x), (.count, n)]
  | .regexMatch s _ _ _ => [(.subject, s)]
  | _ => []

theorem map_snd_argParts (i : Nat) (args : List Expr) : (argParts i args).map (·.2) = args := by
  induction args generalizing i with
  | nil => rfl
  | cons a args ih => rw [argParts, List.map_cons, ih]

theorem mem_of_mem_argParts {i : Nat} {args : List Expr} {p : Step × Expr} (h : p ∈ argParts i args) :
    p.2 ∈ args := by
  rw [← map_snd_argParts i args]
  exact List.mem_map_of_mem h

/-- Induction over the parts that steps lead to. -/
@[elab_as_elim]
theorem partsInduct {P : Expr → Prop} (node : ∀ e, (∀ p ∈ parts e, P p.2) → P e) (e : Expr) : P e := by
  induction e using Expr.induct with
  | call name args ih => exact node _ fun p hp => ih p.2 (mem_of_mem_argParts hp)
  | binary op l r ihl ihr => exact node _ (by simp [parts, ihl, ihr])
  | unary op x ih => exact node _ (by simp [parts, ih])
  | conditional c y n ihc ihy ihn => exact node _ (by simp [parts, ihc, ihy, ihn])
  | repeated x n ihx ihn => exact node _ (by simp [parts, ihx, ihn])
  | regexMatch s p fl neg ih => exact node _ (by simp [parts, ih])
  | _ => exact node _ (by simp [parts])

/-! ### What the writer does at a node -/

/-- The texts of parts, in their order. -/
def ofPartsAt (path : Path) : List (Step × Expr) → Except Failure (List Text)
  | [] => .ok []
  | p :: ps => do
    let first ← ofExprAt (path ++ [p.1]) p.2
    let rest ← ofPartsAt path ps
    return first :: rest

theorem ofArgsAt_eq (path : Path) (i : Nat) (args : List Expr) :
    ofArgsAt path i args = ofPartsAt path (argParts i args) := by
  induction args generalizing i with
  | nil => rfl
  | cons a args ih => rw [ofArgsAt, argParts, ofPartsAt, ih]

/-- A text is what is written for a node around the texts of its parts. -/
inductive Writes : Expr → List Text → Text → Prop
  | integer (i : Int64) : Writes (.literal (.integer i)) [] (integerText i)
  | float (d : Double) : Writes (.literal (.float d)) [] (realText d)
  | string (t : Text) : Writes (.literal (.string t)) [] (callText (ascii "TagValue::string") (quoted t))
  | value : Writes .value [] (ascii "val")
  | element (i : Int64) : Writes (.element i) []
      (callText (ascii "rt::element") (argsText [ascii "val", Text.ofInt i.toInt]))
  | field (name : Text) : Writes (.field name) [] (callText (ascii "ctx.get") (quoted name))
  | binary {op : Text} {form : Form} (h : binaryForm? op = some form) (l r : Expr) (left right : Text) :
      Writes (.binary op l r) [left, right] (binaryText form left right)
  | unary {op : Text} {write : Text → Text} (h : unaryText? op = some write) (x : Expr) (operand : Text) :
      Writes (.unary op x) [operand] (write operand)
  | conditional (c y n : Expr) (test yes no : Text) :
      Writes (.conditional c y n) [test, yes, no] (conditionalText test yes no)
  | call {name : Text} {form : CallForm} {args : List Expr} (h : callForm? name = some form)
      (hcount : form.arity.allows args.length) (ts : List Text) : Writes (.call name args) ts (form.text ts)
  | repeated (x n : Expr) (unit count : Text) :
      Writes (.repeated x n) [unit, count] (callText (ascii "rt::repeat") (argsText [unit, count]))
  | regexMatch (s : Expr) (pattern flags : Text) (negated : Bool) (subject : Text) :
      Writes (.regexMatch s pattern flags negated) [subject] (matchText subject pattern flags negated)

/-- What comes of a node once its parts have been written. -/
inductive Completes (e : Expr) : Except Failure (List Text) → Except Failure Text → Prop
  | ok {ts : List Text} {t : Text} (h : Writes e ts t) : Completes e (.ok ts) (.ok t)
  | error (f : Failure) : Completes e (.error f) (.error f)

theorem binaryForm?_eq_none_iff {op : Text} :
    binaryForm? op = none ↔ op ∉ binaryForms.map (ascii ·.1) := by
  rw [binaryForm?, Option.map_eq_none_iff, List.find?_eq_none]
  simp [List.mem_map]

theorem unaryText?_eq_none_iff {op : Text} :
    unaryText? op = none ↔ op ∉ [ascii "-", ascii "+", ascii "!", ascii "~"] := by
  unfold unaryText?
  split_ifs <;> simp_all

/-- A node with a defect of its own fails there. Otherwise its parts are written, in their order, and the
node around them. -/
theorem ofExprAt_cases (path : Path) (e : Expr) :
    (∃ d : Defect, defectKind? e = some d.kind ∧ ofExprAt path e = .error ⟨d, path, []⟩) ∨
    (defectKind? e = none ∧ Completes e (ofPartsAt path (parts e)) (ofExprAt path e)) := by
  cases e with
  | hole => exact Or.inl ⟨.missingPart, rfl, rfl⟩
  | group t children => exact Or.inl ⟨.unresolved t children.length, rfl, rfl⟩
  | literal l =>
    cases l with
    | integer i => exact Or.inr ⟨rfl, .ok (.integer i)⟩
    | string t => exact Or.inr ⟨rfl, .ok (.string t)⟩
    | float d =>
      rw [defectKind?, ofExprAt]
      split_ifs
      · exact Or.inr ⟨rfl, .ok (.float d)⟩
      · exact Or.inl ⟨.notFinite, rfl, rfl⟩
  | value => exact Or.inr ⟨rfl, .ok .value⟩
  | element i => exact Or.inr ⟨rfl, .ok (.element i)⟩
  | field name =>
    by_cases hname : name = []
    · rw [hname]
      exact Or.inl ⟨.fieldWithoutName, rfl, rfl⟩
    · rw [ofExprAt, if_neg (by simpa using hname)]
      exact Or.inr ⟨by simp [defectKind?, hname], .ok (.field name)⟩
  | binary op l r =>
    by_cases hop : op = []
    · rw [hop]
      exact Or.inl ⟨.binaryWithoutOperator, rfl, rfl⟩
    · rw [ofExprAt, if_neg (by simpa using hop)]
      cases hform : binaryForm? op with
      | none =>
        refine Or.inl ⟨.unknownBinary op, ?_, rfl⟩
        simp only [defectKind?, if_neg hop, if_neg (binaryForm?_eq_none_iff.1 hform), Defect.kind]
      | some form =>
        have hlisted : op ∈ binaryForms.map (ascii ·.1) := by
          by_contra hnot
          rw [binaryForm?_eq_none_iff.2 hnot] at hform
          cases hform
        refine Or.inr ⟨by simp only [defectKind?, if_neg hop, if_pos hlisted], ?_⟩
        simp only [parts, ofPartsAt]
        cases ofExprAt (path ++ [.left]) l with
        | error f => exact .error f
        | ok left =>
          cases ofExprAt (path ++ [.right]) r with
          | error f => exact .error f
          | ok right => exact .ok (.binary hform l r left right)
  | unary op x =>
    by_cases hop : op = []
    · rw [hop]
      exact Or.inl ⟨.unaryWithoutOperator, rfl, rfl⟩
    · rw [ofExprAt, if_neg (by simpa using hop)]
      cases hwrite : unaryText? op with
      | none =>
        refine Or.inl ⟨.unknownUnary op, ?_, rfl⟩
        simp only [defectKind?, if_neg hop, if_neg (unaryText?_eq_none_iff.1 hwrite), Defect.kind]
      | some write =>
        have hlisted : op ∈ [ascii "-", ascii "+", ascii "!", ascii "~"] := by
          by_contra hnot
          rw [unaryText?_eq_none_iff.2 hnot] at hwrite
          cases hwrite
        refine Or.inr ⟨by simp only [defectKind?, if_neg hop, if_pos hlisted], ?_⟩
        simp only [parts, ofPartsAt]
        cases ofExprAt (path ++ [.operand]) x with
        | error f => exact .error f
        | ok operand => exact .ok (.unary hwrite x operand)
  | conditional c y n =>
    have hkind : defectKind? (.conditional c y n)
        = if hasForeignGuard y n then some .unsupportedStructure else none := by
      cases y with
      | binary op m d => simp [defectKind?, hasForeignGuard, and_assoc]
      | _ => rfl
    rw [hkind, ofExprAt]
    split_ifs
    · exact Or.inl ⟨.foreignGuard, rfl, rfl⟩
    · refine Or.inr ⟨rfl, ?_⟩
      simp only [parts, ofPartsAt]
      cases ofExprAt (path ++ [.test]) c with
      | error f => exact .error f
      | ok test =>
        cases ofExprAt (path ++ [.yes]) y with
        | error f => exact .error f
        | ok yes =>
          cases ofExprAt (path ++ [.no]) n with
          | error f => exact .error f
          | ok no => exact .ok (.conditional c y n test yes no)
  | call name args =>
    by_cases hname : name = []
    · rw [hname]
      exact Or.inl ⟨.callWithoutName, rfl, rfl⟩
    · rw [ofExprAt, if_neg (by simpa using hname)]
      cases hform : callForm? name with
      | none =>
        refine Or.inl ⟨.unknownFunction name, ?_, rfl⟩
        simp only [defectKind?, if_neg hname, hform, Defect.kind]
      | some form =>
        by_cases hcount : form.arity.allows args.length
        · refine Or.inr ⟨by simp only [defectKind?, if_neg hname, hform, if_pos hcount], ?_⟩
          simp only [if_pos hcount, ofArgsAt_eq, parts]
          cases ofPartsAt path (argParts 0 args) with
          | error f => exact .error f
          | ok ts => exact .ok (.call hform hcount ts)
        · refine Or.inl ⟨.wrongArity name form.arity args.length, ?_, ?_⟩
          · simp only [defectKind?, if_neg hname, hform, if_neg hcount, Defect.kind]
          · simp only [if_neg hcount]
            rfl
  | repeated x n =>
    refine Or.inr ⟨rfl, ?_⟩
    rw [ofExprAt]
    simp only [parts, ofPartsAt]
    cases ofExprAt (path ++ [.unit]) x with
    | error f => exact .error f
    | ok unit =>
      cases ofExprAt (path ++ [.count]) n with
      | error f => exact .error f
      | ok count => exact .ok (.repeated x n unit count)
  | regexMatch s pattern flags negated =>
    by_cases hs : s = .hole
    · rw [hs]
      exact Or.inl ⟨.matchWithoutSubject, by simp [defectKind?, Expr.isHole, Defect.kind], rfl⟩
    · have hhole : s.isHole = false := by cases s <;> first | rfl | exact absurd rfl hs
      rw [ofExprAt]
      · cases hcompile : Pattern.compile pattern flags with
        | error fault =>
          refine Or.inl ⟨.badPattern fault, ?_, rfl⟩
          simp [defectKind?, hcompile, Except.isOk, Except.toBool, Defect.kind]
        | ok program =>
          refine Or.inr ⟨by simp [defectKind?, hhole, hcompile, Except.isOk, Except.toBool], ?_⟩
          simp only [parts, ofPartsAt]
          cases ofExprAt (path ++ [.subject]) s with
          | error f => exact .error f
          | ok subject => exact .ok (.regexMatch s pattern flags negated subject)
      · exact hs

theorem bind_eq_ok {ε α β : Type} {x : Except ε α} {f : α → Except ε β} {b : β} :
    x >>= f = .ok b ↔ ∃ a, x = .ok a ∧ f a = .ok b := by
  cases x with
  | error => exact ⟨nofun, nofun⟩
  | ok a => exact ⟨fun h => ⟨a, rfl, h⟩, fun ⟨_, ha, h⟩ => by cases ha; exact h⟩

/-- What has been written for an expression is written around the texts of its parts. -/
theorem exists_writes_of_ofExprAt {path : Path} {e : Expr} {t : Text} (h : ofExprAt path e = .ok t) :
    ∃ ts, ofPartsAt path (parts e) = .ok ts ∧ Writes e ts t := by
  rcases ofExprAt_cases path e with ⟨d, -, hfails⟩ | ⟨-, hcompletes⟩
  · rw [h] at hfails
    cases hfails
  · rw [h] at hcompletes
    generalize ofPartsAt path (parts e) = r at hcompletes
    cases hcompletes with
    | @ok ts _ hwrites => exact ⟨ts, rfl, hwrites⟩

end TagFormula.Source

import TagFormula.Proofs.PrefixCode
import TagFormula.Proofs.Writer

/-!
Where the source of an expression fails. Main statement: an expression has a source exactly if no node in it
has a defect of its own, and it is then canonical; otherwise the failure names the first node with a defect,
from the outside in and from left to right, and the kind of that defect.
-/

namespace TagFormula.Source

/-! ### Places -/

mutual
/-- The nodes of an expression from the outside in and from left to right, each with the way to it. -/
def placesAt (path : Path) : Expr → List (Path × Expr)
  | .binary op l r =>
    (path, .binary op l r) :: (placesAt (path ++ [.left]) l ++ placesAt (path ++ [.right]) r)
  | .unary op x => (path, .unary op x) :: placesAt (path ++ [.operand]) x
  | .conditional c y n =>
    (path, .conditional c y n) :: (placesAt (path ++ [.test]) c ++ placesAt (path ++ [.yes]) y
      ++ placesAt (path ++ [.no]) n)
  | .call name args => (path, .call name args) :: argPlacesAt path 0 args
  | .repeated x n =>
    (path, .repeated x n) :: (placesAt (path ++ [.unit]) x ++ placesAt (path ++ [.count]) n)
  | .regexMatch s p fl neg => (path, .regexMatch s p fl neg) :: placesAt (path ++ [.subject]) s
  | e => [(path, e)]

def argPlacesAt (path : Path) (i : Nat) : List Expr → List (Path × Expr)
  | [] => []
  | e :: es => placesAt (path ++ [.arg i]) e ++ argPlacesAt path (i + 1) es
end

def places (e : Expr) : List (Path × Expr) := placesAt [] e

/-- The node that a path leads to. -/
def at? (e : Expr) : Path → Option Expr
  | [] => some e
  | s :: path => ((parts e).find? (·.1 = s)).bind fun p => at? p.2 path

theorem argPlacesAt_eq (path : Path) (i : Nat) (args : List Expr) :
    argPlacesAt path i args = (argParts i args).flatMap fun p => placesAt (path ++ [p.1]) p.2 := by
  induction args generalizing i with
  | nil => rfl
  | cons a args ih => rw [argPlacesAt, argParts, List.flatMap_cons, ih]

/-- A node comes before its parts, and these come in their order. -/
theorem placesAt_eq (path : Path) (e : Expr) : placesAt path e
    = (path, e) :: (parts e).flatMap fun p => placesAt (path ++ [p.1]) p.2 := by
  cases e with
  | call name args => rw [placesAt, argPlacesAt_eq, parts]
  | _ => simp [placesAt, parts]

/-! ### The first defect -/

/-- A result that goes by the first defect among nodes: if there is none, it is no failure, and else it
is the failure that names it. -/
inductive Reports {α : Type} : List (Path × Expr) → Except Failure α → Prop
  | ok {nodes : List (Path × Expr)} {a : α} (h : ∀ x ∈ nodes, defectKind? x.2 = none) :
      Reports nodes (.ok a)
  | error {before after : List (Path × Expr)} {path : Path} {n : Expr} {d : Defect}
      (h : ∀ x ∈ before, defectKind? x.2 = none) (hn : defectKind? n = some d.kind) :
      Reports (before ++ (path, n) :: after) (.error ⟨d, path, []⟩)

section

variable {α β : Type} {xs ys : List (Path × Expr)} {r : Except Failure α}

theorem Reports.of_ok {a : α} (h : Reports xs (.ok a)) : ∀ x ∈ xs, defectKind? x.2 = none := by
  cases h with
  | ok h => exact h

theorem Reports.of_error {f : Failure} (h : Reports xs (.error f : Except Failure α)) :
    ∃ before n after, xs = before ++ (f.path, n) :: after ∧ (∀ x ∈ before, defectKind? x.2 = none) ∧
      defectKind? n = some f.defect.kind := by
  cases h with
  | @error before after path n d h hn => exact ⟨before, n, after, rfl, h, hn⟩

theorem Reports.cons (h : Reports xs r) {x : Path × Expr} (hx : defectKind? x.2 = none) :
    Reports (x :: xs) r := by
  cases h with
  | ok h => exact .ok (List.forall_mem_cons.2 ⟨hx, h⟩)
  | error h hn =>
    rw [← List.cons_append]
    exact .error (List.forall_mem_cons.2 ⟨hx, h⟩) hn

theorem Reports.map (h : Reports xs r) (f : α → β) : Reports xs (r.map f) := by
  cases h with
  | ok h => exact .ok h
  | error h hn => exact .error h hn

/-- A node adds no failure to those of its parts. -/
theorem Reports.completes {r : Except Failure (List Text)} {result : Except Failure Text} {e : Expr}
    (h : Reports xs r) (hresult : Completes e r result) : Reports xs result := by
  cases hresult with
  | ok => exact .ok h.of_ok
  | error f =>
    cases h with
    | error h hn => exact .error h hn

/-- What follows is looked at only if there has been no defect. -/
theorem Reports.bind (h : Reports xs r) {next : α → Except Failure β} (hnext : ∀ a, Reports ys (next a)) :
    Reports (xs ++ ys) (r >>= next) := by
  cases h with
  | error h hn =>
    rw [List.append_assoc, List.cons_append]
    exact .error h hn
  | @ok _ a h =>
    change Reports (xs ++ ys) (next a)
    have ha := hnext a
    generalize next a = s at ha ⊢
    cases ha with
    | ok h' => exact .ok (List.forall_mem_append.2 ⟨h, h'⟩)
    | error h' hn =>
      rw [← List.append_assoc]
      exact .error (List.forall_mem_append.2 ⟨h, h'⟩) hn

end

theorem reports_ofPartsAt {ps : List (Step × Expr)}
    (hps : ∀ p ∈ ps, ∀ path, Reports (placesAt path p.2) (ofExprAt path p.2)) (path : Path) :
    Reports (ps.flatMap fun p => placesAt (path ++ [p.1]) p.2) (ofPartsAt path ps) := by
  induction ps with
  | nil => exact .ok nofun
  | cons p ps ih =>
    rw [List.flatMap_cons, ofPartsAt]
    refine (hps p (List.mem_cons_self ..) _).bind fun first => ?_
    have hrest := ih fun q hq => hps q (List.mem_cons_of_mem _ hq)
    cases hr : ofPartsAt path ps <;> rw [hr] at hrest
    · exact hrest.map (first :: ·)
    · exact hrest.map (first :: ·)

theorem reports_ofExprAt (e : Expr) (path : Path) : Reports (placesAt path e) (ofExprAt path e) := by
  induction e using partsInduct generalizing path with
  | node e ih =>
    rw [placesAt_eq]
    rcases ofExprAt_cases path e with ⟨d, hd, hfails⟩ | ⟨hnone, hcompletes⟩
    · rw [hfails, ← List.nil_append ((path, e) :: _)]
      exact .error nofun hd
    · exact ((reports_ofPartsAt ih path).completes hcompletes).cons hnone

/-! ### Where a path leads -/

theorem exists_mem_argParts (i : Nat) {args : List Expr} {a : Expr} (h : a ∈ args) :
    ∃ step, (step, a) ∈ argParts i args := by
  rw [← map_snd_argParts i args] at h
  obtain ⟨⟨step, _⟩, hmem, rfl⟩ := List.mem_map.1 h
  exact ⟨step, hmem⟩

theorem exists_arg_of_mem_argParts {i : Nat} {args : List Expr} {p : Step × Expr}
    (h : p ∈ argParts i args) : ∃ j, i ≤ j ∧ p.1 = .arg j := by
  induction args generalizing i with
  | nil => cases h
  | cons a args ih =>
    rcases List.mem_cons.1 h with rfl | h
    · exact ⟨i, Nat.le_refl i, rfl⟩
    · obtain ⟨j, hj, heq⟩ := ih h
      exact ⟨j, by omega, heq⟩

theorem find?_argParts {i : Nat} {args : List Expr} {p : Step × Expr} (h : p ∈ argParts i args) :
    (argParts i args).find? (·.1 = p.1) = some p := by
  induction args generalizing i with
  | nil => cases h
  | cons a args ih =>
    rw [argParts]
    rcases List.mem_cons.1 h with rfl | h
    · exact List.find?_cons_of_pos (by simp)
    · obtain ⟨j, hj, heq⟩ := exists_arg_of_mem_argParts h
      rw [List.find?_cons_of_neg]
      · exact ih h
      · simp only [heq, Step.arg.injEq, decide_eq_true_eq]
        omega

/-- A step leads to one part. -/
theorem find?_parts {e : Expr} {p : Step × Expr} (h : p ∈ parts e) :
    (parts e).find? (·.1 = p.1) = some p := by
  cases e with
  | call name args => exact find?_argParts h
  | binary | unary | conditional | repeated | regexMatch =>
    simp only [parts, List.mem_cons, List.not_mem_nil, or_false] at h
    rcases h with rfl | rfl | rfl <;> rfl
  | _ => cases h

/-- The way to a node leads there. -/
theorem exists_at?_of_mem_placesAt {e : Expr} {path : Path} {x : Path × Expr} (h : x ∈ placesAt path e) :
    ∃ rest, x.1 = path ++ rest ∧ at? e rest = some x.2 := by
  induction e using partsInduct generalizing path with
  | node e ih =>
    rw [placesAt_eq] at h
    rcases List.mem_cons.1 h with rfl | h
    · exact ⟨[], (List.append_nil path).symm, rfl⟩
    · obtain ⟨p, hp, hx⟩ := List.mem_flatMap.1 h
      obtain ⟨rest, hrest, hat⟩ := ih p hp hx
      refine ⟨p.1 :: rest, by rw [hrest, List.append_assoc]; rfl, ?_⟩
      rw [at?, find?_parts hp]
      exact hat

theorem at?_of_mem_places {e : Expr} {x : Path × Expr} (h : x ∈ places e) : at? e x.1 = some x.2 := by
  obtain ⟨rest, hrest, hat⟩ := exists_at?_of_mem_placesAt h
  rwa [hrest, List.nil_append]

/-! ### Canonical expressions -/

theorem isCanonical_of_defectKind?_eq_none {e : Expr} {path : Path}
    (h : ∀ x ∈ placesAt path e, defectKind? x.2 = none) : e.isCanonical := by
  induction e using partsInduct generalizing path with
  | node e ih =>
    rw [placesAt_eq, List.forall_mem_cons] at h
    have hparts : ∀ p ∈ parts e, p.2.isCanonical := fun p hp =>
      ih p hp fun x hx => h.2 x (List.mem_flatMap.2 ⟨p, hp, hx⟩)
    cases e with
    | hole => cases h.1
    | group => cases h.1
    | binary op l r =>
      rw [Expr.isCanonical, hparts (.left, l) (by simp [parts]), hparts (.right, r) (by simp [parts])]
      rfl
    | unary op x => exact hparts (.operand, x) (by simp [parts])
    | conditional c y n =>
      rw [Expr.isCanonical, hparts (.test, c) (by simp [parts]), hparts (.yes, y) (by simp [parts]),
        hparts (.no, n) (by simp [parts])]
      rfl
    | call name args =>
      refine Expr.allCanonical_iff.2 fun a ha => ?_
      obtain ⟨step, hstep⟩ := exists_mem_argParts 0 ha
      exact hparts (step, a) hstep
    | repeated x n =>
      rw [Expr.isCanonical, hparts (.unit, x) (by simp [parts]), hparts (.count, n) (by simp [parts])]
      rfl
    | regexMatch s pattern flags negated =>
      have hs : s.isCanonical := hparts (.subject, s) (by simp [parts])
      cases s <;> first | exact hs | cases hs
    | _ => rfl

/-! ### Failures and defects -/

/-- A failure is at the first node with a defect and has the kind of that defect. Its path leads to that
node, and the text of the path is that of no other node. -/
def NamesFirstDefect (e : Expr) (f : Failure) : Prop :=
  ∃ before n after, places e = before ++ (f.path, n) :: after ∧
    (∀ x ∈ before, defectKind? x.2 = none) ∧ defectKind? n = some f.defect.kind ∧
    at? e f.path = some n ∧ ∀ x ∈ places e, pathText x.1 = pathText f.path → x = (f.path, n)

theorem namesFirstDefect_of_reports {e : Expr} {f : Failure}
    (h : Reports (places e) (.error f : Except Failure Text)) : NamesFirstDefect e f := by
  obtain ⟨before, n, after, hplaces, hbefore, hn⟩ := h.of_error
  have hat : at? e f.path = some n := at?_of_mem_places (x := (f.path, n)) (by rw [hplaces]; simp)
  refine ⟨before, n, after, hplaces, hbefore, hn, hat, ?_⟩
  rintro ⟨path, m⟩ hx hpath
  obtain rfl := pathText_injective hpath
  have hm : some m = some n := (at?_of_mem_places hx).symm.trans hat
  rw [Option.some.inj hm]

/-- An expression has a source exactly if no node has a defect, and it is then canonical. Otherwise the
failure names the first defect. -/
theorem ofExpr_fails_at_first_defect (e : Expr) :
    ((∃ t, ofExpr e = .ok t) ↔ ∀ x ∈ places e, defectKind? x.2 = none) ∧
    ((∃ t, ofExpr e = .ok t) → e.isCanonical) ∧ ∀ f, ofExpr e = .error f → NamesFirstDefect e f := by
  have hreports : Reports (places e) (ofExpr e) := reports_ofExprAt e []
  cases hresult : ofExpr e with
  | ok t =>
    rw [hresult] at hreports
    have hnone := hreports.of_ok
    exact ⟨⟨fun _ => hnone, fun _ => ⟨t, rfl⟩⟩, fun _ => isCanonical_of_defectKind?_eq_none hnone, nofun⟩
  | error f =>
    rw [hresult] at hreports
    have hnames := namesFirstDefect_of_reports hreports
    refine ⟨⟨nofun, fun h => ?_⟩, nofun, ?_⟩
    · obtain ⟨before, n, after, hplaces, -, hn, -⟩ := hnames
      rw [h (f.path, n) (by rw [hplaces]; simp)] at hn
      cases hn
    · rintro g ⟨⟩
      exact hnames

/-- The match has no subject, and no function has the name behind it; the match comes first. -/
theorem ofExpr_fails_at_first_defect_branch :
    let e : Expr := .call (ascii "join") [.value, .conditional .value
      (.regexMatch .hole (ascii "a+") [] false) (.call (ascii "chop") [.value])]
    let f : Failure := ⟨.matchWithoutSubject, [.arg 1, .yes], []⟩
    let d : Expr := .repeated (.string (ascii "ab")) .value
    ofExpr e = .error f ∧ NamesFirstDefect e f ∧ pathText f.path = ascii "root.args[1].true_branch" ∧
      (∃ t, ofExpr d = .ok t) ∧ d.isCanonical := by
  intro e f d
  have he : ofExpr e = .error f := rfl
  have hd : ∃ t, ofExpr d = .ok t := ⟨_, rfl⟩
  exact ⟨he, (ofExpr_fails_at_first_defect e).2.2 f he, by decide, hd,
    (ofExpr_fails_at_first_defect d).2.1 hd⟩

end TagFormula.Source

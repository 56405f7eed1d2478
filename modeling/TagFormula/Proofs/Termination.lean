import Mathlib
import TagFormula.Proofs.Regrouping

/-!
Rules applied anywhere and in any order. The work that is left in an expression bounds how often a rule can
still be applied in it: an operator or a word counts twice, for it may be paid for with a group around what
stood beside it. Main statement: no sequence of applications goes on for ever, and with more rounds at a
node than there is work, all rules decline before the rounds are used up.
-/

namespace TagFormula

namespace Expr

mutual
/-- The work that is left in an expression. -/
@[simp] def work : Expr → Nat
  | .binary _ l r => work l + work r + 1
  | .unary _ x => work x
  | .conditional c y n => work c + work y + work n
  | .call _ args => workAll args
  | .repeated x n => work x + work n
  | .regexMatch s _ _ _ => work s
  | .group t parts => workAll parts + if t.kind = .operator || t.kind = .word then 2 else 1
  | _ => 0

@[simp] def workAll : List Expr → Nat
  | [] => 0
  | e :: es => work e + workAll es
end

theorem workAll_eq_sum (es : List Expr) : workAll es = (es.map work).sum := by
  induction es with
  | nil => rfl
  | cons e es ih => rw [workAll, ih, List.map_cons, List.sum_cons]

@[simp] theorem workAll_append (a b : List Expr) : workAll (a ++ b) = workAll a + workAll b := by
  simp [workAll_eq_sum]

theorem work_le_workAll {c : Expr} {es : List Expr} (h : c ∈ es) : c.work ≤ workAll es := by
  rw [workAll_eq_sum]
  exact List.le_sum_of_mem (List.mem_map_of_mem h)

theorem workAll_lt_work_group (t : Token) (parts : List Expr) : workAll parts < (group t parts).work := by
  rw [work]
  split <;> omega

theorem work_group_lt {t : Token} {items items' : List Expr} (h : workAll items' < workAll items) :
    (group t items').work < (group t items).work := by
  rw [work, work]
  omega

theorem work_word {t : Token} (ht : t.kind = .word) (parts : List Expr) :
    (group t parts).work = workAll parts + 2 := by simp [ht]

theorem two_le_work_of_isOperator {e : Expr} (h : e.isOperator) : 2 ≤ e.work := by
  obtain ⟨t, parts, rfl, hk⟩ := isOperator_iff.1 h
  simp [hk]

/-- Items as one expression take at most one step more. -/
theorem work_collapseOrWrap_le (items : List Expr) :
    (collapseOrWrap items).work ≤ workAll items + 1 := by
  unfold collapseOrWrap
  split
  · simp
  · simp [wrap]

/-! ### Parts -/

theorem work_le_of_mem_children {c e : Expr} (h : c ∈ e.children) : c.work ≤ e.work := by
  cases e with
  | call name args => exact work_le_workAll h
  | group t parts => exact Nat.le_trans (work_le_workAll h) (Nat.le_of_lt (workAll_lt_work_group t parts))
  | regexMatch s p fl neg => cases s <;> simp_all [children]
  | binary | unary | conditional | repeated =>
    simp only [children, List.mem_cons, List.not_mem_nil, or_false] at h
    simp only [work]
    grind
  | _ => cases h

theorem workAll_map_le {f : Expr → Expr} {es : List Expr} (h : ∀ c ∈ es, (f c).work ≤ c.work) :
    workAll (es.map f) ≤ workAll es := by
  rw [workAll_eq_sum, workAll_eq_sum, List.map_map]
  exact List.sum_le_sum h

theorem work_mapChildren_le {f : Expr → Expr} {e : Expr} (h : ∀ c ∈ e.children, (f c).work ≤ c.work) :
    (e.mapChildren f).work ≤ e.work := by
  cases e with
  | call name args => exact workAll_map_le h
  | group t parts =>
    rw [children] at h
    have := workAll_map_le h
    simp only [mapChildren, work]
    omega
  | regexMatch s p fl neg => cases s <;> simp_all [mapChildren, children]
  | binary | unary | conditional | repeated =>
    simp only [children, List.mem_cons, List.not_mem_nil, or_false, forall_eq_or_imp, forall_eq] at h
    simp only [mapChildren, work]
    omega
  | _ => exact Nat.le_refl _

end Expr

open TagFormula.Expr Relation

/-! ### What takes the place of items -/

/-- Each comma pays for the argument in front of it. -/
theorem Call.Arguments.workAll_le {items args : List Expr} (h : Call.Arguments items args) :
    workAll args ≤ workAll items + 1 := by
  induction h with
  | nil => simp
  | comma _ _ ih =>
    rw [workAll]
    omega
  | last => simpa using work_collapseOrWrap_le _
  | next _ hc _ ih =>
    have hcomma := two_le_work_of_isOperator (isOperator_of_isBarrier (isBarrier_of_isComma hc))
    have hargument := work_collapseOrWrap_le
    simp only [workAll, workAll_append]
    grind

theorem Call.workAll_listItems_le (items : List Expr) : workAll (listItems items) ≤ workAll items := by
  unfold listItems
  split
  · rename_i t parts
    split
    · simp
    · exact Nat.le_refl _
  · exact Nat.le_refl _

/-- A sign leaves two steps less. -/
theorem Collapses.workAll_le {items run : List Expr} (h : Collapses items run) :
    2 * workAll run + items.length ≤ 2 * workAll items + run.length := by
  induction h with
  | last => exact Nat.le_refl _
  | operator _ _ _ ih =>
    simp only [workAll, List.length_cons] at ih ⊢
    omega
  | sign hp _ _ ih =>
    have := two_le_work_of_isOperator (isOperator_of_isSign hp)
    simp only [workAll, work, List.length_cons] at ih ⊢
    omega

/-- An operator between two operands leaves one step less. -/
theorem OperatorTree.Spells.work_le {t : OperatorTree} {run : List Expr} (h : t.Spells run) :
    2 * t.toExpr.work + run.length ≤ 2 * workAll run + 1 := by
  induction h with
  | leaf => simp [toExpr]
  | @node op l r o left right ho _ _ ihl ihr =>
    have := two_le_work_of_isOperator (isOperator_of_isInfix ho)
    simp only [toExpr, work, workAll, workAll_append, List.length_append, List.length_cons]
    omega

/-- What takes the place of a stretch of items leaves less work. -/
theorem Becomes.work_lt {stretch : List Expr} {x : Expr} (h : Becomes stretch x) :
    x.work < workAll stretch := by
  cases h with
  | opened => simpa using workAll_lt_work_group _ [x]
  | called ht hargs =>
    have := hargs.workAll_le
    rw [workAll, work, work_word ht]
    omega
  | @calledWith t u parts inside args ht hu hargs =>
    have hle := hargs.workAll_le
    have hitems := Call.workAll_listItems_le inside
    have hlist := workAll_lt_work_group u inside
    rw [workAll, work, work_word ht, workAll, workAll]
    omega
  | operation hlength h =>
    obtain ⟨run, t, hrun, hspells, -, rfl⟩ := h
    have hsigns := (collapses_iff_signedRun.2 hrun).workAll_le
    have hoperators := hspells.work_le
    omega
  | @conditional test yes no q k hq hk =>
    have hq := two_le_work_of_isOperator (isOperator_of_isSymbol hq)
    have hk := two_le_work_of_isOperator (isOperator_of_isSymbol hk)
    have htest := work_collapseOrWrap_le test
    have hyes := work_collapseOrWrap_le yes
    have hno := work_collapseOrWrap_le no
    simp only [work, workAll, workAll_append]
    omega

/-- A reference takes the place of its tokens. -/
theorem Leaf.work_lt_of_reference? {item e : Expr} {rest : List Expr} {n : Nat}
    (h : reference? item rest = some (e, n)) : e.work < workAll (item :: rest.take n) := by
  have hzero : e.work = 0 := by
    rcases reference?_cases h with ⟨i, rfl⟩ | ⟨name, rfl⟩ <;> rfl
  have htoken : ∀ {kind content} {x : Expr}, isToken kind content x → 0 < x.work := by
    intro kind content x hx
    cases x with
    | group t parts => exact Nat.zero_lt_of_lt (workAll_lt_work_group t parts)
    | _ => cases hx
  rw [hzero, workAll]
  unfold reference? at h
  split at h
  · cases h
  · rename_i next after
    split at h
    · -- the value counts nothing, and its index is in a group
      obtain ⟨i, hi, hpair⟩ := Option.map_eq_some_iff.1 h
      cases hpair
      have hnext : 0 < next.work := by
        cases next with
        | group t parts => exact Nat.zero_lt_of_lt (workAll_lt_work_group t parts)
        | _ => cases hi
      simp only [List.take_succ_cons, workAll]
      omega
    · split at h
      · rename_i hself
        rw [Bool.or_eq_true, Bool.and_eq_true, Bool.and_eq_true] at hself
        have := hself.elim (fun hs => htoken hs.1) fun hs => htoken hs.1
        omega
      · split at h
        · rename_i hself
          have := htoken hself
          omega
        · cases h

theorem Replaces.workAll_lt {becomes : List Expr → Expr → Prop}
    (hbecomes : ∀ stretch x, becomes stretch x → x.work < workAll stretch) {items items' : List Expr}
    (h : TransGen (Replaces becomes) items items') : workAll items' < workAll items := by
  have hone : ∀ {a b}, Replaces becomes a b → workAll b < workAll a := by
    rintro _ _ ⟨front, hx, back⟩
    have := hbecomes _ _ hx
    simp only [workAll, workAll_append]
    omega
  induction h with
  | single h => exact hone h
  | tail _ h ih => exact Nat.lt_trans (hone h) ih

/-! ### Every rule takes work away -/

namespace Rule

/-- Where a rule applies, less work is left. -/
def Works (rule : Rule) : Prop := ∀ e next, rule.reduce? e = some next → next.work < e.work

theorem works_leaf : leaf.Works := by
  intro e next h
  cases e with
  | group t parts =>
    have hpos := Nat.zero_lt_of_lt (workAll_lt_work_group t parts)
    simp only [leaf, Leaf.reduce?] at h
    split at h
    · obtain ⟨l, -, rfl⟩ := Option.map_eq_some_iff.1 h
      exact hpos
    · obtain ⟨s, -, rfl⟩ := Option.map_eq_some_iff.1 h
      exact hpos
    · obtain ⟨m, -, rfl⟩ := Option.map_eq_some_iff.1 h
      exact hpos
    · split at h
      · cases h
        exact hpos
      · obtain ⟨name, -, rfl⟩ := Option.map_eq_some_iff.1 h
        exact hpos
    · obtain ⟨items, hitems, rfl⟩ := Option.map_eq_some_iff.1 h
      have hreplaces : Relation.TransGen (Replaces fun stretch x => x.work < workAll stretch) _ items :=
        replaces_of_replaceItems? (fun _ _ _ _ => Leaf.work_lt_of_reference?) hitems
      exact work_group_lt (Replaces.workAll_lt (fun _ _ h => h) hreplaces)
  | _ => cases h

theorem works_of_mem_group {rule : Rule} (hrule : rule ∈ [call, operation, conditional]) : rule.Works := by
  intro e next h
  cases e with
  | group t items =>
    obtain ⟨items', rfl, hreplaces⟩ := replaces_of_reduce? hrule h
    exact work_group_lt (Replaces.workAll_lt (fun _ _ => Becomes.work_lt) hreplaces)
  | _ =>
    simp only [List.mem_cons, List.not_mem_nil, or_false] at hrule
    rcases hrule with rfl | rfl | rfl <;> cases h

theorem works_bindMatch : bindMatch.Works := by
  intro e next h
  simp only [bindMatch, Shape.bindMatch] at h
  split at h
  · split at h
    · cases h
      simp only [work]
      omega
    · split at h
      · cases h
        simp only [work]
        omega
      · cases h
  · cases h

theorem works_repetition : repetition.Works := by
  intro e next h
  simp only [repetition, Shape.repetition] at h
  split at h
  · split at h
    · cases h
      simp only [work]
      omega
    · cases h
  · cases h

theorem works_guardedDivision : guardedDivision.Works := by
  intro e next h
  simp only [guardedDivision, Shape.guardedDivision] at h
  split at h
  · split at h
    · split at h
      all_goals
        cases h
        simp only [work, workAll]
        omega
    · cases h
  · cases h

theorem works_collapse : collapse.Works := by
  intro e next h
  cases e with
  | group t items =>
    rw [eq_single_of_collapse h]
    simpa using workAll_lt_work_group t [next]
  | _ => cases h

theorem works_of_mem_standard {rule : Rule} (h : rule ∈ standard) : rule.Works := by
  simp only [standard, List.mem_cons, List.not_mem_nil, or_false] at h
  rcases h with rfl | rfl | rfl | rfl | rfl | rfl | rfl | rfl
  · exact works_leaf
  · exact works_of_mem_group (by simp)
  · exact works_of_mem_group (by simp)
  · exact works_bindMatch
  · exact works_of_mem_group (by simp)
  · exact works_repetition
  · exact works_guardedDivision
  · exact works_collapse

/-! ### Applications at any place -/

/-- One of the rules is applied, to the whole expression or to a part of it at any depth. -/
inductive Rewrites (rules : List Rule) : Expr → Expr → Prop
  | here {rule : Rule} {e e' : Expr} (hrule : rule ∈ rules) (h : rule.reduce? e = some e') :
      Rewrites rules e e'
  | left {op : Text} {l l' r : Expr} (h : Rewrites rules l l') :
      Rewrites rules (.binary op l r) (.binary op l' r)
  | right {op : Text} {l r r' : Expr} (h : Rewrites rules r r') :
      Rewrites rules (.binary op l r) (.binary op l r')
  | operand {op : Text} {x x' : Expr} (h : Rewrites rules x x') :
      Rewrites rules (.unary op x) (.unary op x')
  | test {c c' y n : Expr} (h : Rewrites rules c c') :
      Rewrites rules (.conditional c y n) (.conditional c' y n)
  | yes {c y y' n : Expr} (h : Rewrites rules y y') :
      Rewrites rules (.conditional c y n) (.conditional c y' n)
  | no {c y n n' : Expr} (h : Rewrites rules n n') :
      Rewrites rules (.conditional c y n) (.conditional c y n')
  | argument {name : Text} (front : List Expr) {a a' : Expr} (back : List Expr) (h : Rewrites rules a a') :
      Rewrites rules (.call name (front ++ a :: back)) (.call name (front ++ a' :: back))
  | unit {x x' n : Expr} (h : Rewrites rules x x') : Rewrites rules (.repeated x n) (.repeated x' n)
  | count {x n n' : Expr} (h : Rewrites rules n n') : Rewrites rules (.repeated x n) (.repeated x n')
  | subject {s s' : Expr} {p fl : Text} {neg : Bool} (h : Rewrites rules s s') :
      Rewrites rules (.regexMatch s p fl neg) (.regexMatch s' p fl neg)
  | part {t : Token} (front : List Expr) {c c' : Expr} (back : List Expr) (h : Rewrites rules c c') :
      Rewrites rules (.group t (front ++ c :: back)) (.group t (front ++ c' :: back))

section

variable {rules : List Rule} (hrules : ∀ rule ∈ rules, rule.Works)
include hrules

theorem Rewrites.work_lt {e e' : Expr} (h : Rewrites rules e e') : e'.work < e.work := by
  induction h with
  | here hrule h => exact hrules _ hrule _ _ h
  | _ =>
    simp only [work, workAll, workAll_append]
    omega

/-- Work bounds the length of a sequence of applications, so that none goes on for ever. -/
theorem exists_not_rewrites (f : Nat → Expr) : ∃ n, ¬Rewrites rules (f n) (f (n + 1)) := by
  by_contra hforever
  simp only [not_exists, not_not] at hforever
  have hbound : ∀ n, (f n).work + n ≤ (f 0).work := by
    intro n
    induction n with
    | zero => exact Nat.le_refl _
    | succ n ih =>
      have := (hforever n).work_lt hrules
      omega
  have := hbound ((f 0).work + 1)
  omega

/-! ### Rounds without a limit -/

theorem work_round?_lt {e next : Expr} (h : round? rules e = some next) : next.work < e.work := by
  have hfold : ∀ (rules : List Rule), (∀ rule ∈ rules, rule.Works) → ∀ e next,
      round? rules e = some next → next.work < e.work := by
    intro rules
    induction rules with
    | nil => exact fun _ _ _ h => by cases h
    | cons rule rest ih =>
      intro hall e next h
      have hrest := ih fun r hr => hall r (List.mem_cons_of_mem _ hr)
      rw [round?] at h
      split at h
      · exact hrest e next h
      · rename_i m hm
        cases h
        have hfirst := hall rule (List.mem_cons_self ..) e m hm
        cases hr : round? rest m with
        | none => exact hfirst
        | some next => exact Nat.lt_trans (hrest m next hr) hfirst
  exact hfold rules hrules e next h

theorem work_settle_le {below : Expr → Expr} (hbelow : ∀ c, (below c).work ≤ c.work) (n : Nat)
    (e : Expr) : (settle below rules n e).work ≤ e.work := by
  induction n generalizing e with
  | zero => exact Nat.le_refl _
  | succ n ih =>
    rw [settle]
    split
    · exact Nat.le_refl _
    · rename_i next hnext
      calc (settle below rules n (next.mapChildren below)).work
          ≤ (next.mapChildren below).work := ih _
        _ ≤ next.work := work_mapChildren_le fun c _ => hbelow c
        _ ≤ e.work := Nat.le_of_lt (work_round?_lt hrules hnext)

/-- With more rounds than there is work, one comes in which all rules decline. -/
theorem settleEnds_of_work_lt {below : Expr → Expr} (hbelow : ∀ c, (below c).work ≤ c.work)
    {ends : Expr → Prop} {bound : Nat} (hends : ∀ c, c.work < bound → ends c) {n : Nat} {e : Expr}
    (hn : n ≤ bound) (h : e.work < n) : SettleEnds below ends rules n e := by
  induction n generalizing e with
  | zero => omega
  | succ n ih =>
    cases hr : round? rules e with
    | none => exact settleEnds_of_declined (round?_eq_none_iff.1 hr) n
    | some next =>
      have hnext := work_round?_lt hrules hr
      have hparts := work_mapChildren_le fun c (_ : c ∈ next.children) => hbelow c
      rw [settleEnds_succ hr]
      refine ⟨fun c hc => hends c ?_, ih (by omega) (by omega)⟩
      have := work_le_of_mem_children hc
      omega

/-- More rounds than there is work all leave the same. -/
theorem settle_eq_of_work_lt {below below' : Expr → Expr} (hbelow : ∀ c, (below c).work ≤ c.work)
    {bound : Nat} (heq : ∀ c, c.work < bound → below c = below' c) {n m : Nat} {e : Expr}
    (hb : e.work < bound) (hn : e.work < n) (hm : e.work < m) :
    settle below rules n e = settle below' rules m e := by
  induction n generalizing m e with
  | zero => omega
  | succ n ih =>
    obtain ⟨m, rfl⟩ := Nat.exists_eq_add_of_lt (Nat.zero_lt_of_lt hm)
    rw [Nat.zero_add] at hm ⊢
    cases hr : round? rules e with
    | none =>
      rw [settle_of_declined (round?_eq_none_iff.1 hr), settle_of_declined (round?_eq_none_iff.1 hr)]
    | some next =>
      have hnext := work_round?_lt hrules hr
      have hparts := work_mapChildren_le fun c (_ : c ∈ next.children) => hbelow c
      have hmap : next.mapChildren below = next.mapChildren below' :=
        mapChildren_congr fun c hc => heq c (by have := work_le_of_mem_children hc; omega)
      rw [settle, hr, settle, hr]
      dsimp only
      rw [← hmap]
      exact ih (by omega) (by omega) (by omega)

end

/-- The normal form with a number of levels, and any number of rounds at a node. -/
def normalizeUpTo (rules : List Rule) (rounds : Nat) : Nat → Expr → Expr
  | 0, e => e
  | _ + 1, .hole => .hole
  | levels + 1, e =>
    let below := normalizeUpTo rules rounds levels
    settle below rules rounds (e.mapChildren below)

/-- With that number of rounds, one in which all rules decline comes at every node. -/
def EndsUpTo (rules : List Rule) (rounds : Nat) : Nat → Expr → Prop
  | 0, _ => True
  | _ + 1, .hole => True
  | levels + 1, e =>
    let ends := EndsUpTo rules rounds levels
    let below := normalizeUpTo rules rounds levels
    (∀ c ∈ e.children, ends c) ∧ SettleEnds below ends rules rounds (e.mapChildren below)

/-- The limit on rounds is one such number. -/
theorem normalizeUpTo_maxRounds (rules : List Rule) (levels : Nat) (e : Expr) :
    normalizeUpTo rules maxRounds levels e = normalizeWithin rules levels e := by
  induction levels generalizing e with
  | zero => rfl
  | succ levels ih =>
    have hbelow : normalizeUpTo rules maxRounds levels = normalizeWithin rules levels := funext ih
    cases e with
    | hole => rfl
    | _ => simp only [normalizeUpTo, normalizeWithin, hbelow]

section

variable {rules : List Rule}

theorem normalizeUpTo_hole (rounds levels : Nat) : normalizeUpTo rules rounds levels .hole = .hole := by
  cases levels <;> rfl

theorem normalizeUpTo_succ {rounds : Nat} {e : Expr} (levels : Nat) (h : e ≠ .hole) :
    normalizeUpTo rules rounds (levels + 1) e = settle (normalizeUpTo rules rounds levels) rules rounds
      (e.mapChildren (normalizeUpTo rules rounds levels)) := by
  rw [normalizeUpTo]
  exact h

variable (hrules : ∀ rule ∈ rules, rule.Works)
include hrules

theorem work_normalizeUpTo_le (rounds levels : Nat) (e : Expr) :
    (normalizeUpTo rules rounds levels e).work ≤ e.work := by
  induction levels generalizing e with
  | zero => exact Nat.le_refl _
  | succ levels ih =>
    by_cases he : e = .hole
    · rw [he, normalizeUpTo_hole]
    · rw [normalizeUpTo_succ levels he]
      exact Nat.le_trans (work_settle_le hrules ih _ _) (work_mapChildren_le fun c _ => ih c)

theorem endsUpTo_of_work_lt {rounds : Nat} (levels : Nat) {e : Expr} (h : e.work < rounds) :
    EndsUpTo rules rounds levels e := by
  induction levels generalizing e with
  | zero => exact trivial
  | succ levels ih =>
    have hle := work_normalizeUpTo_le hrules rounds levels
    by_cases he : e = .hole
    · rw [he]
      exact trivial
    · rw [EndsUpTo]
      · refine ⟨fun c hc => ih (Nat.lt_of_le_of_lt (work_le_of_mem_children hc) h), ?_⟩
        refine settleEnds_of_work_lt hrules hle (fun c => ih) (Nat.le_refl _) ?_
        exact Nat.lt_of_le_of_lt (work_mapChildren_le fun c _ => hle c) h
      · exact he

theorem normalizeUpTo_eq_of_work_lt {n m : Nat} (levels : Nat) {e : Expr} (hn : e.work < n)
    (hm : e.work < m) : normalizeUpTo rules n levels e = normalizeUpTo rules m levels e := by
  induction levels generalizing e with
  | zero => rfl
  | succ levels ih =>
    have hle := work_normalizeUpTo_le hrules n levels
    by_cases he : e = .hole
    · rw [he, normalizeUpTo_hole, normalizeUpTo_hole]
    · have hparts := work_mapChildren_le fun c (_ : c ∈ e.children) => hle c
      have hmap : e.mapChildren (normalizeUpTo rules n levels)
          = e.mapChildren (normalizeUpTo rules m levels) :=
        mapChildren_congr fun c hc => by
          have := work_le_of_mem_children hc
          exact ih (by omega) (by omega)
      rw [normalizeUpTo_succ levels he, normalizeUpTo_succ levels he, ← hmap]
      have hbelow : ∀ c : Expr, c.work < min n m →
          normalizeUpTo rules n levels c = normalizeUpTo rules m levels c :=
        fun c hc => ih (by omega) (by omega)
      exact settle_eq_of_work_lt hrules hle hbelow (by omega) (by omega) (by omega)

end

/-- No sequence of applications of the rules goes on for ever, whatever their places and their order. So
the rounds need no limit: whatever the number of levels, from some number of rounds on all rules decline at
every node before the rounds are used up, and the normal form does not depend on their number. -/
theorem rewriting_terminates :
    (∀ f : Nat → Expr, ∃ n, ¬Rewrites standard (f n) (f (n + 1))) ∧
    ∀ levels e, ∃ enough r, ∀ more, EndsUpTo standard (enough + more) levels e ∧
      normalizeUpTo standard (enough + more) levels e = r := by
  have hworks : ∀ rule ∈ standard, rule.Works := fun _ => works_of_mem_standard
  refine ⟨exists_not_rewrites hworks, fun levels e => ?_⟩
  refine ⟨e.work + 1, normalizeUpTo standard (e.work + 1) levels e, fun more => ⟨?_, ?_⟩⟩
  · exact endsUpTo_of_work_lt hworks levels (by omega)
  · exact normalizeUpTo_eq_of_work_lt hworks levels (by omega) (by omega)

end Rule
end TagFormula

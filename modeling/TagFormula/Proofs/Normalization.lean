import Mathlib.Data.List.Basic
import Mathlib.Data.Nat.Basic
import Mathlib.Tactic.Common
import TagFormula.NormalForm

/-!
Rounds of rules and the normal forms they lead to. A round is the rules applied one after the other; an
expression in which no rule applies anywhere is its own normal form, at every number of levels.
-/

namespace TagFormula

namespace Expr

/-- Induction over expressions, with the statement for all members of a list of parts. -/
@[elab_as_elim]
theorem induct {P : Expr → Prop} (hole : P .hole) (literal : ∀ l, P (.literal l)) (value : P .value)
    (element : ∀ i, P (.element i)) (field : ∀ name, P (.field name))
    (binary : ∀ op l r, P l → P r → P (.binary op l r)) (unary : ∀ op x, P x → P (.unary op x))
    (conditional : ∀ c y n, P c → P y → P n → P (.conditional c y n))
    (call : ∀ name args, (∀ a ∈ args, P a) → P (.call name args))
    (repeated : ∀ x n, P x → P n → P (.repeated x n))
    (regexMatch : ∀ s p fl neg, P s → P (.regexMatch s p fl neg))
    (group : ∀ t parts, (∀ c ∈ parts, P c) → P (.group t parts)) (e : Expr) : P e := by
  refine @Expr.rec P (fun es => ∀ e ∈ es, P e) hole literal value element field binary unary
    conditional call repeated regexMatch group ?_ ?_ e
  · intro c hc
    cases hc
  · intro c cs hc hcs d hd
    rcases List.mem_cons.1 hd with rfl | hd
    · exact hc
    · exact hcs d hd

theorem mapChildren_congr {f g : Expr → Expr} {e : Expr} (h : ∀ c ∈ e.children, f c = g c) :
    e.mapChildren f = e.mapChildren g := by
  cases e with
  | call name args =>
    rw [children] at h
    rw [mapChildren, mapChildren, List.map_congr_left h]
  | group t parts =>
    rw [children] at h
    rw [mapChildren, mapChildren, List.map_congr_left h]
  | regexMatch s p fl neg => cases s <;> simp_all [mapChildren, children]
  | _ => simp_all [mapChildren, children]

theorem mapChildren_id (e : Expr) : e.mapChildren id = e := by
  cases e with
  | regexMatch s p fl neg => cases s <;> rfl
  | _ => simp [mapChildren]

theorem mapChildren_eq_self {f : Expr → Expr} {e : Expr} (h : ∀ c ∈ e.children, f c = c) :
    e.mapChildren f = e :=
  (mapChildren_congr h).trans (mapChildren_id e)

@[simp] theorem mapChildren_group (f : Expr → Expr) (t : Token) (parts : List Expr) :
    (group t parts).mapChildren f = .group t (parts.map f) := rfl

theorem allCanonical_iff {es : List Expr} : allCanonical es ↔ ∀ e ∈ es, e.isCanonical := by
  induction es with
  | nil => simp [allCanonical]
  | cons e es ih => simp [allCanonical, ih]

end Expr

namespace Rule

/-- What a rule leaves of an expression. -/
def apply (e : Expr) (rule : Rule) : Expr := (rule.reduce? e).getD e

/-- No rule applies at the top of an expression. -/
def Declined (rules : List Rule) (e : Expr) : Prop := ∀ rule ∈ rules, rule.reduce? e = none

theorem apply_of_some {e next : Expr} {rule : Rule} (h : rule.reduce? e = some next) :
    apply e rule = next := by rw [apply, h]; rfl

theorem apply_of_none {e : Expr} {rule : Rule} (h : rule.reduce? e = none) : apply e rule = e := by
  rw [apply, h]; rfl

theorem round?_eq_none_iff {rules : List Rule} {e : Expr} :
    round? rules e = none ↔ Declined rules e := by
  induction rules with
  | nil => simp [round?, Declined]
  | cons rule rest ih =>
    cases h : rule.reduce? e with
    | none => simpa [round?, h, Declined] using ih
    | some next => simp [round?, h, Declined]

/-- A round applies each rule to what the rules before it left. -/
theorem round?_getD (rules : List Rule) (e : Expr) :
    (round? rules e).getD e = rules.foldl apply e := by
  induction rules generalizing e with
  | nil => rfl
  | cons rule rest ih =>
    cases h : rule.reduce? e with
    | none => simp only [round?, h, List.foldl_cons, apply_of_none h, ih]
    | some next => simp only [round?, h, List.foldl_cons, apply_of_some h, Option.getD_some, ih]

theorem foldl_apply_of_declined {rules : List Rule} {e : Expr} (h : Declined rules e) :
    rules.foldl apply e = e := by
  rw [← round?_getD, round?_eq_none_iff.2 h]
  rfl

theorem settle_of_declined {below : Expr → Expr} {rules : List Rule} {e : Expr}
    (h : Declined rules e) : ∀ n, settle below rules n e = e
  | 0 => rfl
  | n + 1 => by rw [settle, round?_eq_none_iff.2 h]

/-- A round that changes the expression is followed by the normal forms of its parts. -/
theorem settle_succ_of_ne {below : Expr → Expr} {rules : List Rule} {e next : Expr} {n : Nat}
    (h : rules.foldl apply e = next) (hne : next ≠ e) :
    settle below rules (n + 1) e = settle below rules n (next.mapChildren below) := by
  rw [← round?_getD] at h
  cases hr : round? rules e with
  | none => rw [hr] at h; exact absurd h.symm hne
  | some m =>
    rw [hr, Option.getD_some] at h
    rw [settle, hr, h]

/-- A round over an expression whose parts are in normal form. -/
theorem settle_succ {below : Expr → Expr} {rules : List Rule} {e : Expr}
    (he : e.mapChildren below = e) (n : Nat) : settle below rules (n + 1) e
      = settle below rules n ((rules.foldl apply e).mapChildren below) := by
  cases hr : round? rules e with
  | none =>
    have hd := round?_eq_none_iff.1 hr
    rw [foldl_apply_of_declined hd, he, settle_of_declined hd, settle_of_declined hd]
  | some next =>
    rw [settle, hr, ← round?_getD, hr, Option.getD_some]

/-- Rounds that change nothing. -/
theorem settle_of_foldl_eq_self {below : Expr → Expr} {rules : List Rule} {e : Expr}
    (h : rules.foldl apply e = e) (he : e.mapChildren below = e) : ∀ n, settle below rules n e = e
  | 0 => rfl
  | n + 1 => by rw [settle_succ he, h, he, settle_of_foldl_eq_self h he n]

theorem normalizeWithin_succ {rules : List Rule} {e : Expr} (n : Nat) (h : e ≠ .hole) :
    normalizeWithin rules (n + 1) e
      = settle (normalizeWithin rules n) rules maxRounds (e.mapChildren (normalizeWithin rules n)) := by
  rw [normalizeWithin]
  exact h

theorem normalizeWithin_hole (rules : List Rule) (n : Nat) :
    normalizeWithin rules n .hole = .hole := by
  cases n <;> rfl

/-! ### Expressions in which no rule applies -/

/-- No rule applies to an expression or to a part of it. -/
inductive Settled (rules : List Rule) : Expr → Prop
  | hole : Settled rules .hole
  | node {e : Expr} (h : Declined rules e) (hc : ∀ c ∈ e.children, Settled rules c) : Settled rules e

theorem normalizeWithin_of_settled {rules : List Rule} {e : Expr} (h : Settled rules e) :
    ∀ n, normalizeWithin rules n e = e := by
  induction h with
  | hole => exact normalizeWithin_hole rules
  | @node e hd _ ih =>
    intro n
    cases n with
    | zero => rfl
    | succ n =>
      by_cases he : e = .hole
      · rw [he, normalizeWithin_hole]
      · rw [normalizeWithin_succ n he, Expr.mapChildren_eq_self fun c hc => ih c hc n,
          settle_of_declined hd]

theorem Settled.mapChildren {rules : List Rule} {e : Expr} (hc : ∀ c ∈ e.children, Settled rules c)
    (n : Nat) : e.mapChildren (normalizeWithin rules n) = e :=
  Expr.mapChildren_eq_self fun c h => normalizeWithin_of_settled (hc c h) n

/-- One round that leads to a settled expression settles it. -/
theorem settle_of_round {rules : List Rule} {e next : Expr} {k n : Nat}
    (h : rules.foldl apply e = next) (hd : Declined rules next)
    (hc : ∀ c ∈ next.children, Settled rules c) :
    settle (normalizeWithin rules k) rules (n + 1) e = next := by
  by_cases hne : next = e
  · rw [← hne, settle_of_declined hd]
  · rw [settle_succ_of_ne h hne, Settled.mapChildren hc, settle_of_declined hd]

end Rule
end TagFormula

import TagFormula.Proofs.ExactPower
import TagFormula.Proofs.RoundingOrder
import TagFormula.Value.Operator

/-!
The fourteen comparisons, seven by number and seven by text. Each family reads its operands and compares them once.
Main statement: on every pair of values the seven operators of a family fail together or tell of one order, and the
swapped pair has the opposite one.
-/

namespace TagFormula

/-! ### Order of numbers -/

theorem Double.lt_iff {a b : Double} : a.lt b ↔ a.isNaN = false ∧ b.isNaN = false ∧ a.value < b.value := by
  simp only [lt, Bool.and_eq_true, Bool.not_eq_true', decide_eq_true_eq, value_lt_value_iff, and_assoc]

namespace Number

/-- A number lies below another: integers as they are, any other pair as the words nearest to them. A NaN lies neither
below nor above anything. -/
def Before : Number → Number → Prop
  | .integer i, .integer j => i < j
  | x, y => x.toDouble.isNaN = false ∧ y.toDouble.isNaN = false ∧ x.toDouble.value < y.toDouble.value

theorem before_asymm {x y : Number} (h : x.Before y) : ¬y.Before x := by
  cases x with
  | integer i =>
    cases y with
    | integer j => exact Int64.lt_asymm h
    | real e => exact fun h' => lt_asymm h.2.2 h'.2.2
  | real d => cases y <;> exact fun h' => lt_asymm h.2.2 h'.2.2

/-- What the comparison of two numbers says about their order. -/
theorem compare_cases (x y : Number) : x.compare y = .lt ∧ x.Before y ∨ x.compare y = .gt ∧ y.Before x ∨
    x.compare y = .eq ∧ ¬x.Before y ∧ ¬y.Before x := by
  have hwords : ∀ d e : Double,
      let o : Ordering := if d.lt e then .lt else if e.lt d then .gt else .eq
      o = .lt ∧ d.lt e ∨ o = .gt ∧ e.lt d ∨ o = .eq ∧ ¬d.lt e ∧ ¬e.lt d := by
    intro d e
    by_cases hlt : d.lt e
    · simp [hlt]
    · by_cases hgt : e.lt d <;> simp [hlt, hgt]
  cases x with
  | integer i =>
    cases y with
    | integer j =>
      rcases Std.lt_trichotomy i j with hlt | rfl | hgt
      · exact Or.inl ⟨Std.compare_eq_lt.2 hlt, hlt⟩
      · exact Or.inr (Or.inr ⟨Std.compare_self, Int64.lt_irrefl, Int64.lt_irrefl⟩)
      · exact Or.inr (Or.inl ⟨Std.compare_eq_gt.2 hgt, hgt⟩)
    | real e =>
      simp only [Before, ← Double.lt_iff]
      exact hwords (Double.ofInt i.toInt) e
  | real d =>
    cases y <;> simp only [Before, ← Double.lt_iff] <;> exact hwords d (toDouble _)

theorem compare_eq_lt_iff {x y : Number} : x.compare y = .lt ↔ x.Before y := by
  rcases compare_cases x y with ⟨h, hbefore⟩ | ⟨h, hbefore⟩ | ⟨h, hbefore, -⟩
  · simp [h, hbefore]
  · simp [h, before_asymm hbefore]
  · simp [h, hbefore]

theorem compare_eq_gt_iff {x y : Number} : x.compare y = .gt ↔ y.Before x := by
  rcases compare_cases x y with ⟨h, hbefore⟩ | ⟨h, hbefore⟩ | ⟨h, -, hbefore⟩
  · simp [h, before_asymm hbefore]
  · simp [h, hbefore]
  · simp [h, hbefore]

/-- Numbers in the other order compare the other way round, NaN included. -/
theorem compare_swap (x y : Number) : y.compare x = (x.compare y).swap := by
  cases h : x.compare y with
  | lt => exact compare_eq_gt_iff.2 (compare_eq_lt_iff.1 h)
  | gt => exact compare_eq_lt_iff.2 (compare_eq_gt_iff.1 h)
  | eq =>
    cases h' : y.compare x with
    | eq => rfl
    | lt => rw [compare_eq_gt_iff.2 (compare_eq_lt_iff.1 h')] at h; cases h
    | gt => rw [compare_eq_lt_iff.2 (compare_eq_gt_iff.1 h')] at h; cases h

end Number

namespace Value

/-! ### The seven operators of a comparison -/

/-- Seven operators, one for each question about the order of two values. -/
structure Comparison where
  eq : Value → Value → Except Fault Value
  ne : Value → Value → Except Fault Value
  lt : Value → Value → Except Fault Value
  gt : Value → Value → Except Fault Value
  le : Value → Value → Except Fault Value
  ge : Value → Value → Except Fault Value
  cmp : Value → Value → Except Fault Value

namespace Comparison

def numeric : Comparison := ⟨numEq, numNe, numLt, numGt, numLe, numGe, numCmp⟩

def textual : Comparison := ⟨strEq, strNe, strLt, strGt, strLe, strGe, strCmp⟩

variable (c : Comparison) (a b : Value)

def operators : List (Value → Value → Except Fault Value) := [c.eq, c.ne, c.lt, c.gt, c.le, c.ge, c.cmp]

/-- The answers of the seven operators on values in a given order. -/
structure Tells (o : Ordering) : Prop where
  lt : c.lt a b = .ok (bool (o = .lt))
  eq : c.eq a b = .ok (bool (o = .eq))
  gt : c.gt a b = .ok (bool (o = .gt))
  le : c.le a b = .ok (bool (o ≠ .gt))
  ge : c.ge a b = .ok (bool (o ≠ .lt))
  ne : c.ne a b = .ok (bool (o ≠ .eq))
  cmp : c.cmp a b = .ok (.integer (orderInt o))

/-- The operators fail together, on the kinds that they have no view of, or they tell of one order, and of the
opposite one for the swapped pair. -/
def TellsOneOrder (without : List Kind) : Prop :=
  (a.kind ∈ without ∨ b.kind ∈ without →
    ∀ f ∈ c.operators, ∃ fault, f a b = .error fault ∧ fault.family = .type) ∧
  (a.kind ∉ without → b.kind ∉ without →
    ∃ o : Ordering, c.Tells a b o ∧ c.cmp b a = .ok (.integer (-orderInt o)))

/-- Operators that ask one comparison for the order, each under its own name. -/
def ofOrder (order : String → Value → Value → Except Fault Ordering) (eq ne lt gt le ge cmp : String) :
    Comparison where
  eq a b := return bool (← order eq a b).isEq
  ne a b := return bool (← order ne a b).isNe
  lt a b := return bool (← order lt a b).isLT
  gt a b := return bool (← order gt a b).isGT
  le a b := return bool (← order le a b).isLE
  ge a b := return bool (← order ge a b).isGE
  cmp a b := return .integer (orderInt (← order cmp a b))

theorem numeric_eq_ofOrder : numeric = ofOrder compareNumbers "==" "!=" "<" ">" "<=" ">=" "<=>" := rfl

theorem textual_eq_ofOrder : textual = ofOrder compareTexts "eq" "ne" "lt" "gt" "le" "ge" "cmp" := rfl

section

variable {a b} {order : String → Value → Value → Except Fault Ordering} {eq ne lt gt le ge cmp : String}

theorem tells_ofOrder {o : Ordering} (h : ∀ op, order op a b = .ok o) :
    (ofOrder order eq ne lt gt le ge cmp).Tells a b o := by
  constructor <;> simp only [ofOrder, h] <;> cases o <;> rfl

theorem fails_ofOrder (h : ∀ op, ∃ fault, order op a b = .error fault ∧ fault.family = .type) :
    ∀ f ∈ (ofOrder order eq ne lt gt le ge cmp).operators, ∃ fault, f a b = .error fault ∧
      fault.family = .type := by
  have hfails : ∀ (op : String) (answer : Ordering → Value),
      ∃ fault, (do return answer (← order op a b)) = Except.error fault ∧ fault.family = .type := by
    intro op answer
    obtain ⟨fault, hfault, hfamily⟩ := h op
    exact ⟨fault, by rw [hfault]; rfl, hfamily⟩
  simp only [operators, List.forall_mem_cons]
  exact ⟨hfails eq _, hfails ne _, hfails lt _, hfails gt _, hfails le _, hfails ge _, hfails cmp _,
    List.forall_mem_nil _⟩

theorem tellsOneOrder_ofOrder {without : List Kind}
    (hfails : a.kind ∈ without ∨ b.kind ∈ without →
      ∀ op, ∃ fault, order op a b = .error fault ∧ fault.family = .type)
    (hfinds : a.kind ∉ without → b.kind ∉ without →
      ∃ o : Ordering, ∀ op, order op a b = .ok o ∧ order op b a = .ok o.swap) :
    (ofOrder order eq ne lt gt le ge cmp).TellsOneOrder a b without := by
  refine ⟨fun h => fails_ofOrder (hfails h), fun ha hb => ?_⟩
  obtain ⟨o, ho⟩ := hfinds ha hb
  refine ⟨o, tells_ofOrder fun op => (ho op).1, ?_⟩
  rw [(tells_ofOrder (a := b) (b := a) fun op => (ho op).2).cmp]
  cases o <;> rfl

end

end Comparison

/-! ### Views -/

/-- A view that some kinds of value lack and all others have, whatever operator asks for it. -/
structure IsView {α : Type} (view : String → Value → Except Fault α) (without : List Kind) : Prop where
  fails {v : Value} (h : v.kind ∈ without) (op : String) :
    ∃ fault, view op v = .error fault ∧ fault.family = .type
  finds {v : Value} (h : v.kind ∉ without) : ∃ x, ∀ op, view op v = .ok x

theorem isView_operand : IsView (fun op v => v.operand op) [Kind.bytes, Kind.list] where
  fails {v} h op := by
    cases v with
    | bytes | list => exact ⟨_, rfl, rfl⟩
    | _ => simp [kind] at h
  finds {v} h := by
    cases v with
    | bytes | list => simp [kind] at h
    | _ => exact ⟨_, fun _ => rfl⟩

theorem isView_textOperand : IsView (fun op v => v.textOperand op) [Kind.list] where
  fails {v} h op := by
    cases v with
    | list => exact ⟨_, rfl, rfl⟩
    | _ => simp [kind] at h
  finds {v} h := by
    cases v with
    | list => simp [kind] at h
    | _ => exact ⟨_, fun _ => rfl⟩

/-- Two operands cannot be read if one of them has no view. -/
theorem IsView.fails_of_pair {α β : Type} {view : String → Value → Except Fault α} {without : List Kind}
    (hview : IsView view without) {first second : Value}
    (h : first.kind ∈ without ∨ second.kind ∈ without) (op : String) (f : α → α → Except Fault β) :
    ∃ fault, (do f (← view op first) (← view op second)) = .error fault ∧ fault.family = .type := by
  by_cases hfirst : first.kind ∈ without
  · obtain ⟨fault, hfault, hfamily⟩ := hview.fails hfirst op
    exact ⟨fault, by rw [hfault]; rfl, hfamily⟩
  · obtain ⟨x, hx⟩ := hview.finds hfirst
    obtain ⟨fault, hfault, hfamily⟩ := hview.fails (h.resolve_left hfirst) op
    exact ⟨fault, by rw [hx, hfault]; rfl, hfamily⟩

/-! ### By number -/

section

variable {a b : Value} {x y : Number}

theorem compareNumbers_eq {op : String} (ha : a.operand op = .ok x) (hb : b.operand op = .ok y) :
    compareNumbers op a b = .ok (x.compare y) := by
  rw [compareNumbers, ha, hb]
  rfl

theorem numeric_tellsOneOrder (a b : Value) :
    Comparison.numeric.TellsOneOrder a b [Kind.bytes, Kind.list] := by
  rw [Comparison.numeric_eq_ofOrder]
  refine Comparison.tellsOneOrder_ofOrder (fun h op => isView_operand.fails_of_pair h.symm op _) fun ha hb => ?_
  obtain ⟨x, hx⟩ := isView_operand.finds ha
  obtain ⟨y, hy⟩ := isView_operand.finds hb
  refine ⟨x.compare y, fun op => ⟨compareNumbers_eq (hx op) (hy op), ?_⟩⟩
  rw [compareNumbers_eq (hy op) (hx op), Number.compare_swap]

/-- The answers on values with numeric views. -/
theorem numeric_tells (ha : a.toNumber = .ok x) (hb : b.toNumber = .ok y) :
    Comparison.numeric.Tells a b (x.compare y) := by
  rw [Comparison.numeric_eq_ofOrder]
  exact Comparison.tells_ofOrder fun op => compareNumbers_eq (operand_of_toNumber op ha) (operand_of_toNumber op hb)

end

/-! ### By text -/

section

variable {a b : Value} {s t : Text}

theorem textOperand_eq_ok_iff {op : String} : a.textOperand op = .ok s ↔ a.toText = .ok s := by
  cases a with
  | list => simp [textOperand, toText]
  | _ => exact Iff.rfl

/-- The order of texts by their first different byte; the start of a text comes before the whole. -/
def textOrder (s t : Text) : Ordering := if s < t then .lt else if s = t then .eq else .gt

theorem textOrder_swap (s t : Text) : textOrder t s = (textOrder s t).swap := by
  rcases Std.lt_trichotomy s t with hlt | rfl | hgt
  · have hne : t ≠ s := fun h => Std.lt_irrefl (h ▸ hlt)
    simp [textOrder, hlt, List.lt_asymm hlt, hne]
  · simp [textOrder, Std.lt_irrefl]
  · have hne : s ≠ t := fun h => Std.lt_irrefl (h ▸ hgt)
    simp [textOrder, hgt, List.lt_asymm hgt, hne]

theorem compareTexts_eq {op : String} (ha : a.textOperand op = .ok s) (hb : b.textOperand op = .ok t) :
    compareTexts op a b = .ok (textOrder s t) := by
  rw [compareTexts, ha, hb]
  rfl

theorem textual_tellsOneOrder (a b : Value) : Comparison.textual.TellsOneOrder a b [Kind.list] := by
  rw [Comparison.textual_eq_ofOrder]
  refine Comparison.tellsOneOrder_ofOrder (fun h op => isView_textOperand.fails_of_pair h op _) fun ha hb => ?_
  obtain ⟨s, hs⟩ := isView_textOperand.finds ha
  obtain ⟨t, ht⟩ := isView_textOperand.finds hb
  refine ⟨textOrder s t, fun op => ⟨compareTexts_eq (hs op) (ht op), ?_⟩⟩
  rw [compareTexts_eq (ht op) (hs op), textOrder_swap]

theorem textual_tells (ha : a.toText = .ok s) (hb : b.toText = .ok t) :
    Comparison.textual.Tells a b (textOrder s t) := by
  rw [Comparison.textual_eq_ofOrder]
  exact Comparison.tells_ofOrder fun op => compareTexts_eq (textOperand_eq_ok_iff.2 ha) (textOperand_eq_ok_iff.2 hb)

theorem textOrder_eq_lt_iff : textOrder s t = .lt ↔ s < t := by
  rw [textOrder]
  split_ifs <;> simp_all

theorem textOrder_eq_eq_iff : textOrder s t = .eq ↔ s = t := by
  rw [textOrder]
  split_ifs with hlt heq
  · have hne : s ≠ t := fun h => Std.lt_irrefl (h ▸ hlt)
    simp [hne]
  · simp [heq]
  · simp [heq]

theorem textOrder_ne_gt_iff : textOrder s t ≠ .gt ↔ s ≤ t := by
  rw [Ne, ← Ordering.swap_eq_lt, ← textOrder_swap, textOrder_eq_lt_iff]
  rfl

/-- Values that are compared by text have a text. -/
theorem exists_texts {v : Value} {f : Value → Value → Except Fault Value} (hf : f ∈ Comparison.textual.operators)
    (h : f a b = .ok v) : ∃ s t, a.toText = .ok s ∧ b.toText = .ok t := by
  by_cases hkinds : a.kind ∈ [Kind.list] ∨ b.kind ∈ [Kind.list]
  · obtain ⟨fault, hfault, -⟩ := (textual_tellsOneOrder a b).1 hkinds f hf
    rw [hfault] at h
    cases h
  · rw [not_or] at hkinds
    obtain ⟨s, hs⟩ := isView_textOperand.finds hkinds.1
    obtain ⟨t, ht⟩ := isView_textOperand.finds hkinds.2
    exact ⟨s, t, textOperand_eq_ok_iff.1 (hs "eq"), textOperand_eq_ok_iff.1 (ht "eq")⟩

end

/-! ### One order -/

theorem ok_bool_eq_one_iff {p : Prop} [Decidable p] :
    (.ok (bool (decide p)) : Except Fault Value) = .ok (.integer 1) ↔ p := by
  by_cases h : p <;> simp [bool, h]

theorem strEq_eq_one_iff {a b : Value} :
    strEq a b = .ok (.integer 1) ↔ ∃ t, a.toText = .ok t ∧ b.toText = .ok t := by
  constructor
  · intro h
    obtain ⟨s, t, hs, ht⟩ := exists_texts (f := strEq) (by simp [Comparison.operators, Comparison.textual]) h
    have heq := (textual_tells hs ht).eq.symm.trans h
    rw [ok_bool_eq_one_iff, textOrder_eq_eq_iff] at heq
    exact ⟨t, heq ▸ hs, ht⟩
  · rintro ⟨t, ha, hb⟩
    refine (textual_tells ha hb).eq.trans ?_
    rw [ok_bool_eq_one_iff, textOrder_eq_eq_iff]

theorem strLe_eq_one_iff {a b : Value} :
    strLe a b = .ok (.integer 1) ↔ ∃ s t, a.toText = .ok s ∧ b.toText = .ok t ∧ s ≤ t := by
  constructor
  · intro h
    obtain ⟨s, t, hs, ht⟩ := exists_texts (f := strLe) (by simp [Comparison.operators, Comparison.textual]) h
    have hle := (textual_tells hs ht).le.symm.trans h
    rw [ok_bool_eq_one_iff, textOrder_ne_gt_iff] at hle
    exact ⟨s, t, hs, ht, hle⟩
  · rintro ⟨s, t, hs, ht, hle⟩
    refine (textual_tells hs ht).le.trans ?_
    rwa [ok_bool_eq_one_iff, textOrder_ne_gt_iff]

theorem strLe_trans {a b c : Value} (hab : strLe a b = .ok (.integer 1)) (hbc : strLe b c = .ok (.integer 1)) :
    strLe a c = .ok (.integer 1) := by
  obtain ⟨s, t, hs, ht, hst⟩ := strLe_eq_one_iff.1 hab
  obtain ⟨t', u, ht', hu, htu⟩ := strLe_eq_one_iff.1 hbc
  obtain rfl : t = t' := Except.ok.inj (ht.symm.trans ht')
  exact strLe_eq_one_iff.2 ⟨s, u, hs, hu, List.le_trans hst htu⟩

/-- The seven operators of a family fail together or tell of one order, and of the opposite one for the swapped pair.
By number it is the order of the numeric views, by text that of their bytes; texts that compare as equal are the same,
and the order of texts is transitive. -/
theorem comparisons_tell_one_order (a b c : Value) :
    Comparison.numeric.TellsOneOrder a b [Kind.bytes, Kind.list] ∧
    (∀ x y, a.toNumber = .ok x → b.toNumber = .ok y → (numLt a b = .ok (.integer 1) ↔ x.Before y)) ∧
    Comparison.textual.TellsOneOrder a b [Kind.list] ∧
    (∀ s t, a.toText = .ok s → b.toText = .ok t → (strLt a b = .ok (.integer 1) ↔ s < t)) ∧
    (strEq a b = .ok (.integer 1) ↔ ∃ t, a.toText = .ok t ∧ b.toText = .ok t) ∧
    (strLe a b = .ok (.integer 1) → strLe b c = .ok (.integer 1) → strLe a c = .ok (.integer 1)) := by
  refine ⟨numeric_tellsOneOrder a b, fun x y ha hb => ?_, textual_tellsOneOrder a b, fun s t ha hb => ?_,
    strEq_eq_one_iff, strLe_trans⟩
  · have hlt : numLt a b = _ := (numeric_tells ha hb).lt
    rw [hlt, ok_bool_eq_one_iff, Number.compare_eq_lt_iff]
  · have hlt : strLt a b = _ := (textual_tells ha hb).lt
    rw [hlt, ok_bool_eq_one_iff, textOrder_eq_lt_iff]

end Value
end TagFormula

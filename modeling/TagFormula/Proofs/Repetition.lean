import TagFormula.Proofs.Comparisons
import TagFormula.Proofs.RadixRoundTrip

/-!
Repetition of a text. The bound on the size of the result is tested by a division, so that no product of the count
and the size of the text is formed. Main statement: the test is exact for all counts and sizes, and copies of a text
may be made in two parts.
-/

namespace TagFormula

/-- A text written a number of times; none if the number is negative. -/
def Text.copies (n : Int) (u : Text) : Text := (List.replicate n.toNat u).flatten

namespace Text

theorem copies_of_nonpos {n : Int} (hn : n ≤ 0) (u : Text) : copies n u = [] := by
  rw [copies, Int.toNat_of_nonpos hn]
  rfl

theorem copies_max (n : Int) (u : Text) : copies (max n 0) u = copies n u := by
  have hmax : (max n 0).toNat = n.toNat := by omega
  rw [copies, hmax, copies]

theorem copies_nil (n : Int) : copies n [] = [] := by simp [copies]

theorem copies_add {m n : Int} (hm : 0 ≤ m) (hn : 0 ≤ n) (u : Text) :
    copies (m + n) u = copies m u ++ copies n u := by
  rw [copies, Int.toNat_add hm hn, List.replicate_add, List.flatten_append]
  rfl

end Text

namespace Value

/-- Copies of a text are too long together, as a matter of arithmetic without a limit. -/
def TooLong (n : Int) (u : Text) : Prop := 0 < n ∧ 2 ^ 30 < n * u.length

/-- A quotient below the count tells that the product is above the bound. -/
theorem tooLong_iff {n : Int} {u : Text} (hn : 0 < n) (hu : u ≠ []) :
    TooLong n u ↔ n > maxRepeatSize / u.length := by
  have hsize : (0 : Int) < u.length := by exact_mod_cast List.length_pos_iff.2 hu
  have hbound : ((maxRepeatSize : Nat) : Int) = 2 ^ 30 := by decide
  rw [gt_iff_lt, Int.ediv_lt_iff_lt_mul hsize, hbound]
  exact ⟨fun h => h.2, fun h => ⟨hn, h⟩⟩

/-- Fewer copies are no longer. -/
theorem TooLong.of_le {m n : Int} {u : Text} (h : TooLong m u) (hle : m ≤ n) : TooLong n u := by
  have hsize : (0 : Int) ≤ u.length := Int.natCast_nonneg _
  exact ⟨Int.lt_of_lt_of_le h.1 hle, Int.lt_of_lt_of_le h.2 (Int.mul_le_mul_of_nonneg_right hle hsize)⟩

section

variable {v count : Value} {u : Text} {n : Int64}

theorem repeatText_eq (hu : v.toText = .ok u) (hn : count.toNumber = .ok (.integer n)) :
    repeatText v count =
      if n.toInt ≤ 0 ∨ u = [] then .ok (.string [])
      else if n.toInt > maxRepeatSize / u.length then .error (.repeatTooLong n.toInt)
      else .ok (.string (Text.copies n.toInt u)) := by
  simp only [repeatText, textOperand_eq_ok_iff.2 hu, operand_of_toNumber "x" hn, bind, Except.bind, pure, Except.pure,
    Number.toInt64, Text.copies]
  rfl

theorem repeatText_of_tooLong (hu : v.toText = .ok u) (hn : count.toNumber = .ok (.integer n))
    (h : TooLong n.toInt u) : repeatText v count = .error (.repeatTooLong n.toInt) := by
  have hne : u ≠ [] := by
    rintro rfl
    have := h.2
    simp at this
  rw [repeatText_eq hu hn, if_neg (by simpa [hne] using h.1), if_pos ((tooLong_iff h.1 hne).1 h)]

theorem repeatText_of_not_tooLong (hu : v.toText = .ok u) (hn : count.toNumber = .ok (.integer n))
    (h : ¬TooLong n.toInt u) : repeatText v count = .ok (.string (Text.copies n.toInt u)) := by
  rw [repeatText_eq hu hn]
  by_cases hnone : n.toInt ≤ 0 ∨ u = []
  · rw [if_pos hnone]
    rcases hnone with hle | rfl
    · rw [Text.copies_of_nonpos hle]
    · rw [Text.copies_nil]
  · obtain ⟨hpos, hne⟩ := not_or.1 hnone
    rw [if_neg hnone, if_neg fun hgt => h ((tooLong_iff (Int.not_le.1 hpos) hne).2 hgt)]

end

/-- Repetition fails, with a conversion fault, exactly if the copies have more than `2 ^ 30` bytes; else it yields
them. What it yields for a sum of two counts is what it yields for the two, one behind the other. -/
theorem repeatText_exact_additive (v : Value) (hv : v.kind ≠ .list) : ∃ u, v.toText = .ok u ∧
    (∀ (count : Value) (n : Int64), count.toNumber = .ok (.integer n) →
      ((∃ fault, repeatText v count = .error fault ∧ fault.family = .conversion) ↔
        0 < n.toInt ∧ 2 ^ 30 < n.toInt * u.length) ∧
      (¬(0 < n.toInt ∧ 2 ^ 30 < n.toInt * u.length) →
        repeatText v count = .ok (.string (Text.copies (max n.toInt 0) u)))) ∧
    ∀ (a b sum : Value) (m n s : Int64), a.toNumber = .ok (.integer m) → b.toNumber = .ok (.integer n) →
      sum.toNumber = .ok (.integer s) → 0 ≤ m.toInt → 0 ≤ n.toInt → s.toInt = m.toInt + n.toInt →
      ∀ w, repeatText v sum = .ok w →
        ∃ x y, repeatText v a = .ok x ∧ repeatText v b = .ok y ∧ concat x y = .ok w := by
  obtain ⟨u, hu⟩ := exists_toText hv
  refine ⟨u, hu, fun count n hn => ⟨⟨?_, ?_⟩, ?_⟩, ?_⟩
  · rintro ⟨fault, hfault, -⟩
    by_contra hfits
    rw [repeatText_of_not_tooLong hu hn hfits] at hfault
    cases hfault
  · exact fun hlong => ⟨_, repeatText_of_tooLong hu hn hlong, rfl⟩
  · intro hfits
    rw [repeatText_of_not_tooLong hu hn hfits, Text.copies_max]
  · intro a b sum m n s hm hn hs hm0 hn0 hsum w hw
    have hfits : ¬TooLong s.toInt u := by
      intro hlong
      rw [repeatText_of_tooLong hu hs hlong] at hw
      cases hw
    rw [repeatText_of_not_tooLong hu hs hfits, hsum, Text.copies_add hm0 hn0] at hw
    cases hw
    exact ⟨_, _, repeatText_of_not_tooLong hu hm fun hlong => hfits (hlong.of_le (by omega)),
      repeatText_of_not_tooLong hu hn fun hlong => hfits (hlong.of_le (by omega)), rfl⟩

/-- The largest number of copies of two bytes, with the count read from a text; one copy more; and the largest number
in two parts. -/
theorem repeatText_exact_additive_pair :
    (integer 42).kind ≠ .list ∧ ¬(2 ^ 30 : Int) < 536870912 * 2 ∧ (2 ^ 30 : Int) < 536870913 * 2 ∧
    repeatText (integer 42) (string (ascii "536870912 x")) = .ok (.string (Text.copies 536870912 (ascii "42"))) ∧
    (∃ fault, repeatText (integer 42) (integer 536870913) = .error fault ∧ fault.family = .conversion) ∧
    ∃ x y, repeatText (integer 42) (integer 536870911) = .ok x ∧ repeatText (integer 42) (integer 1) = .ok y ∧
      concat x y = .ok (.string (Text.copies 536870912 (ascii "42"))) := by
  obtain ⟨u, hu, hbound, hsum⟩ := repeatText_exact_additive (integer 42) (by decide)
  obtain rfl : ascii "42" = u := Except.ok.inj hu
  have hmost : repeatText (integer 42) (string (ascii "536870912 x")) = _ :=
    (hbound _ 536870912 (by decide +kernel)).2 (by decide)
  refine ⟨by decide, by decide, by decide, hmost, (hbound (integer 536870913) 536870913 rfl).1.2 (by decide), ?_⟩
  exact hsum (integer 536870911) (integer 1) (string (ascii "536870912 x")) 536870911 1 536870912 rfl rfl
    (by decide +kernel) (by decide) (by decide) (by decide) _ hmost

end Value
end TagFormula

import TagFormula.Double.Decimal
import TagFormula.Proofs.PrefixCode

/-!
The bytes of written numbers. Main statement: whatever the word, its seventeen digits are written with letters,
digits, points and signs only.
-/

namespace TagFormula

/-- Bytes of numbers: letters for an exponent and for what is not finite, digits, the point and the signs. -/
def Byte.isNumeral (b : UInt8) : Bool := isWord b || b == ch '.' || b == ch '+' || b == ch '-'

theorem Byte.isNumeral_of_isDigit {b : UInt8} (h : isDigit b) : isNumeral b := by
  simp [isNumeral, isWord, isAlnum, h]

/-- Only bytes of numbers. -/
def Numeral (t : Text) : Prop := ∀ b ∈ t, Byte.isNumeral b

instance : DecidablePred Numeral := fun _ => decidable_of_iff _ List.all_eq_true

theorem numeral_append {t u : Text} : Numeral (t ++ u) ↔ Numeral t ∧ Numeral u := List.forall_mem_append

theorem Numeral.subset {t u : Text} (h : Numeral t) (hu : u ⊆ t) : Numeral u := fun b hb => h b (hu hb)

theorem Numeral.cons {b : UInt8} {t : Text} (hb : Byte.isNumeral b) (h : Numeral t) : Numeral (b :: t) :=
  List.forall_mem_cons.2 ⟨hb, h⟩

/-- A byte that numbers do not have is in none. -/
theorem Numeral.notMem {t : Text} (h : Numeral t) {c : UInt8} (hc : Byte.isNumeral c = false) : c ∉ t := by
  intro hmem
  rw [h c hmem] at hc
  cases hc

theorem numeral_ofNat (n : Nat) : Numeral (Text.ofNat n) :=
  fun b hb => Byte.isNumeral_of_isDigit (Text.isDigit_of_mem_ofNat n b hb)

theorem numeral_ofInt (i : Int) : Numeral (Text.ofInt i) := by
  intro b hb
  rcases Source.isDigit_or_of_mem_ofInt hb with h | rfl
  · exact Byte.isNumeral_of_isDigit h
  · decide

theorem numeral_replicate_zero (n : Nat) : Numeral (List.replicate n (ch '0')) := by
  intro b hb
  rw [List.eq_of_mem_replicate hb]
  decide

theorem numeral_pointAnd (keepPoint : Bool) {digits : Text} (h : Numeral digits) :
    Numeral (Double.pointAnd keepPoint digits) := by
  unfold Double.pointAnd
  split_ifs
  · exact fun _ hb => nomatch hb
  · exact h.cons (by decide)

theorem numeral_exponentText (x : Int) : Numeral (Double.exponentText x) := by
  refine Numeral.cons (by split_ifs <;> decide) ?_
  split_ifs
  · exact (numeral_ofNat _).cons (by decide)
  · exact numeral_ofNat _

theorem numeral_digits (num den places : Nat) :
    Numeral (Double.Scientific.ofFraction num den places).digits := by
  unfold Double.Scientific.ofFraction
  split_ifs
  · exact numeral_replicate_zero _
  · dsimp only
    split_ifs
    · exact numeral_ofNat _
    · exact numeral_ofNat _

theorem numeral_fixedText (keepPoint : Bool) (num den places : Nat) :
    Numeral (Double.fixedText keepPoint num den places) := by
  have hpadded (n m : Nat) : Numeral (List.replicate n (ch '0') ++ Text.ofNat m) :=
    numeral_append.2 ⟨numeral_replicate_zero n, numeral_ofNat m⟩
  exact numeral_append.2 ⟨(hpadded _ _).subset (List.take_subset ..),
    numeral_pointAnd keepPoint ((hpadded _ _).subset (List.drop_subset ..))⟩

theorem numeral_dropTrailingZeros {t : Text} (h : Numeral t) : Numeral (Double.dropTrailingZeros t) := by
  intro b hb
  have hmem : b ∈ t.reverse := (List.dropWhile_sublist _).subset (List.mem_reverse.1 hb)
  exact h b (List.mem_reverse.1 hmem)

theorem numeral_generalText (keepPoint : Bool) (num den precision : Nat) :
    Numeral (Double.generalText keepPoint num den precision) := by
  have hfraction {t : Text} (h : Numeral t) :
      Numeral (if keepPoint then t else Double.dropTrailingZeros t) := by
    split_ifs
    · exact h
    · exact numeral_dropTrailingZeros h
  unfold Double.generalText
  dsimp only
  split
  · have htext := numeral_fixedText keepPoint num den
    refine numeral_append.2 ⟨(htext _).subset (List.takeWhile_sublist _).subset, ?_⟩
    exact numeral_pointAnd keepPoint (hfraction ((htext _).subset (List.drop_subset ..)))
  · have hdigits := numeral_digits num den (max precision 1 - 1)
    refine numeral_append.2 ⟨numeral_append.2 ⟨hdigits.subset (List.take_subset ..), ?_⟩, ?_⟩
    · exact numeral_pointAnd keepPoint (hfraction (hdigits.subset (List.drop_subset ..)))
    · exact (numeral_exponentText _).cons (by decide)

theorem numeral_toExact (d : Double) : Numeral d.toExact := by
  refine numeral_append.2 ⟨by split_ifs <;> decide, ?_⟩
  unfold Double.magnitudeText
  split_ifs
  · decide
  · decide
  · exact numeral_generalText false d.fraction.1 d.fraction.2 17

end TagFormula

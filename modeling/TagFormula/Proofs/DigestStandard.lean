import Mathlib.Analysis.SpecialFunctions.Pow.NthRootLemmas
import Mathlib.Data.List.GetD
import Mathlib.Data.Nat.Prime.Basic
import TagFormula.Digest

/-!
SHA-256 as its standard states it: words are 32 bits with addition modulo 2³², the words of a schedule and the
eight variables are numbered, and the constants come from roots of prime numbers. Main statement: folding a
block into a state is the standard's computation on that block.
-/

namespace TagFormula.Digest

namespace Standard

/-! ### The standard -/

abbrev Word := BitVec 32

def choice (x y z : Word) : Word := (x &&& y) ^^^ (~~~x &&& z)

def majority (x y z : Word) : Word := (x &&& y) ^^^ (x &&& z) ^^^ (y &&& z)

def bigSigma0 (x : Word) : Word := x.rotateRight 2 ^^^ x.rotateRight 13 ^^^ x.rotateRight 22

def bigSigma1 (x : Word) : Word := x.rotateRight 6 ^^^ x.rotateRight 11 ^^^ x.rotateRight 25

def smallSigma0 (x : Word) : Word := x.rotateRight 7 ^^^ x.rotateRight 18 ^^^ x >>> 3

def smallSigma1 (x : Word) : Word := x.rotateRight 17 ^^^ x.rotateRight 19 ^^^ x >>> 10

/-- The first 64 prime numbers. -/
def primes : List Nat := (List.range 312).filter Nat.Prime

/-- The first 32 bits of the fractional part of a root. -/
def rootFraction (degree p : Nat) : Word := BitVec.ofNat 32 (Nat.nthRoot degree (p * 2 ^ (32 * degree)))

/-- The constant of a round: from the cube root of a prime number. -/
def roundConstant (t : Nat) : Word := rootFraction 3 (primes.getD t 0)

/-- A hash value, or the working variables of a block. -/
structure Hash where
  a : Word
  b : Word
  c : Word
  d : Word
  e : Word
  f : Word
  g : Word
  h : Word
  deriving DecidableEq, Repr

/-- The hash value before the first block: from the square roots of the first eight prime numbers. -/
def initialHash : Hash :=
  let root (i : Nat) : Word := rootFraction 2 (primes.getD i 0)
  ⟨root 0, root 1, root 2, root 3, root 4, root 5, root 6, root 7⟩

/-- The word with a number in a block of bytes, the first byte highest. -/
def blockWord (block : Text) (t : Nat) : Word :=
  let byte (i : Nat) : BitVec 8 := (block.getD (4 * t + i) 0).toBitVec
  byte 0 ++ byte 1 ++ byte 2 ++ byte 3

/-- The word with a number in the schedule of a block. -/
def scheduleWord (block : Text) (t : Nat) : Word :=
  if t < 16 then blockWord block t
  else smallSigma1 (scheduleWord block (t - 2)) + scheduleWord block (t - 7)
    + smallSigma0 (scheduleWord block (t - 15)) + scheduleWord block (t - 16)
termination_by t

/-- One round on the working variables. -/
def round (k w : Word) (v : Hash) : Hash :=
  let t1 := v.h + bigSigma1 v.e + choice v.e v.f v.g + k + w
  let t2 := bigSigma0 v.a + majority v.a v.b v.c
  ⟨t1 + t2, v.a, v.b, v.c, v.d + t1, v.e, v.f, v.g⟩

/-- The working variables after the first rounds on a block. -/
def rounds (block : Text) (v : Hash) : Nat → Hash
  | 0 => v
  | t + 1 => round (roundConstant t) (scheduleWord block t) (rounds block v t)

/-- The next hash value. -/
def nextHash (v : Hash) (block : Text) : Hash :=
  let w := rounds block v 64
  ⟨v.a + w.a, v.b + w.b, v.c + w.c, v.d + w.d, v.e + w.e, v.f + w.f, v.g + w.g, v.h + w.h⟩

/-- The 64 bytes with a number in a message. -/
def block (message : Text) (i : Nat) : Text := (message.drop (64 * i)).take 64

/-- The hash value after the first blocks of a message. -/
def hashAfter (message : Text) : Nat → Hash
  | 0 => initialHash
  | i + 1 => nextHash (hashAfter message i) (block message i)

/-- The bytes of a word, highest first. -/
def wordBytes (w : Word) : Text := [24, 16, 8, 0].map fun i => UInt8.ofBitVec (w.extractLsb' i 8)

def Hash.bytes (v : Hash) : Text := [v.a, v.b, v.c, v.d, v.e, v.f, v.g, v.h].flatMap wordBytes

theorem exists_zeros (n : Nat) : ∃ k, (n + 1 + k) % 64 = 56 := ⟨119 - n % 64, by omega⟩

/-- The number of zero bytes behind a message: the least that leaves eight bytes to the end of a block. -/
def zeros (n : Nat) : Nat := Nat.find (exists_zeros n)

/-- The eight bytes of a number below 2⁶⁴, highest first. -/
def eightBytes (n : Nat) : Text := (List.range 8).map fun i => (n / 256 ^ (7 - i)).toUInt8

/-- A message with a one bit, zeros and its length in bits behind it. -/
def padded (message : Text) : Text :=
  message ++ [0x80] ++ List.replicate (zeros message.length) 0 ++ eightBytes (8 * message.length)

/-- The digest, which is defined for messages of less than 2⁶⁴ bits. -/
def digest? (message : Text) : Option Text :=
  if 8 * message.length < 2 ^ 64 then
    some (hashAfter (padded message) ((padded message).length / 64)).bytes
  else none

end Standard

open Standard

/-! ### Constants -/

theorem Standard.rootFraction_eq {degree p r : Nat} (hd : degree ≠ 0)
    (hle : r ^ degree ≤ p * 2 ^ (32 * degree)) (hlt : p * 2 ^ (32 * degree) < (r + 1) ^ degree) :
    rootFraction degree p = BitVec.ofNat 32 r := by
  have hroot : Nat.nthRoot degree (p * 2 ^ (32 * degree)) = r := by
    have hlow := Nat.pow_nthRoot_le (n := degree) (a := p * 2 ^ (32 * degree)) (.inl hd)
    have hhigh := Nat.lt_pow_nthRoot_add_one hd (p * 2 ^ (32 * degree))
    have h₁ := lt_of_pow_lt_pow_left₀ degree (Nat.zero_le _) (Nat.lt_of_le_of_lt hle hhigh)
    have h₂ := lt_of_pow_lt_pow_left₀ degree (Nat.zero_le _) (Nat.lt_of_le_of_lt hlow hlt)
    omega
  rw [rootFraction, hroot]

/-- A word is the fractional part of a root below eight: it is one once the right whole part is put in front. -/
def isRootFraction (degree p : Nat) (w : UInt32) : Bool :=
  (List.range 8).any fun whole =>
    let r := whole * 2 ^ 32 + w.toNat
    decide (r ^ degree ≤ p * 2 ^ (32 * degree)) && decide (p * 2 ^ (32 * degree) < (r + 1) ^ degree)

theorem rootFraction_of_isRootFraction {degree p : Nat} {w : UInt32} (hd : degree ≠ 0)
    (h : isRootFraction degree p w) : rootFraction degree p = w.toBitVec := by
  obtain ⟨whole, -, hroot⟩ := List.any_eq_true.1 h
  rw [Bool.and_eq_true, decide_eq_true_eq, decide_eq_true_eq] at hroot
  rw [rootFraction_eq hd hroot.1 hroot.2]
  apply BitVec.eq_of_toNat_eq
  rw [BitVec.toNat_ofNat, Nat.mul_comm, Nat.mul_add_mod]
  exact Nat.mod_eq_of_lt w.toNat_lt

/-- The words that are found are the fractional parts of the roots. -/
theorem eq_map_rootFraction {degree : Nat} (hd : degree ≠ 0) {ps : List Nat} {ws : List UInt32}
    (hlength : ps.length = ws.length) (h : (ps.zip ws).all fun pw => isRootFraction degree pw.1 pw.2) :
    ws = ps.map fun p => .ofBitVec (rootFraction degree p) := by
  induction ps generalizing ws with
  | nil => exact List.length_eq_zero_iff.1 hlength.symm
  | cons p ps ih =>
    cases ws with
    | nil => cases hlength
    | cons w ws =>
      rw [List.zip_cons_cons, List.all_cons, Bool.and_eq_true] at h
      rw [List.map_cons, rootFraction_of_isRootFraction hd h.1, ← ih (Nat.succ.inj hlength) h.2]

/-- Whether a number has no divisor from two to seventeen but itself. -/
def hasNoSmallDivisor (n : Nat) : Bool :=
  decide (2 ≤ n) && (List.range 18).all fun m => m < 2 || m == n || n % m != 0

theorem prime_iff_hasNoSmallDivisor {n : Nat} (h : n < 18 * 18) : n.Prime ↔ hasNoSmallDivisor n := by
  have hsqrt : n.sqrt < 18 := Nat.sqrt_lt.2 h
  simp only [hasNoSmallDivisor, Bool.and_eq_true, decide_eq_true_eq, List.all_eq_true, List.mem_range,
    Bool.or_eq_true, beq_iff_eq, bne_iff_ne, ne_eq, ← Nat.dvd_iff_mod_eq_zero]
  constructor
  · intro hp
    refine ⟨hp.two_le, fun m _ => ?_⟩
    by_cases hdvd : m ∣ n
    · rcases hp.eq_one_or_self_of_dvd m hdvd with rfl | rfl
      · exact .inl (.inl (by decide))
      · exact .inl (.inr rfl)
    · exact .inr hdvd
  · rintro ⟨htwo, hsmall⟩
    refine Nat.prime_def_le_sqrt.2 ⟨htwo, fun m hm hle hdvd => ?_⟩
    rcases hsmall m (by omega) with (hlt | rfl) | hnot
    · omega
    · exact absurd hle (Nat.not_le.2 (Nat.sqrt_lt_self htwo))
    · exact hnot hdvd

theorem primes_eq : primes =
    [2, 3, 5, 7, 11, 13, 17, 19, 23, 29, 31, 37, 41, 43, 47, 53, 59, 61, 67, 71, 73, 79, 83, 89, 97, 101, 103,
      107, 109, 113, 127, 131, 137, 139, 149, 151, 157, 163, 167, 173, 179, 181, 191, 193, 197, 199, 211, 223,
      227, 229, 233, 239, 241, 251, 257, 263, 269, 271, 277, 281, 283, 293, 307, 311] := by
  have hfilter : primes = (List.range 312).filter hasNoSmallDivisor := by
    refine List.filter_congr fun n hn => ?_
    have hlt := List.mem_range.1 hn
    rw [Bool.eq_iff_iff, decide_eq_true_eq]
    exact prime_iff_hasNoSmallDivisor (by omega)
  rw [hfilter]
  decide +kernel

theorem map_getD_range {α β : Type} (f : α → β) (d : α) (l : List α) :
    (List.range l.length).map (fun t => f (l.getD t d)) = l.map f := by
  refine List.ext_getElem (by simp) fun t _ ht => ?_
  rw [List.length_map] at ht
  rw [List.getElem_map, List.getElem_map, List.getElem_range, List.getD_eq_getElem _ _ ht]

theorem constants_eq : constants = (List.range 64).map fun t => .ofBitVec (roundConstant t) := by
  have hroots : constants = primes.map fun p => .ofBitVec (rootFraction 3 p) := by
    rw [primes_eq]
    exact eq_map_rootFraction (by decide) (by decide +kernel) (by decide +kernel)
  have hlength : primes.length = 64 := congrArg List.length primes_eq
  rw [hroots, ← map_getD_range _ 0, hlength]
  rfl

/-- The words of a state as those of a hash value. -/
def State.toHash (s : State) : Hash :=
  ⟨s.a.toBitVec, s.b.toBitVec, s.c.toBitVec, s.d.toBitVec, s.e.toBitVec, s.f.toBitVec, s.g.toBitVec,
    s.h.toBitVec⟩

theorem toHash_initial : initial.toHash = initialHash := by
  have hroots : [initial.a, initial.b, initial.c, initial.d, initial.e, initial.f, initial.g, initial.h]
      = [2, 3, 5, 7, 11, 13, 17, 19].map fun p => .ofBitVec (rootFraction 2 p) :=
    eq_map_rootFraction (by decide) rfl (by decide +kernel)
  simp only [List.map_cons, List.map_nil, List.cons.injEq, and_true] at hroots
  obtain ⟨ha, hb, hc, hd, he, hf, hg, hh⟩ := hroots
  rw [State.toHash, ha, hb, hc, hd, he, hf, hg, hh, initialHash, primes_eq]
  rfl

/-! ### Blocks -/

theorem toBitVec_rotateRight (x : UInt32) {n : UInt32} (hpos : 0 < n.toNat) (hlt : n.toNat < 32) :
    (rotateRight x n).toBitVec = x.toBitVec.rotateRight n.toNat := by
  have hright : n.toNat % 32 = n.toNat := Nat.mod_eq_of_lt hlt
  have hleft : (4294967296 - n.toNat) % 32 = 32 - n.toNat := by omega
  simp [rotateRight, BitVec.rotateRight, BitVec.rotateRightAux, hright, hleft]

theorem toBitVec_bytes (p q r s : UInt8) :
    ((p.toUInt32 <<< 24) ||| (q.toUInt32 <<< 16) ||| (r.toUInt32 <<< 8) ||| s.toUInt32).toBitVec
      = p.toBitVec ++ q.toBitVec ++ r.toBitVec ++ s.toBitVec := by
  refine BitVec.eq_of_getLsbD_eq fun i hi => ?_
  have hout : ∀ (b : UInt8) (j : Nat), 8 ≤ j → b.toBitVec.getLsbD j = false := fun b j hj =>
    BitVec.getLsbD_of_ge _ _ hj
  have h24 : (UInt32.toBitVec 24 % 32).toNat = 24 := rfl
  have h16 : (UInt32.toBitVec 16 % 32).toNat = 16 := rfl
  have h8 : (UInt32.toBitVec 8 % 32).toNat = 8 := rfl
  rw [BitVec.getLsbD_append, BitVec.getLsbD_append, BitVec.getLsbD_append]
  simp only [UInt32.toBitVec_or, UInt32.toBitVec_shiftLeft, UInt8.toBitVec_toUInt32, BitVec.getLsbD_or,
    BitVec.shiftLeft_eq', BitVec.getLsbD_shiftLeft, BitVec.getLsbD_setWidth, h24, h16, h8, Nat.sub_sub]
  grind

/-- A word of the schedule as the model has it. -/
def scheduled (block : Text) (t : Nat) : UInt32 := .ofBitVec (scheduleWord block t)

theorem blockWord_cons (p q r s : UInt8) (rest : Text) (t : Nat) :
    blockWord (p :: q :: r :: s :: rest) (t + 1) = blockWord rest t := by
  have hindex : ∀ i, 4 * (t + 1) + i = 4 * t + i + 4 := by omega
  simp only [blockWord, hindex, List.getD_cons_succ, Nat.add_zero]

theorem words_eq {n : Nat} {block : Text} (h : block.length = 4 * n) :
    words block = (List.range n).map fun t => UInt32.ofBitVec (blockWord block t) := by
  induction n generalizing block with
  | zero =>
    obtain rfl := List.length_eq_zero_iff.1 h
    rfl
  | succ n ih =>
    obtain ⟨p, q, r, s, rest, rfl⟩ : ∃ p q r s rest, block = p :: q :: r :: s :: rest := by
      rcases block with - | ⟨p, - | ⟨q, - | ⟨r, - | ⟨s, rest⟩⟩⟩⟩
      case cons.cons.cons.cons => exact ⟨p, q, r, s, rest, rfl⟩
      all_goals
        rw [eq_comm] at h
        simp only [List.length_cons, List.length_nil, Nat.reduceAdd] at h
        omega
    have hrest : rest.length = 4 * n := by
      simp only [List.length_cons] at h
      omega
    rw [words, ih hrest, List.range_succ_eq_map, List.map_cons, List.map_map]
    refine List.cons_eq_cons.2 ⟨?_, List.map_congr_left fun t _ => ?_⟩
    · rw [← UInt32.toBitVec_inj, toBitVec_bytes]
      rfl
    · rw [Function.comp_apply, blockWord_cons]

/-- The words of a schedule, latest first. -/
def latest (block : Text) (n : Nat) : List UInt32 := ((List.range n).map (scheduled block)).reverse

theorem latest_succ (block : Text) (n : Nat) :
    latest block (n + 1) = scheduled block n :: latest block n := by
  rw [latest, List.range_succ, List.map_append, List.reverse_append]
  rfl

theorem getD_latest {block : Text} {n i : Nat} (h : i < n) :
    (latest block n).getD i 0 = scheduled block (n - 1 - i) := by
  have hi : i < (latest block n).length := by simpa [latest] using h
  rw [List.getD_eq_getElem _ _ hi]
  simp [latest]

theorem nextWord_latest {block : Text} {n : Nat} (h : 16 ≤ n) :
    nextWord (latest block n) = scheduled block n := by
  have hback : ∀ k, 1 ≤ k → k ≤ 16 → (latest block n).getD (k - 1) 0 = scheduled block (n - k) := by
    intro k hk hk'
    rw [getD_latest (by omega)]
    congr 1
    omega
  have hword : scheduleWord block n = smallSigma1 (scheduleWord block (n - 2)) + scheduleWord block (n - 7)
      + smallSigma0 (scheduleWord block (n - 15)) + scheduleWord block (n - 16) := by
    rw [scheduleWord, if_neg (by omega)]
  rw [← UInt32.toBitVec_inj]
  simp only [nextWord, hback 16 (by decide) (by decide), hback 15 (by decide) (by decide),
    hback 7 (by decide) (by decide), hback 2 (by decide) (by decide)]
  simp only [scheduled, hword, smallSigma0, smallSigma1, UInt32.toBitVec_add, UInt32.toBitVec_xor]
  simp [toBitVec_rotateRight]
  ac_rfl

theorem extend_latest {block : Text} (k : Nat) {n : Nat} (h : 16 ≤ n) :
    extend k (latest block n) = latest block (n + k) := by
  induction k generalizing n with
  | zero => rfl
  | succ k ih =>
    rw [extend, nextWord_latest h, ← latest_succ, ih (by omega)]
    congr 1
    omega

theorem schedule_eq {block : Text} (h : block.length = 64) :
    schedule block = (List.range 64).map (scheduled block) := by
  have hwords : (words block).reverse = latest block 16 := by
    rw [words_eq (n := 16) h, latest]
    congr 1
    refine List.map_congr_left fun t ht => ?_
    rw [scheduled, scheduleWord, if_pos (List.mem_range.1 ht)]
  rw [schedule, hwords, extend_latest 48 (Nat.le_refl 16), latest, List.reverse_reverse]

theorem toHash_step (v : State) (k w : UInt32) :
    (step v (k, w)).toHash = Standard.round k.toBitVec w.toBitVec v.toHash := by
  simp [step, Standard.round, State.toHash, bigSigma1, bigSigma0, choice, majority, toBitVec_rotateRight]

theorem toHash_steps (block : Text) (s : State) (n : Nat) :
    (((List.range n).map fun t => (UInt32.ofBitVec (roundConstant t), scheduled block t)).foldl step s).toHash
      = rounds block s.toHash n := by
  induction n with
  | zero => rfl
  | succ n ih =>
    rw [List.range_succ, List.map_append, List.foldl_append, List.map_singleton, List.foldl_cons,
      List.foldl_nil, toHash_step, ih]
    rfl

/-- Folding a block into a state gives the next hash value. -/
theorem toHash_compress (s : State) {block : Text} (h : block.length = 64) :
    (compress s block).toHash = nextHash s.toHash block := by
  have hzip : constants.zip (schedule block)
      = (List.range 64).map fun t => (UInt32.ofBitVec (roundConstant t), scheduled block t) := by
    rw [constants_eq, schedule_eq h, List.zip_map']
  rw [nextHash, ← toHash_steps, ← hzip]
  simp [compress, State.toHash]

theorem bytes_toHash (s : State) : s.toHash.bytes = s.bytes := by
  have hword : ∀ w : UInt32, Standard.wordBytes w.toBitVec = wordBytes w := by
    intro w
    simp only [Standard.wordBytes, wordBytes, List.map_cons, List.map_nil, List.cons.injEq, and_true,
      ← UInt8.toBitVec_inj, UInt32.toBitVec_toUInt8, UInt32.toBitVec_shiftRight]
    exact ⟨rfl, rfl, rfl, rfl⟩
  simp only [Hash.bytes, State.bytes, State.toHash, List.flatMap_cons, List.flatMap_nil, hword]

end TagFormula.Digest

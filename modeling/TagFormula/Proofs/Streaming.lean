import Mathlib.Data.List.Induction
import TagFormula.Formula
import TagFormula.Proofs.DigestStandard

/-!
Hashing in pieces. A hash in progress is known by the bytes it took, however they were cut: its state is the
hash value after the full blocks, and the rest waits in the buffer. Main statement: the digest of pieces is
that of the standard for all of them together, no byte is written outside of the block, and the identifier of
a formula is the start of the digest of a text from which the formula can be read back.
-/

namespace TagFormula.Digest

open Standard

/-! ### Blocks of a message that grows -/

theorem block_append {t : Text} (u : Text) {i : Nat} (h : 64 * (i + 1) ≤ t.length) :
    block (t ++ u) i = block t i := by
  rw [block, block, List.drop_append_of_le_length (by omega),
    List.take_append_of_le_length (by rw [List.length_drop]; omega)]

theorem hashAfter_append {t : Text} (u : Text) {n : Nat} (h : 64 * n ≤ t.length) :
    hashAfter (t ++ u) n = hashAfter t n := by
  induction n with
  | zero => rfl
  | succ n ih => rw [hashAfter, hashAfter, ih (by omega), block_append u h]

/-- The bytes behind the last full block. -/
def unblocked (t : Text) : Text := t.drop (64 * (t.length / 64))

theorem length_unblocked (t : Text) : (unblocked t).length = t.length % 64 := by
  rw [unblocked, List.length_drop]
  omega

theorem unblocked_eq_nil {t : Text} (h : t.length % 64 = 0) : unblocked t = [] := by
  rw [← List.length_eq_zero_iff, length_unblocked, h]

/-- Bytes that fill the last block complete one more. -/
theorem hashAfter_fill {t fill : Text} (h : t.length % 64 + fill.length = 64) (more : Text) :
    hashAfter (t ++ fill ++ more) (t.length / 64 + 1)
      = nextHash (hashAfter t (t.length / 64)) (unblocked t ++ fill) := by
  have hblock : block (t ++ fill) (t.length / 64) = unblocked t ++ fill := by
    have hlength : (unblocked t ++ fill).length = 64 := by rw [List.length_append, length_unblocked, h]
    rw [block, List.drop_append_of_le_length (by omega)]
    exact List.take_of_length_le (Nat.le_of_eq hlength)
  rw [hashAfter_append more (by rw [List.length_append]; omega), hashAfter, hblock,
    hashAfter_append fill (by omega)]

/-! ### Taking bytes -/

namespace Hasher

/-- A hash in progress has taken these bytes. -/
structure Took (s : Hasher) (t : Text) : Prop where
  state : s.state.toHash = hashAfter t (t.length / 64)
  buffer : s.buffer.toList = unblocked t
  total : s.total = UInt64.ofNat t.length

theorem took_empty : Took empty [] := ⟨toHash_initial, rfl, rfl⟩

theorem Took.push {s : Hasher} {t : Text} (h : Took s t) (b : UInt8) : Took (s.push b) (t ++ [b]) := by
  have hsize : s.buffer.size = t.length % 64 := by
    rw [← Array.length_toList, h.buffer, length_unblocked]
  have htotal : s.total + 1 = UInt64.ofNat (t ++ [b]).length := by
    rw [h.total, List.length_append, UInt64.ofNat_add]
    rfl
  have hbuffer : (s.buffer.push b).toList = unblocked t ++ [b] := by rw [Array.toList_push, h.buffer]
  unfold Hasher.push
  split
  · rename_i hroom
    have hblocks : (t ++ [b]).length / 64 = t.length / 64 := by
      rw [List.length_append, List.length_singleton]
      omega
    refine ⟨?_, ?_, htotal⟩
    · rw [hblocks, hashAfter_append [b] (by omega)]
      exact h.state
    · rw [hbuffer, unblocked, unblocked, hblocks, List.drop_append_of_le_length (by omega)]
  · rename_i hfull
    have hlast : t.length % 64 + [b].length = 64 := by
      have := s.buffer_size_lt
      rw [List.length_singleton]
      omega
    have hblocks : (t ++ [b]).length / 64 = t.length / 64 + 1 := by
      rw [List.length_append, List.length_singleton]
      rw [List.length_singleton] at hlast
      omega
    refine ⟨?_, ?_, htotal⟩
    · have hlength : (unblocked t ++ [b]).length = 64 := by rw [List.length_append, length_unblocked, hlast]
      have hhash := hashAfter_fill hlast []
      rw [List.append_nil] at hhash
      rw [hbuffer, toHash_compress _ hlength, h.state, hblocks, hhash]
    · refine (unblocked_eq_nil ?_).symm
      rw [List.length_append]
      omega

theorem Took.update {s : Hasher} {t : Text} (h : Took s t) (piece : Text) :
    Took (s.update piece) (t ++ piece) := by
  induction piece generalizing s t with
  | nil =>
    rw [List.append_nil]
    exact h
  | cons b piece ih =>
    rw [List.append_cons]
    exact ih (h.push b)

theorem took_pieces (pieces : List Text) : Took (pieces.foldl Hasher.update empty) pieces.flatten := by
  have hrun : ∀ (s : Hasher) (t : Text), Took s t → Took (pieces.foldl Hasher.update s) (t ++ pieces.flatten) := by
    induction pieces with
    | nil =>
      intro s t h
      rw [List.flatten_nil, List.append_nil]
      exact h
    | cons piece pieces ih =>
      intro s t h
      rw [List.flatten_cons, ← List.append_assoc]
      exact ih _ _ (h.update piece)
  exact hrun empty [] took_empty

/-! ### The end -/

theorem zeros_spec (n : Nat) : (n + 1 + zeros n) % 64 = 56 ∧ zeros n < 64 := by
  refine ⟨Nat.find_spec (exists_zeros n), ?_⟩
  have hle : zeros n ≤ (119 - n % 64) % 64 := Nat.find_min' (exists_zeros n) (by omega)
  omega

theorem length_eightBytes (n : Nat) : (eightBytes n).length = 8 := rfl

theorem length_padded (t : Text) : (padded t).length = t.length + 1 + zeros t.length + 8 := by
  simp only [padded, List.length_append, List.length_replicate, List.length_singleton, length_eightBytes]

theorem Took.lengthBytes {s : Hasher} {t : Text} (h : Took s t) (hlt : t.length < 2 ^ 61) :
    s.lengthBytes = eightBytes (8 * t.length) := by
  have hbits : (s.total * 8).toNat = 8 * t.length := by
    have hlength : t.length % 2 ^ 64 = t.length := Nat.mod_eq_of_lt (by omega)
    have height : (8 : UInt64).toNat = 8 := rfl
    rw [h.total, UInt64.toNat_mul, UInt64.toNat_ofNat', hlength, height, Nat.mul_comm]
    exact Nat.mod_eq_of_lt (by omega)
  have hbyte : ∀ shift : UInt64, ((s.total * 8) >>> shift).toUInt8
      = (8 * t.length / 2 ^ (shift.toNat % 64)).toUInt8 := by
    intro shift
    rw [← UInt8.toNat_inj, UInt64.toNat_toUInt8, UInt64.toNat_shiftRight, hbits, Nat.shiftRight_eq_div_pow,
      Nat.toUInt8_eq, UInt8.toNat_ofNat']
  simp only [Hasher.lengthBytes, hbyte]
  rfl

/-- A message whose last block the padding fills. -/
theorem hashAfter_padded_of_le {t : Text} (h : t.length % 64 + 1 ≤ 56) :
    hashAfter (padded t) ((padded t).length / 64) = nextHash (hashAfter t (t.length / 64))
      (unblocked t ++ [0x80] ++ List.replicate (56 - (t.length % 64 + 1)) 0 ++ eightBytes (8 * t.length)) := by
  obtain ⟨hmod, hlt⟩ := zeros_spec t.length
  have hzeros : zeros t.length = 56 - (t.length % 64 + 1) := by omega
  have hfill : t.length % 64
      + ([0x80] ++ List.replicate (zeros t.length) 0 ++ eightBytes (8 * t.length)).length = 64 := by
    simp only [List.length_append, List.length_replicate, List.length_singleton, length_eightBytes]
    omega
  have hhash := hashAfter_fill hfill []
  have hpadded : padded t
      = t ++ ([0x80] ++ List.replicate (zeros t.length) 0 ++ eightBytes (8 * t.length)) ++ [] := by
    simp [padded]
  have hblocks : (padded t).length / 64 = t.length / 64 + 1 := by
    rw [length_padded]
    omega
  rw [hblocks, hpadded, hhash, hzeros]
  simp only [List.append_assoc]

/-- A message whose last block has no room for the length. -/
theorem hashAfter_padded_of_lt {t : Text} (h : 56 < t.length % 64 + 1) :
    hashAfter (padded t) ((padded t).length / 64)
      = nextHash (nextHash (hashAfter t (t.length / 64))
          (unblocked t ++ [0x80] ++ List.replicate (64 - (t.length % 64 + 1)) 0))
        (List.replicate 56 0 ++ eightBytes (8 * t.length)) := by
  obtain ⟨hmod, hlt⟩ := zeros_spec t.length
  -- the zeros fill the last block, and all but the length of one more
  have hzeros : zeros t.length = 64 - (t.length % 64 + 1) + 56 := by omega
  have hfirst : t.length % 64 + ([0x80] ++ List.replicate (64 - (t.length % 64 + 1)) (0 : UInt8)).length = 64 := by
    simp only [List.length_append, List.length_replicate, List.length_singleton]
    omega
  have hfull : (t ++ ([0x80] ++ List.replicate (64 - (t.length % 64 + 1)) 0)).length = 64 * (t.length / 64 + 1) := by
    rw [List.length_append]
    omega
  have hsecond : (t ++ ([0x80] ++ List.replicate (64 - (t.length % 64 + 1)) 0)).length % 64
      + (List.replicate 56 0 ++ eightBytes (8 * t.length)).length = 64 := by
    simp only [hfull, List.length_append, List.length_replicate, length_eightBytes, Nat.mul_mod_right]
  have hpadded : padded t = t ++ ([0x80] ++ List.replicate (64 - (t.length % 64 + 1)) 0)
      ++ (List.replicate 56 0 ++ eightBytes (8 * t.length)) ++ [] := by
    simp only [padded, hzeros, ← List.replicate_append_replicate, List.append_assoc, List.append_nil]
  have hblocks : (padded t).length / 64 = 64 * (t.length / 64 + 1) / 64 + 1 := by
    rw [length_padded]
    omega
  have hhash₁ := hashAfter_fill hfirst []
  have hhash₂ := hashAfter_fill hsecond []
  have hnothing : unblocked (t ++ ([0x80] ++ List.replicate (64 - (t.length % 64 + 1)) 0)) = [] :=
    unblocked_eq_nil (by rw [hfull, Nat.mul_mod_right])
  rw [List.append_nil] at hhash₁
  rw [hnothing, List.nil_append, hfull, Nat.mul_div_right _ (by decide), hhash₁] at hhash₂
  rw [hblocks, hpadded, Nat.mul_div_right _ (by decide), hhash₂, List.append_assoc]

/-- The digest of the bytes that were taken. -/
theorem Took.finish {s : Hasher} {t : Text} (h : Took s t) (hlt : t.length < 2 ^ 61) :
    s.finish = (hashAfter (padded t) ((padded t).length / 64)).bytes := by
  have hmarked : (unblocked t ++ [0x80]).length = t.length % 64 + 1 := by
    rw [List.length_append, length_unblocked]
    rfl
  simp only [Hasher.finish, h.buffer, h.lengthBytes hlt, hmarked]
  split
  · rename_i hroom
    have hblock : (unblocked t ++ [0x80] ++ List.replicate (56 - (t.length % 64 + 1)) 0
        ++ eightBytes (8 * t.length)).length = 64 := by
      rw [List.length_append, List.length_append, hmarked, List.length_replicate, length_eightBytes]
      omega
    rw [hashAfter_padded_of_le hroom, ← h.state, ← toHash_compress _ hblock, bytes_toHash]
  · rename_i hroom
    have hfirst : (unblocked t ++ [0x80] ++ List.replicate (64 - (t.length % 64 + 1)) 0).length = 64 := by
      rw [List.length_append, hmarked, List.length_replicate]
      omega
    have hsecond : (List.replicate 56 0 ++ eightBytes (8 * t.length)).length = 64 := by
      rw [List.length_append, List.length_replicate, length_eightBytes]
    rw [hashAfter_padded_of_lt (Nat.lt_of_not_le hroom), ← h.state, ← toHash_compress _ hfirst,
      ← toHash_compress _ hsecond, bytes_toHash]

end Hasher

/-! ### The bytes of a block in memory -/

/-- A hash in progress with a place for each byte of a block. What lies behind the index is left from blocks
before. -/
structure Memory where
  state : State
  places : Vector UInt8 64
  /-- The place that is written next. -/
  index : Nat
  total : UInt64

namespace Memory

def empty : Memory := ⟨initial, Vector.replicate 64 0, 0, 0⟩

/-- Writes a byte at the index; `none` if there is no such place. -/
def store? (m : Memory) (b : UInt8) : Option Memory :=
  if h : m.index < 64 then some { m with places := m.places.set m.index b, index := m.index + 1 } else none

/-- Folds the block into the state and starts a new one. -/
def fold (m : Memory) : Memory := { m with state := compress m.state m.places.toList, index := 0 }

def push? (m : Memory) (b : UInt8) : Option Memory :=
  (m.store? b).map fun m => if m.index = 64 then m.fold else m

def update? (m : Memory) (piece : Text) : Option Memory :=
  piece.foldlM push? { m with total := m.total + UInt64.ofNat piece.length }

/-- Writes zeros up to an index. -/
def fillTo? (bound : Nat) (m : Memory) : Option Memory :=
  (List.replicate (bound - m.index) 0).foldlM store? m

/-- Writes zeros and the length behind what the block holds. -/
def close? (m : Memory) : Option Text := do
  let filled ← m.fillTo? 56
  let shifts : List UInt64 := [56, 48, 40, 32, 24, 16, 8, 0]
  let full ← (shifts.map fun shift => ((m.total * 8) >>> shift).toUInt8).foldlM store? filled
  return full.fold.state.bytes

/-- The digest. Where the length has no room behind the final 1 bit, the block is filled up with zeros. -/
def finish? (m : Memory) : Option Text := do
  let marked ← m.store? 0x80
  if 56 < marked.index then
    let filled ← marked.fillTo? 64
    filled.fold.close?
  else marked.close?

/-- The bytes that were written since the last full block. -/
def Holds (m : Memory) (t : Text) : Prop := m.index = t.length ∧ m.places.toList.take t.length = t

theorem Holds.store {m : Memory} {t : Text} (h : m.Holds t) (ht : t.length < 64) (b : UInt8) :
    ∃ m', m.store? b = some m' ∧ m'.Holds (t ++ [b]) ∧ m'.state = m.state ∧ m'.total = m.total := by
  obtain ⟨state, places, index, total⟩ := m
  obtain ⟨hindex, hbytes⟩ := h
  dsimp only at hindex hbytes
  subst hindex
  refine ⟨_, dif_pos ht, ⟨by simp, ?_⟩, rfl, rfl⟩
  have hplace : t.length < places.toList.length := by simpa using ht
  rw [List.length_append, List.length_singleton, Vector.toList_set, List.take_add_one,
    List.take_set_of_le (Nat.le_refl _), hbytes, List.getElem?_set_self hplace]
  rfl

theorem Holds.stores {m : Memory} {t : Text} (h : m.Holds t) {u : Text} (hu : t.length + u.length ≤ 64) :
    ∃ m', u.foldlM store? m = some m' ∧ m'.Holds (t ++ u) ∧ m'.state = m.state ∧ m'.total = m.total := by
  induction u generalizing m t with
  | nil => exact ⟨m, rfl, by rwa [List.append_nil], rfl, rfl⟩
  | cons b u ih =>
    rw [List.length_cons] at hu
    obtain ⟨m₁, hstore, hholds, hstate, htotal⟩ := h.store (by omega) b
    obtain ⟨m₂, hstores, hholds₂, hstate₂, htotal₂⟩ :=
      ih hholds (by rw [List.length_append, List.length_singleton]; omega)
    refine ⟨m₂, ?_, by rwa [List.append_cons], hstate₂.trans hstate, htotal₂.trans htotal⟩
    rw [List.foldlM_cons, hstore]
    exact hstores

/-- A full block is all that the places hold. -/
theorem Holds.state_fold {m : Memory} {t : Text} (h : m.Holds t) (ht : t.length = 64) :
    m.fold.state = compress m.state t := by
  have hbytes := h.2
  rw [ht, List.take_of_length_le (by simp)] at hbytes
  rw [fold, hbytes]

/-- The state and the bytes of the last block are those of a hash in progress. -/
def Matches (m : Memory) (s : Hasher) : Prop := m.state = s.state ∧ m.Holds s.buffer.toList

theorem matches_empty : empty.Matches .empty := ⟨rfl, rfl, rfl⟩

theorem Matches.push {m : Memory} {s : Hasher} (h : m.Matches s) (b : UInt8) :
    ∃ m', m.push? b = some m' ∧ m'.Matches (s.push b) ∧ m'.total = m.total := by
  have hsize := s.buffer_size_lt
  obtain ⟨m₁, hstore, hholds, hstate, htotal⟩ := h.2.store (by rwa [Array.length_toList]) b
  have hindex : m₁.index = s.buffer.size + 1 := by
    rw [hholds.1, List.length_append, Array.length_toList]
    rfl
  rw [push?, hstore, Option.map_some, Hasher.push]
  by_cases hroom : s.buffer.size + 1 < 64
  · rw [dif_pos hroom, if_neg (by omega)]
    refine ⟨m₁, rfl, ⟨hstate.trans h.1, ?_⟩, htotal⟩
    rwa [Array.toList_push]
  · have hlength : (s.buffer.toList ++ [b]).length = 64 := by
      rw [List.length_append, Array.length_toList, List.length_singleton]
      omega
    rw [dif_neg hroom, if_pos (by omega)]
    refine ⟨m₁.fold, rfl, ⟨?_, rfl, rfl⟩, htotal⟩
    rw [hholds.state_fold hlength, hstate, h.1, Array.toList_push]

theorem Matches.update {m : Memory} {s : Hasher} (h : m.Matches s) (piece : Text) :
    ∃ m', m.update? piece = some m' ∧ m'.Matches (s.update piece) ∧
      m'.total = m.total + UInt64.ofNat piece.length := by
  have hrun : ∀ (m : Memory) (s : Hasher), m.Matches s →
      ∃ m', piece.foldlM push? m = some m' ∧ m'.Matches (s.update piece) ∧ m'.total = m.total := by
    induction piece with
    | nil => exact fun m s h => ⟨m, rfl, h, rfl⟩
    | cons b piece ih =>
      intro m s h
      obtain ⟨m₁, hpush, hmatches, htotal⟩ := h.push b
      obtain ⟨m₂, hpushes, hmatches₂, htotal₂⟩ := ih m₁ (s.push b) hmatches
      refine ⟨m₂, ?_, hmatches₂, htotal₂.trans htotal⟩
      rw [List.foldlM_cons, hpush]
      exact hpushes
  exact hrun _ s h

/-- The pieces are taken without a write outside of the block. -/
theorem exists_update?_pieces (pieces : List Text) : ∃ m, pieces.foldlM update? empty = some m ∧
    m.Matches (pieces.foldl Hasher.update .empty) ∧ m.total = UInt64.ofNat pieces.flatten.length := by
  induction pieces using List.reverseRecOn with
  | nil => exact ⟨empty, rfl, matches_empty, rfl⟩
  | append_singleton pieces piece ih =>
    obtain ⟨m, hrun, hmatches, htotal⟩ := ih
    obtain ⟨m', hupdate, hmatches', htotal'⟩ := hmatches.update piece
    refine ⟨m', ?_, ?_, ?_⟩
    · rw [List.foldlM_append, hrun]
      exact (bind_pure _).trans hupdate
    · rw [List.foldl_append]
      exact hmatches'
    · rw [htotal', htotal, List.flatten_append, List.length_append, UInt64.ofNat_add, List.flatten_singleton]

theorem Holds.fillTo {m : Memory} {t : Text} (h : m.Holds t) {bound : Nat} (hle : t.length ≤ bound)
    (hbound : bound ≤ 64) : ∃ m', m.fillTo? bound = some m' ∧
      m'.Holds (t ++ List.replicate (bound - t.length) 0) ∧ m'.state = m.state ∧ m'.total = m.total := by
  rw [fillTo?, h.1]
  exact h.stores (by rw [List.length_replicate]; omega)

theorem Holds.close {m : Memory} {t : Text} (h : m.Holds t) (ht : t.length ≤ 56) {s : Hasher}
    (htotal : m.total = s.total) : m.close?
      = some (compress m.state (t ++ List.replicate (56 - t.length) 0 ++ s.lengthBytes)).bytes := by
  have hlengthBytes : s.lengthBytes.length = 8 := rfl
  have hlength : (t ++ List.replicate (56 - t.length) (0 : UInt8)).length = 56 := by
    rw [List.length_append, List.length_replicate]
    omega
  obtain ⟨filled, hfill, hfilled, hstate, -⟩ := h.fillTo ht (by decide)
  obtain ⟨full, hstores, hfull, hstate', -⟩ := hfilled.stores (u := s.lengthBytes)
    (by rw [hlength, hlengthBytes])
  have hfold := hfull.state_fold (by rw [List.length_append, hlength, hlengthBytes])
  rw [Hasher.lengthBytes, ← htotal] at hstores
  rw [close?, hfill, Option.bind_eq_bind, Option.bind_some]
  simp only [hstores, Option.bind_some, hfold, hstate', hstate]
  rfl

/-- The padding fits as well, and the digest is the same. -/
theorem Matches.finish {m : Memory} {s : Hasher} (h : m.Matches s) (htotal : m.total = s.total) :
    m.finish? = some s.finish := by
  have hsize := s.buffer_size_lt
  have hcount : (s.buffer.toList ++ [0x80]).length = s.buffer.size + 1 := by
    rw [List.length_append, Array.length_toList]
    rfl
  obtain ⟨marked, hstore, hmarked, hstate, htotal'⟩ := h.2.store (by rwa [Array.length_toList]) 0x80
  simp only [finish?, Hasher.finish, hstore, Option.bind_eq_bind, Option.bind_some, hmarked.1]
  by_cases hroom : (s.buffer.toList ++ [(0x80 : UInt8)]).length ≤ 56
  · rw [if_neg (Nat.not_lt.2 hroom), if_pos hroom, hmarked.close hroom (htotal'.trans htotal), hstate, h.1]
  · have hblock : (s.buffer.toList ++ [(0x80 : UInt8)]).length ≤ 64 := by omega
    obtain ⟨filled, hfill, hfilled, hstate₂, htotal₂⟩ := hmarked.fillTo hblock (by decide)
    have hlength : (s.buffer.toList ++ [(0x80 : UInt8)]
        ++ List.replicate (64 - (s.buffer.toList ++ [(0x80 : UInt8)]).length) 0).length = 64 := by
      rw [List.length_append, List.length_replicate]
      omega
    have hempty : filled.fold.Holds [] := ⟨rfl, rfl⟩
    rw [if_pos (Nat.lt_of_not_le hroom), if_neg hroom, hfill, Option.bind_some,
      hempty.close (by decide) ((htotal₂.trans htotal').trans htotal), hfilled.state_fold hlength, hstate₂,
      hstate, h.1]
    rfl

end Memory

/-! ### Identifiers -/

end Digest

/-- The text that the identifier of a formula is the digest of. -/
def Formula.hashedText (f : Formula) : Text := f.role.name ++ ascii ":" ++ f.text

theorem Role.eq_of_head?_name {r r' : Role} (h : r.name.head? = r'.name.head?) : r = r' := by
  cases r <;> cases r' <;> first | rfl | exact absurd h (by decide)

/-- The first byte tells the role, and the text follows the colon. -/
theorem Formula.hashedText_injective : Function.Injective hashedText := by
  intro f g h
  have hhead : ∀ f : Formula, f.hashedText.head? = f.role.name.head? := by
    intro f
    rw [hashedText]
    cases f.role <;> rfl
  have hrole : f.role = g.role := Role.eq_of_head?_name (by rw [← hhead, ← hhead, h])
  rw [hashedText, hashedText, hrole] at h
  have htext : f.text = g.text := List.append_cancel_left h
  cases f
  cases g
  cases hrole
  cases htext
  rfl

namespace Digest

theorem digest?_flatten {pieces : List Text} (h : pieces.flatten.length < 2 ^ 61) :
    Standard.digest? pieces.flatten = some (ofPieces pieces) := by
  rw [Standard.digest?, if_pos (by omega), ofPieces, (Hasher.took_pieces pieces).finish h]

theorem ofPieces_eq_finish? (pieces : List Text) :
    (pieces.foldlM Memory.update? .empty).bind Memory.finish? = some (ofPieces pieces) := by
  obtain ⟨m, hrun, hmatches, htotal⟩ := Memory.exists_update?_pieces pieces
  rw [hrun, Option.bind_some]
  exact hmatches.finish (htotal.trans (Hasher.took_pieces pieces).total.symm)

/-- Bytes that are hashed in pieces, however they are cut, have the digest of the standard; the bytes of the
block are all written inside of it. So an identifier is the start of the digest of role and text, and no two
formulas have the same bytes hashed. -/
theorem ofPieces_eq_standard (pieces : List Text) (h : pieces.flatten.length < 2 ^ 61) :
    Standard.digest? pieces.flatten = some (ofPieces pieces) ∧
    (pieces.foldlM Memory.update? .empty).bind Memory.finish? = some (ofPieces pieces) ∧
    (∀ f : Formula, f.hashedText.length < 2 ^ 61 →
      ∃ digest, Standard.digest? f.hashedText = some digest ∧ f.identifier = (Text.toHex digest).take 16) ∧
    ∀ f g : Formula, f ≠ g → f.hashedText ≠ g.hashedText := by
  refine ⟨digest?_flatten h, ofPieces_eq_finish? pieces, fun f hf => ?_,
    fun f g hne heq => hne (Formula.hashedText_injective heq)⟩
  have hpieces : [f.role.name, ascii ":", f.text].flatten = f.hashedText := by simp [Formula.hashedText]
  rw [← hpieces] at hf ⊢
  exact ⟨_, digest?_flatten hf, rfl⟩

/-- Pieces that end before, at and behind the end of a block, a formula, and the digest of three bytes in two
pieces. -/
theorem ofPieces_eq_standard_blocks :
    let pieces := [List.replicate 63 (ch 'a'), [ch 'b'], List.replicate 57 (ch 'c')]
    let formula : Formula := ⟨ascii "$val / 100", .valueConv⟩
    pieces.flatten.length < 2 ^ 61 ∧ Standard.digest? pieces.flatten = some (ofPieces pieces) ∧
      formula.hashedText.length < 2 ^ 61 ∧
      (∃ digest, Standard.digest? formula.hashedText = some digest ∧
        formula.identifier = (Text.toHex digest).take 16) ∧
      [ascii "a", ascii "bc"].flatten.length < 2 ^ 61 ∧
      (Standard.digest? (ascii "abc")).map Text.toHex
        = some (ascii "ba7816bf8f01cfea414140de5dae2223b00361a396177a9cb410ff61f20015ad") := by
  intro pieces formula
  have hpieces : pieces.flatten.length < 2 ^ 61 := by decide +kernel
  have hformula : formula.hashedText.length < 2 ^ 61 := by decide +kernel
  have habc : [ascii "a", ascii "bc"].flatten.length < 2 ^ 61 := by decide +kernel
  obtain ⟨hdigest, -, hidentifier, -⟩ := ofPieces_eq_standard pieces hpieces
  refine ⟨hpieces, hdigest, hformula, hidentifier formula hformula, habc, ?_⟩
  have hflatten : ascii "abc" = [ascii "a", ascii "bc"].flatten := rfl
  rw [hflatten, (ofPieces_eq_standard _ habc).1]
  decide +kernel

end TagFormula.Digest

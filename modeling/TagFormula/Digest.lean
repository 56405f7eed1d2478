import TagFormula.Text.Basic

/-!
SHA-256 of a byte string, taken byte by byte: full blocks of 64 bytes are folded into the state, and
the block that is not full yet waits in a buffer.
-/

namespace TagFormula.Digest

/-- The eight words between two blocks. -/
structure State where
  a : UInt32
  b : UInt32
  c : UInt32
  d : UInt32
  e : UInt32
  f : UInt32
  g : UInt32
  h : UInt32
  deriving DecidableEq, Repr

def initial : State :=
  ⟨0x6a09e667, 0xbb67ae85, 0x3c6ef372, 0xa54ff53a, 0x510e527f, 0x9b05688c, 0x1f83d9ab, 0x5be0cd19⟩

/-- One constant for each of the 64 steps. -/
def constants : List UInt32 :=
  [0x428a2f98, 0x71374491, 0xb5c0fbcf, 0xe9b5dba5, 0x3956c25b, 0x59f111f1, 0x923f82a4, 0xab1c5ed5,
    0xd807aa98, 0x12835b01, 0x243185be, 0x550c7dc3, 0x72be5d74, 0x80deb1fe, 0x9bdc06a7, 0xc19bf174,
    0xe49b69c1, 0xefbe4786, 0x0fc19dc6, 0x240ca1cc, 0x2de92c6f, 0x4a7484aa, 0x5cb0a9dc, 0x76f988da,
    0x983e5152, 0xa831c66d, 0xb00327c8, 0xbf597fc7, 0xc6e00bf3, 0xd5a79147, 0x06ca6351, 0x14292967,
    0x27b70a85, 0x2e1b2138, 0x4d2c6dfc, 0x53380d13, 0x650a7354, 0x766a0abb, 0x81c2c92e, 0x92722c85,
    0xa2bfe8a1, 0xa81a664b, 0xc24b8b70, 0xc76c51a3, 0xd192e819, 0xd6990624, 0xf40e3585, 0x106aa070,
    0x19a4c116, 0x1e376c08, 0x2748774c, 0x34b0bcb5, 0x391c0cb3, 0x4ed8aa4a, 0x5b9cca4f, 0x682e6ff3,
    0x748f82ee, 0x78a5636f, 0x84c87814, 0x8cc70208, 0x90befffa, 0xa4506ceb, 0xbef9a3f7, 0xc67178f2]

def rotateRight (x n : UInt32) : UInt32 := (x >>> n) ||| (x <<< (32 - n))

/-- The big-endian words of a block. -/
def words : Text → List UInt32
  | p :: q :: r :: s :: rest =>
    ((p.toUInt32 <<< 24) ||| (q.toUInt32 <<< 16) ||| (r.toUInt32 <<< 8) ||| s.toUInt32) :: words rest
  | _ => []

/-- The next word of the schedule from the words before it, the latest first. -/
def nextWord (latest : List UInt32) : UInt32 :=
  let back (n : Nat) : UInt32 := latest.getD (n - 1) 0
  let s0 := rotateRight (back 15) 7 ^^^ rotateRight (back 15) 18 ^^^ (back 15 >>> 3)
  let s1 := rotateRight (back 2) 17 ^^^ rotateRight (back 2) 19 ^^^ (back 2 >>> 10)
  back 16 + s0 + back 7 + s1

/-- Adds a number of words to a schedule that is written latest first. -/
def extend : Nat → List UInt32 → List UInt32
  | 0, latest => latest
  | n + 1, latest => extend n (nextWord latest :: latest)

/-- The 64 words of a block's schedule. -/
def schedule (block : Text) : List UInt32 := (extend 48 (words block).reverse).reverse

/-- One of the 64 steps, with its constant and its word. -/
def step (v : State) (kw : UInt32 × UInt32) : State :=
  let s1 := rotateRight v.e 6 ^^^ rotateRight v.e 11 ^^^ rotateRight v.e 25
  let choice := (v.e &&& v.f) ^^^ (~~~v.e &&& v.g)
  let t1 := v.h + s1 + choice + kw.1 + kw.2
  let s0 := rotateRight v.a 2 ^^^ rotateRight v.a 13 ^^^ rotateRight v.a 22
  let majority := (v.a &&& v.b) ^^^ (v.a &&& v.c) ^^^ (v.b &&& v.c)
  ⟨t1 + (s0 + majority), v.a, v.b, v.c, v.d + t1, v.e, v.f, v.g⟩

/-- Folds a block into a state. -/
def compress (s : State) (block : Text) : State :=
  let v := (constants.zip (schedule block)).foldl step s
  ⟨s.a + v.a, s.b + v.b, s.c + v.c, s.d + v.d, s.e + v.e, s.f + v.f, s.g + v.g, s.h + v.h⟩

/-- The big-endian bytes of a word. -/
def wordBytes (w : UInt32) : Text :=
  [(w >>> 24).toUInt8, (w >>> 16).toUInt8, (w >>> 8).toUInt8, w.toUInt8]

def State.bytes (s : State) : Text := [s.a, s.b, s.c, s.d, s.e, s.f, s.g, s.h].flatMap wordBytes

/-- A hash in progress. -/
structure Hasher where
  state : State
  /-- The bytes of the block that is not full yet. -/
  buffer : Array UInt8
  buffer_size_lt : buffer.size < 64
  /-- How many bytes were taken. -/
  total : UInt64

namespace Hasher

def empty : Hasher := ⟨initial, #[], by decide, 0⟩

/-- Takes one byte. -/
def push (s : Hasher) (b : UInt8) : Hasher :=
  if h : s.buffer.size + 1 < 64 then
    ⟨s.state, s.buffer.push b, by simpa using h, s.total + 1⟩
  else ⟨compress s.state (s.buffer.push b).toList, #[], by decide, s.total + 1⟩

/-- Takes a piece of the byte string. -/
def update (s : Hasher) (piece : Text) : Hasher := piece.foldl push s

/-- The big-endian bytes of the length in bits. -/
def lengthBytes (s : Hasher) : Text :=
  let bits := s.total * 8
  ([56, 48, 40, 32, 24, 16, 8, 0] : List UInt64).map fun shift => (bits >>> shift).toUInt8

/-- The digest: a final 1 bit, zeros and the length fill the last block, or the last two. -/
def finish (s : Hasher) : Text :=
  let marked := s.buffer.toList ++ [0x80]
  let zeros (n : Nat) : Text := List.replicate n 0
  if marked.length ≤ 56 then
    (compress s.state (marked ++ zeros (56 - marked.length) ++ s.lengthBytes)).bytes
  else
    let filled := compress s.state (marked ++ zeros (64 - marked.length))
    (compress filled (zeros 56 ++ s.lengthBytes)).bytes

end Hasher

/-- The digest of pieces taken in order. -/
def ofPieces (pieces : List Text) : Text := (pieces.foldl Hasher.update Hasher.empty).finish

/-- The digest of a byte string. -/
def ofText (t : Text) : Text := ofPieces [t]

end TagFormula.Digest

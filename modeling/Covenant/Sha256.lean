import Covenant.Word

/-!
# SHA-256

The hash behind contract addresses, storage roots and mapping cells. A message is padded to whole
blocks of sixteen 32-bit words; every block is stretched to a schedule of 64 words and mixed into
eight chaining words, whose final value is the digest.

* `Sha256.pad` is the padded message.
* `Sha256.schedule` and `Sha256.compress` treat one block.
* `sha256` is the digest as a word.
-/

namespace Covenant

namespace Sha256

/-- The eight chaining words. -/
structure State where
  a : UInt32
  b : UInt32
  c : UInt32
  d : UInt32
  e : UInt32
  f : UInt32
  g : UInt32
  h : UInt32
  deriving DecidableEq

/-- The chaining words before the first block. -/
def initial : State :=
  ⟨0x6a09e667, 0xbb67ae85, 0x3c6ef372, 0xa54ff53a, 0x510e527f, 0x9b05688c, 0x1f83d9ab, 0x5be0cd19⟩

/-- The constant of each of the 64 rounds. -/
def constants : List UInt32 :=
  [0x428a2f98, 0x71374491, 0xb5c0fbcf, 0xe9b5dba5, 0x3956c25b, 0x59f111f1, 0x923f82a4, 0xab1c5ed5,
   0xd807aa98, 0x12835b01, 0x243185be, 0x550c7dc3, 0x72be5d74, 0x80deb1fe, 0x9bdc06a7, 0xc19bf174,
   0xe49b69c1, 0xefbe4786, 0x0fc19dc6, 0x240ca1cc, 0x2de92c6f, 0x4a7484aa, 0x5cb0a9dc, 0x76f988da,
   0x983e5152, 0xa831c66d, 0xb00327c8, 0xbf597fc7, 0xc6e00bf3, 0xd5a79147, 0x06ca6351, 0x14292967,
   0x27b70a85, 0x2e1b2138, 0x4d2c6dfc, 0x53380d13, 0x650a7354, 0x766a0abb, 0x81c2c92e, 0x92722c85,
   0xa2bfe8a1, 0xa81a664b, 0xc24b8b70, 0xc76c51a3, 0xd192e819, 0xd6990624, 0xf40e3585, 0x106aa070,
   0x19a4c116, 0x1e376c08, 0x2748774c, 0x34b0bcb5, 0x391c0cb3, 0x4ed8aa4a, 0x5b9cca4f, 0x682e6ff3,
   0x748f82ee, 0x78a5636f, 0x84c87814, 0x8cc70208, 0x90befffa, 0xa4506ceb, 0xbef9a3f7, 0xc67178f2]

/-- Rotation to the right, by fewer than 32 places. -/
@[inline] def rotate (x : UInt32) (places : UInt32) : UInt32 :=
  (x >>> places) ||| (x <<< (32 - places))

/-- Appends `count` words to a schedule, each made from four earlier ones. -/
def extend : Nat → Array UInt32 → Array UInt32
  | 0, w => w
  | count + 1, w =>
    let w2 := w.getD (w.size - 2) 0
    let w15 := w.getD (w.size - 15) 0
    let s0 := rotate w15 7 ^^^ rotate w15 18 ^^^ (w15 >>> 3)
    let s1 := rotate w2 17 ^^^ rotate w2 19 ^^^ (w2 >>> 10)
    extend count (w.push (w.getD (w.size - 16) 0 + s0 + w.getD (w.size - 7) 0 + s1))

/-- The 64 schedule words of a block of sixteen. -/
def schedule (block : List UInt32) : List UInt32 :=
  (extend 48 block.toArray).toList

/-- One round: mixes a round constant and a schedule word into the state. -/
def round (k w : UInt32) (s : State) : State :=
  let s1 := rotate s.e 6 ^^^ rotate s.e 11 ^^^ rotate s.e 25
  let choice := (s.e &&& s.f) ^^^ (~~~s.e &&& s.g)
  let t1 := s.h + s1 + choice + k + w
  let s0 := rotate s.a 2 ^^^ rotate s.a 13 ^^^ rotate s.a 22
  let majority := (s.a &&& s.b) ^^^ (s.a &&& s.c) ^^^ (s.b &&& s.c)
  ⟨t1 + s0 + majority, s.a, s.b, s.c, s.d + t1, s.e, s.f, s.g⟩

/-- One round for each pair of a constant and a schedule word. -/
def rounds : List UInt32 → List UInt32 → State → State
  | k :: ks, w :: ws, s => rounds ks ws (round k w s)
  | _, _, s => s

/-- Mixes one block into the chaining words. -/
def compress (s : State) (block : List UInt32) : State :=
  let t := rounds constants (schedule block) s
  ⟨s.a + t.a, s.b + t.b, s.c + t.c, s.d + t.d, s.e + t.e, s.f + t.f, s.g + t.g, s.h + t.h⟩

/-- Mixes `count` blocks of sixteen words. -/
def compressBlocks : Nat → List UInt32 → State → State
  | 0, _, s => s
  | count + 1, ws, s => compressBlocks count (ws.drop 16) (compress s (ws.take 16))

/-- The message, a one bit, zeros up to eight bytes short of a block, and the length in bits. -/
def pad (message : Bytes) : Bytes :=
  let zeros := (119 - message.length % 64) % 64
  message ++ 0x80 :: List.replicate zeros 0 ++ Bytes.bigEndian 8 (8 * message.length)

/-- Byte quadruples as big-endian words. -/
def words : Bytes → List UInt32
  | a :: b :: c :: d :: rest =>
    ((a.toUInt32 <<< 24) ||| (b.toUInt32 <<< 16) ||| (c.toUInt32 <<< 8) ||| d.toUInt32)
      :: words rest
  | _ => []

/-- The chaining words after a whole message. -/
def finish (message : Bytes) : State :=
  let ws := words (pad message)
  compressBlocks (ws.length / 16) ws initial

/-- The chaining words as one number, the first word highest. -/
def State.toNat (s : State) : Nat :=
  [s.a, s.b, s.c, s.d, s.e, s.f, s.g, s.h].foldl (fun n w => n * Nat.pow 2 32 + w.toNat) 0

end Sha256

/-- The SHA-256 digest of a message. -/
def sha256 (message : Bytes) : Word :=
  Word.ofNat (Sha256.finish message).toNat

/-- The digest of a message that arrives in pieces: that of their concatenation. -/
def sha256Chunks (chunks : List Bytes) : Word :=
  sha256 chunks.flatten

namespace Word

/-- The hash of a word: the digest of its 32 bytes. -/
def hash (w : Word) : Word := sha256 w.toBytes

end Word

end Covenant

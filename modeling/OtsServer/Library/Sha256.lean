import OtsServer.Library.Bytes

/-!
# SHA-256

The hash `hashlib.sha256` computes, as FIPS 180-4 describes it: padding to whole
64-byte blocks, the 64-word message schedule, 64 rounds on eight working words.
The schedule keeps its newest word first, so that the recurrence reads fixed
positions. Everything is structural recursion on lists and counters, so a digest
of a concrete message can be evaluated.
-/

namespace Sha256

def roundConstants : List UInt32 :=
  [0x428a2f98, 0x71374491, 0xb5c0fbcf, 0xe9b5dba5, 0x3956c25b, 0x59f111f1, 0x923f82a4, 0xab1c5ed5,
   0xd807aa98, 0x12835b01, 0x243185be, 0x550c7dc3, 0x72be5d74, 0x80deb1fe, 0x9bdc06a7, 0xc19bf174,
   0xe49b69c1, 0xefbe4786, 0x0fc19dc6, 0x240ca1cc, 0x2de92c6f, 0x4a7484aa, 0x5cb0a9dc, 0x76f988da,
   0x983e5152, 0xa831c66d, 0xb00327c8, 0xbf597fc7, 0xc6e00bf3, 0xd5a79147, 0x06ca6351, 0x14292967,
   0x27b70a85, 0x2e1b2138, 0x4d2c6dfc, 0x53380d13, 0x650a7354, 0x766a0abb, 0x81c2c92e, 0x92722c85,
   0xa2bfe8a1, 0xa81a664b, 0xc24b8b70, 0xc76c51a3, 0xd192e819, 0xd6990624, 0xf40e3585, 0x106aa070,
   0x19a4c116, 0x1e376c08, 0x2748774c, 0x34b0bcb5, 0x391c0cb3, 0x4ed8aa4a, 0x5b9cca4f, 0x682e6ff3,
   0x748f82ee, 0x78a5636f, 0x84c87814, 0x8cc70208, 0x90befffa, 0xa4506ceb, 0xbef9a3f7, 0xc67178f2]

/-- The eight working words, also the chaining value between blocks. -/
structure Words where
  (a b c d e f g h : UInt32)

def initial : Words :=
  ⟨0x6a09e667, 0xbb67ae85, 0x3c6ef372, 0xa54ff53a, 0x510e527f, 0x9b05688c, 0x1f83d9ab, 0x5be0cd19⟩

def rotr (x n : UInt32) : UInt32 := (x >>> n) ||| (x <<< (32 - n))

/-- A big-endian word of four bytes. -/
def word (bs : Bytes) : UInt32 := bs.foldl (fun acc b => acc <<< 8 ||| b.toUInt32) 0

def wordBytes (w : UInt32) : Bytes :=
  [(w >>> 24).toUInt8, (w >>> 16).toUInt8, (w >>> 8).toUInt8, w.toUInt8]

/-- The first `n` words of a block. -/
def words : Nat → Bytes → List UInt32
  | 0, _ => []
  | n + 1, bs => word (bs.take 4) :: words n (bs.drop 4)

/-- `n` steps of the schedule recurrence, on the words so far, newest first. -/
def extend : Nat → List UInt32 → List UInt32
  | 0, ws => ws
  | n + 1, ws =>
      let w2 := ws.getD 1 0
      let w15 := ws.getD 14 0
      let s0 := rotr w15 7 ^^^ rotr w15 18 ^^^ (w15 >>> 3)
      let s1 := rotr w2 17 ^^^ rotr w2 19 ^^^ (w2 >>> 10)
      extend n ((ws.getD 15 0 + s0 + ws.getD 6 0 + s1) :: ws)

def schedule (block : Bytes) : List UInt32 := (extend 48 (words 16 block).reverse).reverse

def round (s : Words) (kw : UInt32 × UInt32) : Words :=
  let s1 := rotr s.e 6 ^^^ rotr s.e 11 ^^^ rotr s.e 25
  let ch := (s.e &&& s.f) ^^^ (~~~s.e &&& s.g)
  let t1 := s.h + s1 + ch + kw.1 + kw.2
  let s0 := rotr s.a 2 ^^^ rotr s.a 13 ^^^ rotr s.a 22
  let maj := (s.a &&& s.b) ^^^ (s.a &&& s.c) ^^^ (s.b &&& s.c)
  ⟨t1 + (s0 + maj), s.a, s.b, s.c, s.d + t1, s.e, s.f, s.g⟩

def compress (s : Words) (block : Bytes) : Words :=
  let t := (roundConstants.zip (schedule block)).foldl round s
  ⟨s.a + t.a, s.b + t.b, s.c + t.c, s.d + t.d, s.e + t.e, s.f + t.f, s.g + t.g, s.h + t.h⟩

/-- The message, a one bit, zeros to 56 bytes modulo 64, the bit length. -/
def pad (msg : Bytes) : Bytes :=
  msg ++ 0x80 :: List.replicate ((119 - msg.length % 64) % 64) 0 ++ Bytes.ofNatBE 8 (8 * msg.length)

/-- Compress `n` blocks in order. -/
def digestBlocks : Nat → Bytes → Words → Words
  | 0, _, s => s
  | n + 1, bs, s => digestBlocks n (bs.drop 64) (compress s (bs.take 64))

/-- `hashlib.sha256(msg).digest()`. -/
def digest (msg : Bytes) : Bytes :=
  let p := pad msg
  let s := digestBlocks (p.length / 64) p initial
  [s.a, s.b, s.c, s.d, s.e, s.f, s.g, s.h].flatMap wordBytes

@[simp] theorem digest_length (msg : Bytes) : (digest msg).length = 32 := by
  simp [digest, wordBytes]

set_option maxRecDepth 4000 in
example : digest [0x61, 0x62, 0x63] =
    [0xba, 0x78, 0x16, 0xbf, 0x8f, 0x01, 0xcf, 0xea, 0x41, 0x41, 0x40, 0xde, 0x5d, 0xae, 0x22, 0x23,
     0xb0, 0x03, 0x61, 0xa3, 0x96, 0x17, 0x7a, 0x9c, 0xb4, 0x10, 0xff, 0x61, 0xf2, 0x00, 0x15,
     0xad] := by
  decide +kernel

end Sha256

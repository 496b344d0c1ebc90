import IgaArchive.Hash.Word

/-!
The SHA-256 digest.
-/

namespace IgaArchive.Sha256

def roundConstants : List UInt32 := [
  0x428a2f98, 0x71374491, 0xb5c0fbcf, 0xe9b5dba5, 0x3956c25b, 0x59f111f1, 0x923f82a4, 0xab1c5ed5,
  0xd807aa98, 0x12835b01, 0x243185be, 0x550c7dc3, 0x72be5d74, 0x80deb1fe, 0x9bdc06a7, 0xc19bf174,
  0xe49b69c1, 0xefbe4786, 0x0fc19dc6, 0x240ca1cc, 0x2de92c6f, 0x4a7484aa, 0x5cb0a9dc, 0x76f988da,
  0x983e5152, 0xa831c66d, 0xb00327c8, 0xbf597fc7, 0xc6e00bf3, 0xd5a79147, 0x06ca6351, 0x14292967,
  0x27b70a85, 0x2e1b2138, 0x4d2c6dfc, 0x53380d13, 0x650a7354, 0x766a0abb, 0x81c2c92e, 0x92722c85,
  0xa2bfe8a1, 0xa81a664b, 0xc24b8b70, 0xc76c51a3, 0xd192e819, 0xd6990624, 0xf40e3585, 0x106aa070,
  0x19a4c116, 0x1e376c08, 0x2748774c, 0x34b0bcb5, 0x391c0cb3, 0x4ed8aa4a, 0x5b9cca4f, 0x682e6ff3,
  0x748f82ee, 0x78a5636f, 0x84c87814, 0x8cc70208, 0x90befffa, 0xa4506ceb, 0xbef9a3f7, 0xc67178f2]

structure Lanes where
  a : UInt32
  b : UInt32
  c : UInt32
  d : UInt32
  e : UInt32
  f : UInt32
  g : UInt32
  h : UInt32

def initial : Lanes :=
  ⟨0x6a09e667, 0xbb67ae85, 0x3c6ef372, 0xa54ff53a, 0x510e527f, 0x9b05688c, 0x1f83d9ab, 0x5be0cd19⟩

def Lanes.add (x y : Lanes) : Lanes :=
  ⟨x.a + y.a, x.b + y.b, x.c + y.c, x.d + y.d, x.e + y.e, x.f + y.f, x.g + y.g, x.h + y.h⟩

def Lanes.words (x : Lanes) : List UInt32 :=
  [x.a, x.b, x.c, x.d, x.e, x.f, x.g, x.h]

def nextWord (schedule : Array UInt32) : UInt32 :=
  let back (distance : Nat) := schedule.getD (schedule.size - distance) 0
  let s0 := Word.rotateRight (back 15) 7 ^^^ Word.rotateRight (back 15) 18 ^^^ (back 15 >>> 3)
  let s1 := Word.rotateRight (back 2) 17 ^^^ Word.rotateRight (back 2) 19 ^^^ (back 2 >>> 10)
  back 16 + s0 + back 7 + s1

def schedule (block : List UInt32) : Array UInt32 :=
  Nat.fold 48 (fun _ _ words => words.push (nextWord words)) block.toArray

def round (x : Lanes) (constant word : UInt32) : Lanes :=
  let s1 := Word.rotateRight x.e 6 ^^^ Word.rotateRight x.e 11 ^^^ Word.rotateRight x.e 25
  let choice := (x.e &&& x.f) ^^^ (~~~x.e &&& x.g)
  let t1 := x.h + s1 + choice + constant + word
  let s0 := Word.rotateRight x.a 2 ^^^ Word.rotateRight x.a 13 ^^^ Word.rotateRight x.a 22
  let majority := (x.a &&& x.b) ^^^ (x.a &&& x.c) ^^^ (x.b &&& x.c)
  ⟨t1 + (s0 + majority), x.a, x.b, x.c, x.d + t1, x.e, x.f, x.g⟩

def compress (x : Lanes) (block : List UInt32) : Lanes :=
  let rounds := roundConstants.zip (schedule block).toList
  x.add (rounds.foldl (fun y (constant, word) => round y constant word) x)

/-- The eight bytes, most significant first, of a 64-bit number. -/
def bytesBE64 (n : Nat) : Bytes :=
  (List.range 8).reverse.map fun i => (n / Nat.pow 256 i).toUInt8

/-- The message followed by a set bit, zeros to a whole block, and its length in bits. -/
def pad (message : Bytes) : Bytes :=
  let zeros := (119 - message.length % 64) % 64
  message ++ 0x80 :: (List.replicate zeros 0 ++ bytesBE64 (message.length * 8))

/-- Compresses whole blocks of sixteen words; `blocks` bounds their number. -/
def compressBlocks : (blocks : Nat) → Lanes → List UInt32 → Lanes
  | 0, x, _ => x
  | blocks + 1, x, words =>
    let (block, rest) := words.splitAt 16
    compressBlocks blocks (compress x block) rest

def digest (message : Bytes) : Bytes :=
  let (words, _) := Word.wordsBE (pad message)
  (compressBlocks (words.length / 16) initial words).words.flatMap Word.bytesBE

end IgaArchive.Sha256

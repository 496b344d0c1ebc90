import IgaArchive.Hash.Word

/-!
The 32-bit xxHash checksum with seed zero, which guards LZ4 frames.
-/

namespace IgaArchive.XxHash32

def prime1 : UInt32 := 2654435761
def prime2 : UInt32 := 2246822519
def prime3 : UInt32 := 3266489917
def prime4 : UInt32 := 668265263
def prime5 : UInt32 := 374761393

def round (lane word : UInt32) : UInt32 :=
  Word.rotateLeft (lane + word * prime2) 13 * prime1

/-- Takes whole stripes of four words into four lanes; gives the joined lanes and the words left. -/
def stripes (v1 v2 v3 v4 : UInt32) : List UInt32 → UInt32 × List UInt32
  | a :: b :: c :: d :: rest => stripes (round v1 a) (round v2 b) (round v3 c) (round v4 d) rest
  | rest =>
    (Word.rotateLeft v1 1 + Word.rotateLeft v2 7 + Word.rotateLeft v3 12 + Word.rotateLeft v4 18, rest)

def takeWord (hash word : UInt32) : UInt32 :=
  Word.rotateLeft (hash + word * prime3) 17 * prime4

def takeByte (hash : UInt32) (b : UInt8) : UInt32 :=
  Word.rotateLeft (hash + b.toUInt32 * prime5) 11 * prime1

def avalanche (hash : UInt32) : UInt32 :=
  let hash := (hash ^^^ (hash >>> 15)) * prime2
  let hash := (hash ^^^ (hash >>> 13)) * prime3
  hash ^^^ (hash >>> 16)

def checksum (bytes : Bytes) : UInt32 :=
  let (words, tail) := Word.wordsLE bytes
  let (hash, words) :=
    if words.length < 4 then (prime5, words)
    else stripes (prime1 + prime2) prime2 0 (0 - prime1) words
  let hash := words.foldl takeWord (hash + bytes.length.toUInt32)
  avalanche (tail.foldl takeByte hash)

end IgaArchive.XxHash32

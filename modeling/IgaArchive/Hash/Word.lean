import IgaArchive.Bytes

/-!
32-bit words as bytes, in either order, and their rotation.
-/

namespace IgaArchive.Word

def rotateLeft (w : UInt32) (count : UInt32) : UInt32 :=
  (w <<< count) ||| (w >>> (32 - count))

def rotateRight (w : UInt32) (count : UInt32) : UInt32 :=
  (w >>> count) ||| (w <<< (32 - count))

/-- The word whose bytes, least significant first, are given. -/
def ofBytesLE (a b c d : UInt8) : UInt32 :=
  a.toUInt32 ||| (b.toUInt32 <<< 8) ||| (c.toUInt32 <<< 16) ||| (d.toUInt32 <<< 24)

def ofBytesBE (a b c d : UInt8) : UInt32 :=
  ofBytesLE d c b a

def bytesLE (w : UInt32) : Bytes :=
  [w.toUInt8, (w >>> 8).toUInt8, (w >>> 16).toUInt8, (w >>> 24).toUInt8]

def bytesBE (w : UInt32) : Bytes :=
  (bytesLE w).reverse

/-- Cuts bytes into words after those in `found`, which are in reverse order. -/
def wordsAfter (word : UInt8 → UInt8 → UInt8 → UInt8 → UInt32) (found : List UInt32) :
    Bytes → List UInt32 × Bytes
  | a :: b :: c :: d :: rest => wordsAfter word (word a b c d :: found) rest
  | rest => (found.reverse, rest)

def wordsLE (bytes : Bytes) : List UInt32 × Bytes :=
  wordsAfter ofBytesLE [] bytes

def wordsBE (bytes : Bytes) : List UInt32 × Bytes :=
  wordsAfter ofBytesBE [] bytes

def readLE? : Bytes → Option (UInt32 × Bytes)
  | a :: b :: c :: d :: rest => some (ofBytesLE a b c d, rest)
  | _ => none

end IgaArchive.Word

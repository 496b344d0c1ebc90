import IgaArchive.Bytes

/-!
The payload transform. Each byte is combined by exclusive or with the key and with the low byte of
its position plus two, so the transform is its own inverse and repeats every 256 bytes. Positions
are 64-bit and wrap around.
-/

namespace IgaArchive.Payload

/-- What the byte at a position is combined with. -/
def mask (key : UInt8) (position : Int64) : UInt8 :=
  (position + 2).toUInt64.toUInt8 ^^^ key

/-- Transforms bytes of which the first stands at `position` within its payload. -/
def transform (key : UInt8) (position : Int64) (bytes : Bytes) : Bytes :=
  bytes.mapIdx fun i b => b ^^^ mask key (position + Int64.ofNat i)

structure Cipher where
  key : UInt8
  position : Int64 := 0

def Cipher.apply (cipher : Cipher) (chunk : Bytes) : Bytes × Cipher :=
  (transform cipher.key cipher.position chunk,
    { cipher with position := cipher.position + Int64.ofNat chunk.length })

/-- Transforms the chunks in order; each result comes with the position after it. -/
def Cipher.applyAll (cipher : Cipher) : List Bytes → List (Bytes × Int64)
  | [] => []
  | chunk :: chunks =>
    let (out, next) := cipher.apply chunk
    (out, next.position) :: next.applyAll chunks

end IgaArchive.Payload

import IgaArchive.Bytes

/-!
The contents of a file, held as a packed array and seen as a byte string.
-/

namespace IgaArchive

structure Contents where
  packed : ByteArray := ByteArray.empty

namespace Contents

def ofBytes (bytes : Bytes) : Contents :=
  ⟨bytes.toByteArray⟩

def toBytes (contents : Contents) : Bytes :=
  Bytes.ofByteArray contents.packed

def size (contents : Contents) : Nat :=
  contents.packed.size

/-- Up to `length` bytes from a position on, fewer only at the end. -/
def slice (contents : Contents) (position length : Nat) : Bytes :=
  Bytes.ofByteArray (contents.packed.extract position (position + length))

def resize (contents : Contents) (size : Nat) : Contents :=
  ⟨contents.packed.extract 0 size ++
    Bytes.toByteArray (List.replicate (size - contents.packed.size) 0)⟩

def overwrite (contents : Contents) (position : Nat) (bytes : Bytes) : Contents :=
  let behind := contents.packed.extract (position + bytes.length) contents.packed.size
  ⟨(contents.resize position).packed ++ bytes.toByteArray ++ behind⟩

end Contents

end IgaArchive

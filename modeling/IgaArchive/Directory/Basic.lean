import IgaArchive.Header

/-!
The directory of an archive: its header and one entry per member. An entry gives the offset of the
member's name within all names and the place of its payload behind the directory. Positions are
64-bit and wrap around, as does the total of the sizes.
-/

namespace IgaArchive

/-- One member as recorded in the entry table. -/
structure Entry where
  nameOffset : UInt32
  name : Bytes
  offset : UInt32
  size : UInt32
  deriving DecidableEq, Repr

structure Directory where
  header : Header
  entries : List Entry
  /-- The position right behind the name block, where payloads start. -/
  dataStart : Int64
  deriving DecidableEq, Repr

namespace Directory

/-- The position of a member's payload in the archive. -/
def start (directory : Directory) (entry : Entry) : Int64 :=
  directory.dataStart + Int64.ofNat entry.offset.toNat

def payloadSize (directory : Directory) : UInt64 :=
  directory.entries.foldl (fun total entry => total + entry.size.toUInt64) 0

end Directory

end IgaArchive

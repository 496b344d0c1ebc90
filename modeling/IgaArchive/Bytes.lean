/-!
Byte strings. Archive names, paths and messages are byte strings throughout, because an archive may
carry names that are not UTF-8 text.
-/

namespace IgaArchive

abbrev Bytes := List UInt8

def utf8 (text : String) : Bytes :=
  text.toUTF8.data.toList

namespace Bytes

def code (c : Char) : UInt8 :=
  c.toNat.toUInt8

def slash : UInt8 := code '/'
def backslash : UInt8 := code '\\'
def dot : UInt8 := code '.'
def newline : UInt8 := code '\n'

/-- The maximal pieces between separators, empty pieces included; there is always at least one. -/
def pieces (isSeparator : UInt8 → Bool) (bytes : Bytes) : List Bytes :=
  bytes.splitOnP isSeparator

def fields (isSeparator : UInt8 → Bool) (bytes : Bytes) : List Bytes :=
  (pieces isSeparator bytes).filter fun piece => !piece.isEmpty

def ofByteArray (packed : ByteArray) : Bytes :=
  packed.data.toList

def toByteArray (bytes : Bytes) : ByteArray :=
  ⟨bytes.toArray⟩

end Bytes

end IgaArchive

import IgaArchive.Directory.Basic
import IgaArchive.PackedString
import IgaArchive.Text.Quoted

/-!
Laying out and writing a directory. Members follow each other without gaps, names as well as
payloads, and every offset, size and block length has to fit in 32 bits.
-/

namespace IgaArchive.Directory

def maxField : Nat := 0xFFFFFFFF

inductive LayoutError where
  | lengthMismatch (names sizes : Nat)
  | sizeTooLarge (size : Int64) (name : Bytes)
  | offsetTooLarge (name : Bytes)
  | blocksTooLarge
  deriving DecidableEq, Repr

def LayoutError.message : LayoutError → Bytes
  | .lengthMismatch names sizes =>
    Numeral.decimal names ++ utf8 " names for " ++ Numeral.decimal sizes ++ utf8 " sizes"
  | .sizeTooLarge size name =>
    utf8 "value does not fit in 32 bits: size " ++ Numeral.signed size.toInt ++ utf8 " of " ++
      Quoted.text name
  | .offsetTooLarge name => utf8 "value does not fit in 32 bits: offset of " ++ Quoted.text name
  | .blocksTooLarge => utf8 "value does not fit in 32 bits: directory blocks"

def encodeEntry (entry : Entry) : Bytes :=
  VarUint.encode entry.nameOffset ++ VarUint.encode entry.offset ++ VarUint.encode entry.size

def encodeTable (entries : List Entry) : Bytes :=
  entries.flatMap encodeEntry

def encodeNames (entries : List Entry) : Bytes :=
  entries.flatMap fun entry => PackedString.encode entry.name

def encodeBlock (block : Bytes) : Bytes :=
  VarUint.encode block.length.toUInt32 ++ block

def encode (directory : Directory) : Except LayoutError Bytes :=
  let table := encodeTable directory.entries
  let names := encodeNames directory.entries
  if table.length > maxField ∨ names.length > maxField then .error .blocksTooLarge
  else .ok (directory.header.encode ++ encodeBlock table ++ encodeBlock names)

/-- Lays out members from the given name offset and payload offset on, after the entries in
`placed`, which are in reverse order. -/
def placeAfter (placed : List Entry) (nameOffset offset : UInt64) :
    List (Bytes × Int64) → Except LayoutError (List Entry)
  | [] => .ok placed.reverse
  | (name, size) :: members =>
    if size < 0 ∨ size.toInt > maxField then .error (.sizeTooLarge size name)
    else if nameOffset.toNat > maxField ∨ offset.toNat > maxField then .error (.offsetTooLarge name)
    else
      let entry : Entry := ⟨nameOffset.toUInt32, name, offset.toUInt32, size.toUInt64.toUInt32⟩
      placeAfter (entry :: placed) (nameOffset + name.length.toUInt64) (offset + size.toUInt64) members

/-- The directory of a new archive whose members have the given names and sizes, in order. -/
def layout (names : List Bytes) (sizes : List Int64) : Except LayoutError Directory :=
  if names.length ≠ sizes.length then .error (.lengthMismatch names.length sizes.length)
  else do
    let entries ← placeAfter [] 0 0 (names.zip sizes)
    let planned : Directory := { header := .standard, entries, dataStart := 0 }
    let encoded ← planned.encode
    return { planned with dataStart := Int64.ofNat encoded.length }

end IgaArchive.Directory

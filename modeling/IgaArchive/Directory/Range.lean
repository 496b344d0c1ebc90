import IgaArchive.Directory.Basic
import IgaArchive.Text.Quoted

/-!
Range check of a directory: every payload has to end within the archive.
-/

namespace IgaArchive.Directory

/-- A payload that reaches past the end of the archive. -/
structure OutOfRange where
  name : Bytes
  offset : Int64
  size : UInt32
  fileSize : Int64
  deriving DecidableEq, Repr

def OutOfRange.message (error : OutOfRange) : Bytes :=
  utf8 "entry " ++ Quoted.text error.name ++ utf8 " out of range: offset " ++
    Numeral.signed error.offset.toInt ++ utf8 ", size " ++ Numeral.decimal error.size.toNat ++
    utf8 ", file size " ++ Numeral.signed error.fileSize.toInt

def fits (directory : Directory) (fileSize : Int64) (entry : Entry) : Bool :=
  directory.start entry + Int64.ofNat entry.size.toNat ≤ fileSize

def resolve (directory : Directory) (fileSize : Int64) : Except OutOfRange Unit :=
  match directory.entries.find? fun entry => !directory.fits fileSize entry with
  | some entry => .error ⟨entry.name, directory.start entry, entry.size, fileSize⟩
  | none => .ok ()

end IgaArchive.Directory

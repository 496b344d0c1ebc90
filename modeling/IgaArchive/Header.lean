import IgaArchive.Text.Numeral

/-!
The archive header: sixteen bytes, of which only the signature is checked. The other fields are
carried as they were read.
-/

namespace IgaArchive

structure Header where
  signature : Vector UInt8 4
  unknown : Vector UInt8 4
  padding : Vector UInt8 8
  deriving DecidableEq, Repr

namespace Header

def magic : Vector UInt8 4 := #v[0x49, 0x47, 0x41, 0x30]

def size : Nat := 16

def standard : Header where
  signature := magic
  unknown := #v[0, 0, 0, 0]
  padding := #v[2, 0, 0, 0, 2, 0, 0, 0]

def isValid (header : Header) : Bool :=
  header.signature == magic

def encode (header : Header) : Bytes :=
  header.signature.toList ++ header.unknown.toList ++ header.padding.toList

/-- The `n` bytes at an offset; missing bytes are zero. -/
def fieldAt (n : Nat) (bytes : Bytes) (offset : Nat) : Vector UInt8 n :=
  Vector.ofFn fun i => bytes.getD (offset + i.val) 0

def ofBytes (bytes : Bytes) : Header where
  signature := fieldAt 4 bytes 0
  unknown := fieldAt 4 bytes 4
  padding := fieldAt 8 bytes 8

structure TooShort where
  length : Nat
  deriving DecidableEq, Repr

def TooShort.message (error : TooShort) : Bytes :=
  utf8 "malformed archive: header is " ++ Numeral.decimal error.length ++ utf8 " bytes, want " ++
    Numeral.decimal size

def decode (bytes : Bytes) : Except TooShort Header :=
  if bytes.length < size then .error ⟨bytes.length⟩ else .ok (ofBytes bytes)

/-- Which part of a header was cut short, and whether its first byte was already missing. -/
inductive ReadError where
  | signatureCut (atStart : Bool)
  | signature (got : Vector UInt8 4)
  | restCut (atStart : Bool)
  deriving DecidableEq, Repr

def ReadError.signatureSeen : ReadError → Vector UInt8 4
  | .signatureCut _ => #v[0, 0, 0, 0]
  | .signature got => got
  | .restCut _ => magic

/-- Reads a header and checks its signature; gives back the unread bytes, also after an error. -/
def read (bytes : Bytes) : Except ReadError Header × Bytes :=
  let rest := bytes.drop 4
  if bytes.length < 4 then (.error (.signatureCut bytes.isEmpty), [])
  else if fieldAt 4 bytes 0 ≠ magic then (.error (.signature (fieldAt 4 bytes 0)), rest)
  else if rest.length < 12 then (.error (.restCut rest.isEmpty), [])
  else (.ok (ofBytes bytes), rest.drop 12)

end Header

end IgaArchive

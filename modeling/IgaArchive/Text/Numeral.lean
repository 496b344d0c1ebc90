import IgaArchive.Bytes

/-!
Numerals as they appear in messages: decimal numbers and hexadecimal bytes and words.
-/

namespace IgaArchive.Numeral

def decimal (n : Nat) : Bytes :=
  (Nat.toDigits 10 n).map Bytes.code

def signed (z : Int) : Bytes :=
  if z < 0 then Bytes.code '-' :: decimal z.natAbs else decimal z.natAbs

def hexDigit (n : Nat) : UInt8 :=
  if n < 10 then (48 + n).toUInt8 else (87 + n).toUInt8

def hexDigitUpper (n : Nat) : UInt8 :=
  if n < 10 then (48 + n).toUInt8 else (55 + n).toUInt8

def hexByte (b : UInt8) : Bytes :=
  [hexDigit (b.toNat / 16), hexDigit (b.toNat % 16)]

def hexByteUpper (b : UInt8) : Bytes :=
  [hexDigitUpper (b.toNat / 16), hexDigitUpper (b.toNat % 16)]

def hexBytes (bytes : Bytes) : Bytes :=
  bytes.flatMap hexByte

def hexSpaced (bytes : Bytes) : Bytes :=
  [Bytes.code ' '].intercalate (bytes.map hexByte)

def hex (n : Nat) : Bytes :=
  (Nat.toDigits 16 n).map Bytes.code

def hexPadded (width n : Nat) : Bytes :=
  let digits := hex n
  List.replicate (width - digits.length) (Bytes.code '0') ++ digits

end IgaArchive.Numeral

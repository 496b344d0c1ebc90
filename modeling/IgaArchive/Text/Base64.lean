import IgaArchive.Bytes

/-!
Reading base-64 text with padding. Line breaks between the characters do not count.
-/

namespace IgaArchive.Base64

def value? (c : Char) : Option Nat :=
  if 'A' ≤ c ∧ c ≤ 'Z' then some (c.toNat - 65)
  else if 'a' ≤ c ∧ c ≤ 'z' then some (c.toNat - 71)
  else if '0' ≤ c ∧ c ≤ '9' then some (c.toNat + 4)
  else if c = '+' then some 62
  else if c = '/' then some 63
  else none

/-- The bytes of a number made of three bytes, the first `count` of them. -/
def bytesOf (n count : Nat) : Bytes :=
  [(n / 65536).toUInt8, (n / 256).toUInt8, n.toUInt8].take count

/-- Reads groups of four characters; only the last may be padded. -/
def decodeGroups : List Char → Option Bytes
  | [] => some []
  | [a, b, '=', '='] => do
    return bytesOf (((← value? a) * 64 + (← value? b)) * 4096) 1
  | [a, b, c, '='] => do
    return bytesOf ((((← value? a) * 64 + (← value? b)) * 64 + (← value? c)) * 64) 2
  | a :: b :: c :: d :: rest => do
    let n := (((← value? a) * 64 + (← value? b)) * 64 + (← value? c)) * 64 + (← value? d)
    return bytesOf n 3 ++ (← decodeGroups rest)
  | _ => none

def decode? (text : List Char) : Option Bytes :=
  decodeGroups (text.filter fun c => c != '\n' && c != '\r')

end IgaArchive.Base64

import IgaArchive.Bytes

/-!
Byte strings read as UTF-8. A byte string is cut into runes: each well-formed UTF-8 sequence is one
character, and every byte that starts no such sequence is a rune of its own.
-/

namespace IgaArchive

inductive Rune where
  | char (c : Char)
  | stray (b : UInt8)
  deriving DecidableEq, Repr

namespace Rune

def continuation? (b : UInt8) : Option Nat :=
  if 0x80 ≤ b ∧ b < 0xC0 then some (b.toNat - 0x80) else none

/-- A code point that takes at least `least`, and is a character. -/
def charFrom? (least n : Nat) : Option Char :=
  if least ≤ n then if h : n.isValidChar then some (Char.ofNatAux n h) else none else none

/-- The multi-byte character at the front of `lead :: rest`, with the number of bytes after `lead`. -/
def sequence? (lead : UInt8) (rest : Bytes) : Option (Char × Nat) := do
  if lead < 0xC2 then none
  else if lead < 0xE0 then
    let c1 ← continuation? (← rest[0]?)
    return (← charFrom? 0x80 ((lead.toNat - 0xC0) * 64 + c1), 1)
  else if lead < 0xF0 then
    let c1 ← continuation? (← rest[0]?)
    let c2 ← continuation? (← rest[1]?)
    return (← charFrom? 0x800 (((lead.toNat - 0xE0) * 64 + c1) * 64 + c2), 2)
  else if lead < 0xF5 then
    let c1 ← continuation? (← rest[0]?)
    let c2 ← continuation? (← rest[1]?)
    let c3 ← continuation? (← rest[2]?)
    return (← charFrom? 0x10000 ((((lead.toNat - 0xF0) * 64 + c1) * 64 + c2) * 64 + c3), 3)
  else none

def first (lead : UInt8) (rest : Bytes) : Rune × Bytes :=
  if lead < 0x80 then (.char (Char.ofNat lead.toNat), rest)
  else
    match sequence? lead rest with
    | some (c, count) => (.char c, rest.drop count)
    | none => (.stray lead, rest)

theorem first_rest_length (lead : UInt8) (rest : Bytes) :
    (first lead rest).2.length < (lead :: rest).length := by
  unfold first
  split
  · exact Nat.lt_succ_self _
  · split
    · exact Nat.lt_succ_of_le (by rw [List.length_drop]; exact Nat.sub_le _ _)
    · exact Nat.lt_succ_self _

def decodeAfter (found : List Rune) (bytes : Bytes) : List Rune :=
  match bytes with
  | [] => found.reverse
  | lead :: rest => decodeAfter ((first lead rest).1 :: found) (first lead rest).2
termination_by bytes.length
decreasing_by exact first_rest_length lead rest

def decode (bytes : Bytes) : List Rune :=
  decodeAfter [] bytes

def chars? (bytes : Bytes) : Option (List Char) :=
  (decode bytes).mapM fun
    | .char c => some c
    | .stray _ => none

def count (bytes : Bytes) : Nat :=
  (decode bytes).length

end Rune

end IgaArchive

import IgaArchive.Bytes

/-!
Variable-length numbers. A 32-bit number is written as seven-bit groups, most significant group
first. Each group fills the upper bits of one byte; bit 0 is set on the last byte only. The writer
leaves out leading zero groups, the reader accepts them.
-/

namespace IgaArchive.VarUint

/-- The bytes of the groups before the last one, leading zero groups left out. -/
def leadingGroups (n : Nat) : Bytes :=
  if n = 0 then [] else leadingGroups (n / 128) ++ [(n % 128 * 2).toUInt8]
termination_by n
decreasing_by omega

def encode (v : UInt32) : Bytes :=
  leadingGroups (v.toNat / 128) ++ [(v.toNat % 128 * 2 + 1).toUInt8]

inductive ReadError where
  | endOfInput
  /-- The bytes ended before the last group. -/
  | unexpectedEnd
  /-- The groups read so far exceed 32 bits. -/
  | overflow
  deriving DecidableEq, Repr

/-- Within a block that promises more bytes, a missing number is an unexpected end. -/
def ReadError.withinBlock : ReadError → ReadError
  | .endOfInput => .unexpectedEnd
  | error => error

def ReadError.message : ReadError → Bytes
  | .endOfInput => utf8 "EOF"
  | .unexpectedEnd => utf8 "unexpected EOF"
  | .overflow => utf8 "malformed archive: varuint overflows 32 bits"

/-- Continues a number whose groups so far are `value`, shifted up past a clear bit 0. -/
def readOn (value : UInt64) : Bytes → Except ReadError UInt32 × Bytes
  | [] => (.error .unexpectedEnd, [])
  | b :: rest =>
    let next := value * 128 + b.toUInt64
    if next / 2 > 0xFFFFFFFF then (.error .overflow, rest)
    else if next % 2 = 1 then (.ok (next / 2).toUInt32, rest)
    else readOn next rest

/-- Reads one number and gives back the unread bytes, also after an error. -/
def read : Bytes → Except ReadError UInt32 × Bytes
  | [] => (.error .endOfInput, [])
  | b :: rest => readOn 0 (b :: rest)

theorem readOn_rest_length (value : UInt64) (bytes : Bytes) :
    (readOn value bytes).2.length ≤ bytes.length - 1 := by
  induction bytes generalizing value with
  | nil => simp [readOn]
  | cons b rest ih =>
      simp only [readOn]
      split
      · simp
      · split
        · simp
        · exact Nat.le_trans (ih _) (by simp)

theorem read_rest_length (b : UInt8) (rest : Bytes) :
    (read (b :: rest)).2.length < (b :: rest).length := by
  have bound := readOn_rest_length 0 (b :: rest)
  simp only [read, List.length_cons] at *
  omega

/-- Every number up to the first error, each with the count of bytes left after it, and that error
with the count of bytes left after it. -/
def readUntilError (bytes : Bytes) (found : List (UInt32 × Nat)) :
    List (UInt32 × Nat) × ReadError × Nat :=
  match bytes with
  | [] => (found.reverse, .endOfInput, 0)
  | b :: tail =>
    match _step : read (b :: tail) with
    | (.ok v, rest) => readUntilError rest ((v, rest.length) :: found)
    | (.error error, rest) => (found.reverse, error, rest.length)
termination_by bytes.length
decreasing_by simpa [_step] using read_rest_length b tail

end IgaArchive.VarUint

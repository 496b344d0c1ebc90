import IgaArchive.VarUint

/-!
Packed strings. A name is stored as one variable-length number per byte; the reader keeps the low
byte of each number.
-/

namespace IgaArchive.PackedString

def encode (text : Bytes) : Bytes :=
  text.flatMap fun b => VarUint.encode b.toUInt32

/-- Reads one packed byte. A missing number is an unexpected end. -/
def readByte (bytes : Bytes) : Except VarUint.ReadError UInt8 × Bytes :=
  match VarUint.read bytes with
  | (.ok v, rest) => (.ok v.toUInt8, rest)
  | (.error error, rest) => (.error error.withinBlock, rest)

/-- Reads `count` packed bytes after those in `found`, which are in reverse order. -/
def readExactlyAfter (found : Bytes) : Nat → Bytes → Except VarUint.ReadError Bytes × Bytes
  | 0, bytes => (.ok found.reverse, bytes)
  | count + 1, bytes =>
    match readByte bytes with
    | (.ok b, rest) => readExactlyAfter (b :: found) count rest
    | (.error error, rest) => (.error error, rest)

def readExactly (count : Nat) (bytes : Bytes) : Except VarUint.ReadError Bytes × Bytes :=
  readExactlyAfter [] count bytes

theorem readByte_rest_length (b : UInt8) (rest : Bytes) :
    (readByte (b :: rest)).2.length < (b :: rest).length := by
  have bound := VarUint.read_rest_length b rest
  unfold readByte
  split <;> simp_all

def readAllAfter (found : Bytes) (bytes : Bytes) : Except VarUint.ReadError Bytes × Bytes :=
  match bytes with
  | [] => (.ok found.reverse, [])
  | b :: tail =>
    match _step : readByte (b :: tail) with
    | (.ok c, rest) => readAllAfter (c :: found) rest
    | (.error error, rest) => (.error error, rest)
termination_by bytes.length
decreasing_by simpa [_step] using readByte_rest_length b tail

def readAll (bytes : Bytes) : Except VarUint.ReadError Bytes × Bytes :=
  readAllAfter [] bytes

end IgaArchive.PackedString

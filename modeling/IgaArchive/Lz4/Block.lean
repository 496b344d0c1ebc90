import IgaArchive.Bytes

/-!
LZ4 blocks. A block is a row of sequences: literal bytes, then a match that repeats earlier output.
The last sequence may stop after its literals. Output is collected in one array, so a match reaches
back into earlier blocks exactly when the caller lets it.
-/

namespace IgaArchive.Lz4.Block

/-- Reads the rest of a length whose token field is full: bytes are added up to the first below 255. -/
def extendLength (length : Nat) : Bytes → Option (Nat × Bytes)
  | [] => none
  | b :: rest =>
    if b = 255 then extendLength (length + 255) rest else some (length + b.toNat, rest)

def readLength (field : Nat) (bytes : Bytes) : Option (Nat × Bytes) :=
  if field = 15 then extendLength 15 bytes else some (field, bytes)

def pushAll (output : ByteArray) (bytes : Bytes) : ByteArray :=
  bytes.foldl ByteArray.push output

/-- Repeats `count` bytes from `offset` bytes back; the copy may overlap what it produces. -/
def copyBack (offset : Nat) : (count : Nat) → ByteArray → ByteArray
  | 0, output => output
  | count + 1, output => copyBack offset count (output.push (output[output.size - offset]?.getD 0))

/-- Decodes sequences onto `output`. Matches may not reach before `oldest`, and the output may not
grow past `limit`. Every sequence takes a byte, so `fuel` need not exceed their number. -/
def decodeSequences (oldest limit : Nat) : (fuel : Nat) → Bytes → ByteArray → Option ByteArray
  | _, [], output => some output
  | 0, _ :: _, _ => none
  | fuel + 1, token :: rest, output => do
    let (literalCount, rest) ← readLength (token.toNat / 16) rest
    let (literals, rest) := rest.splitAt literalCount
    if literals.length < literalCount ∨ output.size + literalCount > limit then none
    else
      let output := pushAll output literals
      let field := token.toNat % 16
      match rest with
      | [] => if field = 0 then some output else none
      | [_] => none
      | low :: high :: rest =>
        let offset := low.toNat + 256 * high.toNat
        let (count, rest) ← readLength field rest
        if offset = 0 ∨ output.size < oldest + offset ∨ output.size + count + 4 > limit then none
        else decodeSequences oldest limit fuel rest (copyBack offset (count + 4) output)

def decode (oldest room : Nat) (block : Bytes) (output : ByteArray) : Option ByteArray :=
  decodeSequences oldest (output.size + room) block.length block output

end IgaArchive.Lz4.Block

import IgaArchive.Hash.XxHash32
import IgaArchive.Lz4.Block
import IgaArchive.Text.Numeral

/-!
LZ4 frames: a descriptor, blocks, an end mark and an optional checksum of the content. Input that
stops exactly between two items ends the frame quietly, dropping an incomplete block; input that stops
inside an item is cut short.
-/

namespace IgaArchive.Lz4

def magic : Bytes := [0x04, 0x22, 0x4D, 0x18]

inductive Error where
  | headerChecksum (computed stored : UInt8)
  | blockSize
  | corruptBlock
  | blockChecksum (computed stored : UInt32)
  | contentChecksum (computed stored : UInt32)
  | unexpectedEnd
  deriving DecidableEq, Repr

def mismatch (what : String) (computed stored : Nat) : Bytes :=
  utf8 what ++ utf8 ": got " ++ Numeral.hex computed ++ utf8 "; expected " ++ Numeral.hex stored

def Error.message : Error → Bytes
  | .headerChecksum computed stored =>
    mismatch "lz4: invalid header checksum" computed.toNat stored.toNat
  | .blockSize => utf8 "lz4: invalid block size"
  | .corruptBlock => utf8 "lz4: invalid source or destination buffer too short"
  | .blockChecksum computed stored =>
    mismatch "lz4: invalid block checksum" computed.toNat stored.toNat
  | .contentChecksum computed stored =>
    mismatch "lz4: invalid frame checksum" computed.toNat stored.toNat
  | .unexpectedEnd => utf8 "unexpected EOF"

structure Descriptor where
  independent : Bool
  blockChecksums : Bool
  contentChecksum : Bool
  blockMax : Nat
  deriving DecidableEq, Repr

/-- Takes an item of `count` bytes. No input at all is `none`, part of the item an error. -/
def takeItem (count : Nat) (bytes : Bytes) : Except Error (Option (Bytes × Bytes)) :=
  let (item, rest) := bytes.splitAt count
  if count ≤ item.length then .ok (some (item, rest))
  else if item.isEmpty then .ok none
  else .error .unexpectedEnd

def takeWord (bytes : Bytes) : Except Error (Option (UInt32 × Bytes)) := do
  match ← takeItem 4 bytes with
  | none => return none
  | some (item, rest) => return (Word.readLE? item).map fun (word, _) => (word, rest)

def blockMax? (index : Nat) : Option Nat :=
  match index with
  | 4 => some 0x10000
  | 5 => some 0x40000
  | 6 => some 0x100000
  | 7 => some 0x400000
  | _ => none

def bit (b : UInt8) (i : Nat) : Bool :=
  b.toNat.testBit i

def headerChecksum (fields : Bytes) : UInt8 :=
  (XxHash32.checksum fields >>> 8).toUInt8

def Descriptor.ofFields (fields : Bytes) (stored : UInt8) : Except Error Descriptor :=
  let flags := fields.getD 0 0
  let sizes := fields.getD 1 0
  if headerChecksum fields ≠ stored then .error (.headerChecksum (headerChecksum fields) stored)
  else
    match blockMax? (sizes.toNat / 16 % 8) with
    | none => .error .blockSize
    | some blockMax =>
      .ok { independent := bit flags 5, blockChecksums := bit flags 4,
            contentChecksum := bit flags 2, blockMax }

def readDescriptor (bytes : Bytes) : Except Error (Option (Descriptor × Bytes)) := do
  match ← takeItem 3 bytes with
  | none => return none
  | some (short, rest) =>
    if bit (short.getD 0 0) 3 then
      match ← takeItem 8 rest with
      | none => return none
      | some (long, rest) =>
        let all := short ++ long
        return some (← Descriptor.ofFields all.dropLast (all.getLastD 0), rest)
    else return some (← Descriptor.ofFields short.dropLast (short.getLastD 0), rest)

/-- Receiving buffers start at 512 bytes and double when full; this is the end of the one that takes
the byte at position `produced`. -/
def bufferEnd (produced : Nat) : Nat :=
  if produced < 512 then 512 else Nat.pow 2 (produced.log2 + 1)

/-- The room for a block: its maximum, or all that is left of the receiving buffer if that is more. -/
def blockRoom (blockMax stop produced : Nat) : Nat :=
  max blockMax (min (bufferEnd produced) stop - produced)

structure StoredBlock where
  packed : Bool
  body : Bytes
  checksum : Option UInt32

inductive Item where
  | block (block : StoredBlock)
  | endMark
  | nothing

def readBlock (descriptor : Descriptor) (bytes : Bytes) : Except Error (Item × Bytes) := do
  match ← takeWord bytes with
  | none => return (.nothing, [])
  | some (word, rest) =>
    let size := word.toNat % 0x80000000
    if word = 0 then return (.endMark, rest)
    else if descriptor.blockMax < size then throw .blockSize
    else
      match ← takeItem size rest with
      | none => return (.nothing, [])
      | some (body, rest) =>
        let packed := word.toNat < 0x80000000
        if descriptor.blockChecksums then
          match ← takeWord rest with
          | none => return (.nothing, [])
          | some (checksum, rest) => return (.block ⟨packed, body, some checksum⟩, rest)
        else return (.block ⟨packed, body, none⟩, rest)

def unpackBlock (descriptor : Descriptor) (stop : Nat) (block : StoredBlock) (output : ByteArray) :
    Except Error ByteArray := do
  let start := output.size
  let oldest := if descriptor.independent then start else 0
  let output ←
    if block.packed then
      match Block.decode oldest (blockRoom descriptor.blockMax stop start) block.body output with
      | some output => pure output
      | none => throw .corruptBlock
    else pure (Block.pushAll output block.body)
  match block.checksum with
  | none => return output
  | some stored =>
    let computed := XxHash32.checksum (Bytes.ofByteArray (output.extract start output.size))
    if computed = stored then return output else throw (.blockChecksum computed stored)

def checkContent (descriptor : Descriptor) (bytes : Bytes) (output : ByteArray) :
    Except Error ByteArray := do
  if descriptor.contentChecksum then
    match ← takeWord bytes with
    | none => return output
    | some (stored, _) =>
      let computed := XxHash32.checksum (Bytes.ofByteArray output)
      if computed = stored then return output else throw (.contentChecksum computed stored)
  else return output

/-- Unpacks blocks until the frame ends or `stop` bytes are there. A block takes at least four bytes
of input, so `fuel` need not exceed its length. -/
def unpackBlocks (descriptor : Descriptor) (stop : Nat) :
    (fuel : Nat) → Bytes → ByteArray → Except Error ByteArray
  | 0, _, output => .ok output
  | fuel + 1, bytes, output => do
    if stop ≤ output.size then return output
    match ← readBlock descriptor bytes with
    | (.nothing, _) => return output
    | (.endMark, rest) => checkContent descriptor rest output
    | (.block block, rest) =>
      unpackBlocks descriptor stop fuel rest (← unpackBlock descriptor stop block output)

/-- The content of the frame whose magic bytes have been taken off. Unpacking stops once `stop` bytes
are there; nothing after the block that reaches them is looked at. -/
def unpack (stop : Nat) (bytes : Bytes) : Except Error Bytes := do
  match ← readDescriptor bytes with
  | none => return []
  | some (descriptor, rest) =>
    let output ← unpackBlocks descriptor stop (rest.length + 1) rest ByteArray.empty
    return Bytes.ofByteArray output

end IgaArchive.Lz4

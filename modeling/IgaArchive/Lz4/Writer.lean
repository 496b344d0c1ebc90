import IgaArchive.Lz4.Frame
import IgaArchive.Lz4.Packing

/-!
Writing an LZ4 frame. Content is gathered into blocks of four mebibytes, which are packed, or stored
as they are if that does not make them shorter; the frame ends with the checksum of all content. A
writer gives back the byte strings it hands on, one for each write below it.
-/

namespace IgaArchive.Lz4

/-- Magic bytes and descriptor of a written frame: independent blocks of up to four mebibytes and a
content checksum. -/
def frameStart : Bytes :=
  magic ++ [0x64, 0x70, headerChecksum [0x64, 0x70]]

def writtenBlock : Nat := 0x400000

structure Writer where
  started : Bool := false
  content : ByteArray := ByteArray.empty
  /-- How much of the content stands in finished blocks. -/
  finished : Nat := 0

def block (content : ByteArray) : List Bytes :=
  match Packing.pack? content with
  | some packed => [Word.bytesLE packed.length.toUInt32, packed]
  | none => [Word.bytesLE (content.size.toUInt32 ||| 0x80000000), Bytes.ofByteArray content]

namespace Writer

def cut (writer : Writer) (length : Nat) : List Bytes × Writer :=
  let stop := writer.finished + length
  (block (writer.content.extract writer.finished stop), { writer with finished := stop })

def cutFull : (fuel : Nat) → Writer → List Bytes × Writer
  | 0, writer => ([], writer)
  | fuel + 1, writer =>
    if writer.content.size < writer.finished + writtenBlock then ([], writer)
    else
      let (block, writer) := writer.cut writtenBlock
      let (blocks, writer) := cutFull fuel writer
      (block ++ blocks, writer)

def write (writer : Writer) (bytes : Bytes) : List Bytes × Writer :=
  let opening := if writer.started then [] else [frameStart]
  let grown := { writer with started := true, content := Block.pushAll writer.content bytes }
  let (blocks, next) := cutFull (grown.content.size / writtenBlock) grown
  (opening ++ blocks, next)

/-- How much of the bytes of a write has been taken when it is given up after `handedOn` byte strings
were handed on. Bytes that complete a begun block are taken before that block is handed on, those of a
whole block only after it. -/
def takenUntil (writer : Writer) (handedOn : Nat) : Nat :=
  let begun := writer.content.size - writer.finished
  let blocks := (handedOn - if writer.started then 0 else 1) / 2
  max blocks (if begun = 0 then 0 else 1) * writtenBlock - begun

/-- Ends the frame: the last block if it holds anything, the end mark and the checksum. -/
def close (writer : Writer) : List Bytes :=
  let left := writer.content.size - writer.finished
  let last := if left = 0 then [] else (writer.cut left).1
  last ++ [[0, 0, 0, 0] ++ Word.bytesLE (XxHash32.checksum (Bytes.ofByteArray writer.content))]

end Writer

end IgaArchive.Lz4

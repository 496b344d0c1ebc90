import IgaArchive.Lz4.Block

/-!
Packing content into an LZ4 block. A search through the content finds stretches that repeat earlier
ones; what stands between them is kept as literals. The search is greedy and moves faster the longer
it finds nothing. A packed block is used only if it is shorter than the content.
-/

namespace IgaArchive.Lz4.Packing

/-- One sequence of a block: literals, then a stretch that repeats what stands `offset` bytes before
it. -/
structure Sequence where
  literals : Nat
  offset : Nat
  length : Nat

def window : Nat := 0x10000

def minMatch : Nat := 4

/-- No stretch starts or grows within this many bytes of the end. -/
def margin : Nat := 14

/-- Where byte strings were last seen: for each hash a position, modulo the window. -/
abbrev Table := Array UInt16

def emptyTable : Table := Array.replicate window 0

def byteAt (content : ByteArray) (position : Nat) : UInt64 :=
  (content[position]?.getD 0).toUInt64

def wordAt (content : ByteArray) (position : Nat) : UInt64 :=
  [0, 1, 2, 3, 4, 5, 6, 7].foldr (fun i word => (word <<< 8) ||| byteAt content (position + i)) 0

def hash (word : UInt64) : Nat :=
  (((word &&& 0xFFFFFFFFFF) * 227718039650203) >>> 48).toNat

/-- The latest position before this one that the table may mean, if there can be one. -/
def look (table : Table) (key position : Nat) : Option Nat :=
  let candidate := (table.getD key 0).toNat + position / window * window
  if candidate < position then some candidate
  else if window ≤ candidate then some (candidate - window)
  else none

def note (table : Table) (key position : Nat) : Table :=
  table.setIfInBounds key position.toUInt16

/-- The distance back to a candidate, if the same four bytes stand there within the window. -/
def offsetTo? (content : ByteArray) (position : Nat) (candidate : Option Nat) : Option Nat := do
  let candidate ← candidate
  let offset := position - candidate
  if offset < window ∧
      (wordAt content position).toUInt32 = (wordAt content candidate).toUInt32 then some offset
  else none

def hitAt (content : ByteArray) (table : Table) (key position : Nat) : Option (Nat × Nat) :=
  (offsetTo? content position (look table key position)).map fun offset => (position, offset)

/-- Looks for a repetition at a position and the two after it. -/
def probe (content : ByteArray) (table : Table) (position : Nat) : Table × Option (Nat × Nat) :=
  let word := wordAt content position
  let key := hash word
  let nextKey := hash (word >>> 8)
  let early := (hitAt content table key position).or (hitAt content table nextKey (position + 1))
  let table := note (note table key position) nextKey (position + 1)
  if early.isSome then (table, early)
  else
    let lastKey := hash (word >>> 16)
    let late := hitAt content table lastKey (position + 2)
    (note table lastKey (position + 2), late)

/-- How many bytes before a position repeat as well, at most `room`. -/
def growBack (content : ByteArray) (position offset : Nat) : (room : Nat) → Nat
  | 0 => 0
  | room + 1 =>
    if offset < position ∧ byteAt content (position - 1) = byteAt content (position - 1 - offset) then
      growBack content (position - 1) offset room + 1
    else 0

/-- Where a stretch ends that has been followed to a position. It is followed eight bytes at a time
while these stay in front of `stop`; `fuel` bounds the number of bytes. -/
def growOn (content : ByteArray) (offset stop : Nat) : (fuel : Nat) → (position : Nat) → Nat
  | 0, position => position
  | fuel + 1, position =>
    if stop < position + 8 then position
    else if wordAt content position = wordAt content (position - offset) then
      growOn content offset stop fuel (position + 8)
    else
      position + ((List.range 8).takeWhile fun i =>
        byteAt content (position + i) = byteAt content (position + i - offset)).length

/-- How far a search has come: the bytes in front of `anchor` are packed, by the sequences that were found,
the latest first. -/
structure Search where
  table : Table := emptyTable
  position : Nat := 0
  anchor : Nat := 0
  found : List Sequence := []

def extend (content : ByteArray) (stop : Nat) (table : Table) (anchor : Nat) (found : List Sequence)
    (hit : Nat × Nat) : Search :=
  let (place, offset) := hit
  let start := place - growBack content place offset (place - anchor)
  let finish := growOn content offset stop content.size (place + minMatch)
  { table := note table (hash (wordAt content (finish - 2))) (finish - 2)
    position := finish
    anchor := finish
    found := { literals := start - anchor, offset, length := finish - start } :: found }

/-- Probes once, and goes on behind the stretch that is found or further ahead. -/
def advance (content : ByteArray) (stop : Nat) : Search → Search
  | ⟨table, position, anchor, found⟩ =>
    let probed := probe content table position
    let last := position + 2
    probed.2.elim ⟨probed.1, last + 2 + (last - anchor) / 128, anchor, found⟩
      (extend content stop probed.1 anchor found)

def searchUntil (content : ByteArray) (stop : Nat) : (fuel : Nat) → Search → Search
  | 0, search => search
  | fuel + 1, search =>
    if stop ≤ search.position then search
    else searchUntil content stop fuel (advance content stop search)

def search (content : ByteArray) : List Sequence × Nat :=
  let done := searchUntil content (content.size - margin) content.size {}
  (done.found.reverse, done.anchor)

/-- The part of a length that stands behind the token: as many full bytes as it takes. -/
def lengthBytes (length : Nat) : Bytes :=
  if length < 15 then []
  else List.replicate ((length - 15) / 255) 255 ++ [((length - 15) % 255).toUInt8]

def opening (literals extra : Nat) : Bytes :=
  (min literals 15 * 16 + min extra 15).toUInt8 :: lengthBytes literals

def literalsAt (content : ByteArray) (position count : Nat) : Bytes :=
  Bytes.ofByteArray (content.extract position (position + count))

def renderOne (content : ByteArray) (position : Nat) (sequence : Sequence) : Bytes :=
  let extra := sequence.length - minMatch
  opening sequence.literals extra ++ literalsAt content position sequence.literals ++
    [sequence.offset.toUInt8, (sequence.offset / 256).toUInt8] ++ lengthBytes extra

def render (content : ByteArray) : (position : Nat) → List Sequence → List Bytes
  | _, [] => []
  | position, sequence :: rest =>
    renderOne content position sequence ::
      render content (position + sequence.literals + sequence.length) rest

def pack? (content : ByteArray) : Option Bytes :=
  let (sequences, anchor) := search content
  let front := (render content 0 sequences).flatten ++ opening (content.size - anchor) 0
  let block := front ++ literalsAt content anchor (content.size - anchor)
  if block.length < content.size then some block else none

end IgaArchive.Lz4.Packing

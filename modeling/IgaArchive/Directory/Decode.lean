import IgaArchive.Directory.Basic
import IgaArchive.PackedString

/-!
Reading a directory: the header, then two blocks, each a length followed by that many bytes. The
first block holds the entries as triples of numbers, the second the packed names. Every name but the
last is as long as the step to the next name offset; the last one takes all that is left, so it may be
padded with leading zero groups.
-/

namespace IgaArchive.Directory

inductive BlockError where
  /-- A number of the entry with this index could not be read. -/
  | entry (index : Nat) (error : VarUint.ReadError)
  /-- The step between name offsets is negative or more than the bytes left. -/
  | nameLength (index : Nat) (length : Int) (left : Nat)
  | name (index : Nat) (error : VarUint.ReadError)
  deriving DecidableEq, Repr

def BlockError.message : BlockError → Bytes
  | .entry index error =>
    utf8 "malformed archive: entry " ++ Numeral.decimal index ++ utf8 ": " ++ error.message
  | .nameLength index length left =>
    utf8 "malformed archive: entry " ++ Numeral.decimal index ++ utf8 " name length " ++
      Numeral.signed length ++ utf8 " with " ++ Numeral.decimal left ++ utf8 " name bytes left"
  | .name index error =>
    utf8 "malformed archive: name of entry " ++ Numeral.decimal index ++ utf8 ": " ++ error.message

inductive ReadError where
  | header (error : Header.ReadError)
  | tableBlock (error : VarUint.ReadError)
  | nameBlock (error : VarUint.ReadError)
  | block (error : BlockError)
  deriving DecidableEq, Repr

/-- Reads a length and that many bytes; gives the block and the unread bytes. -/
def readBlock (bytes : Bytes) : Except VarUint.ReadError (Bytes × Bytes) :=
  match VarUint.read bytes with
  | (.error error, _) => .error error.withinBlock
  | (.ok length, rest) =>
    let (block, rest) := rest.splitAt length.toNat
    if block.length < length.toNat then .error .unexpectedEnd else .ok (block, rest)

/-- Reads the three numbers of one entry: name offset, offset and size. The name stays empty. -/
def readEntry (bytes : Bytes) : Except VarUint.ReadError Entry × Bytes :=
  match VarUint.read bytes with
  | (.error error, rest) => (.error error, rest)
  | (.ok nameOffset, rest) =>
    match VarUint.read rest with
    | (.error error, rest) => (.error error, rest)
    | (.ok offset, rest) =>
      match VarUint.read rest with
      | (.error error, rest) => (.error error, rest)
      | (.ok size, rest) => (.ok ⟨nameOffset, [], offset, size⟩, rest)

theorem read_rest_length_le (bytes : Bytes) : (VarUint.read bytes).2.length ≤ bytes.length := by
  cases bytes with
  | nil => simp [VarUint.read]
  | cons b rest => exact Nat.le_of_lt (VarUint.read_rest_length b rest)

theorem readEntry_rest_length (b : UInt8) (tail : Bytes) :
    (readEntry (b :: tail)).2.length < (b :: tail).length := by
  have first := VarUint.read_rest_length b tail
  unfold readEntry
  split
  · simp_all
  · rename_i rest firstRead
    have second := read_rest_length_le rest
    rw [firstRead] at first
    split
    · simp_all
      omega
    · rename_i rest' secondRead
      have third := read_rest_length_le rest'
      rw [secondRead] at second
      split <;> simp_all <;> omega

def readTableAfter (found : List Entry) (table : Bytes) : Except BlockError (List Entry) :=
  match table with
  | [] => .ok found.reverse
  | b :: tail =>
    match _step : readEntry (b :: tail) with
    | (.ok entry, rest) => readTableAfter (entry :: found) rest
    | (.error error, _) => .error (.entry found.length error)
termination_by table.length
decreasing_by simpa [_step] using readEntry_rest_length b tail

def readTable (table : Bytes) : Except BlockError (List Entry) :=
  readTableAfter [] table

/-- Names the entries in order, after those in `named`, which are in reverse order. The entries come
back in any case; after an error those from the failing one on are as they were. -/
def readNamesAfter (named : List Entry) : List Entry → Bytes → List Entry × Option BlockError
  | [], _ => (named.reverse, none)
  | [entry], names =>
    match PackedString.readAll names with
    | (.ok name, _) => (({ entry with name } :: named).reverse, none)
    | (.error error, _) => ((entry :: named).reverse, some (.name named.length error))
  | entry :: next :: entries, names =>
    let length : Int := next.nameOffset.toNat - entry.nameOffset.toNat
    if length < 0 ∨ names.length < length then
      (named.reverseAux (entry :: next :: entries),
        some (.nameLength named.length length names.length))
    else
      match PackedString.readExactly length.toNat names with
      | (.ok name, rest) => readNamesAfter ({ entry with name } :: named) (next :: entries) rest
      | (.error error, _) =>
        (named.reverseAux (entry :: next :: entries), some (.name named.length error))

def readNames (entries : List Entry) (names : Bytes) : List Entry × Option BlockError :=
  readNamesAfter [] entries names

def read (bytes : Bytes) : Except ReadError Directory :=
  match Header.read bytes with
  | (.error error, _) => .error (.header error)
  | (.ok header, rest) => do
    let (table, rest) ← (readBlock rest).mapError .tableBlock
    let (names, rest) ← (readBlock rest).mapError .nameBlock
    let entries ← (readTable table).mapError .block
    match readNames entries names with
    | (_, some error) => .error (.block error)
    | (entries, none) =>
      .ok { header, entries, dataStart := Int64.ofNat (bytes.length - rest.length) }

end IgaArchive.Directory

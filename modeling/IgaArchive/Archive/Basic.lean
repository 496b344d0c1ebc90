import IgaArchive.Workspace

/-!
Opening an archive. The directory is read and checked against the size of the container. A container
may be wrapped in an LZ4 frame; it is then unpacked into memory, else its payloads are read from the
file as it is at the time of reading.
-/

namespace IgaArchive

inductive Container where
  | inFile (location : Location)
  | inMemory (contents : Contents)

structure Archive where
  path : Bytes
  directory : Directory
  size : Int64
  /-- Whether the container came out of an LZ4 frame. -/
  wrapped : Bool
  container : Container

namespace Archive

def maxUnwrapSize : Nat := 0x200000000

def unwrap (limit : Nat) (bytes : Bytes) : Except Failure Bytes :=
  if bytes.take 4 ≠ Lz4.magic then .error .notAFrame
  else
    match Lz4.unpack (limit + 1) (bytes.drop 4) with
    | .error error => .error (.during .unwrapFrame (.frame error))
    | .ok content => if content.length > limit then .error (.frameTooLarge limit) else .ok content

/-- The bytes of an opened file, or the failure that reading it in `step` meets. -/
def bytesOf (path : Bytes) (step : Step) : Store.Node → Except Failure Bytes
  | .file contents => .ok contents.toBytes
  | .fullDevice => .ok []
  | .directory => .error (.during step (.store ⟨"read", path, .isDirectory⟩))

def ofContainer (path bytes : Bytes) (wrapped : Bool) (container : Container) : Action Archive := do
  let directory ← Action.ofExcept ((Directory.read bytes).mapError .ofDirectory)
  Action.detail (path ++ utf8 ": " ++ Numeral.decimal directory.entries.length ++
    utf8 " entries, data start " ++ Numeral.signed directory.dataStart.toInt ++ utf8 ", size " ++
    Numeral.decimal bytes.length)
  let size := Int64.ofNat bytes.length
  Action.ofExcept ((directory.resolve size).mapError .outOfRange)
  return { path, directory, size, wrapped, container }

/-- Opens the archive at a path; with `wrapped` the file has to be an LZ4 frame. -/
def openAt (path : Bytes) (wrapped : Bool) : Action Archive := do
  let (location, node) ← Action.during .openArchive (Action.ask (·.openForReading path))
  if wrapped then
    let frame ← Action.ofExcept (bytesOf path .readFrameMagic node)
    let bytes ← Action.ofExcept (unwrap maxUnwrapSize frame)
    Action.detail (path ++ utf8 ": unwrapped lz4 frame, " ++ Numeral.decimal frame.length ++
      utf8 " -> " ++ Numeral.decimal bytes.length ++ utf8 " bytes")
    ofContainer path bytes true (.inMemory (.ofBytes bytes))
  else
    let bytes ← Action.ofExcept (bytesOf path .readSignature node)
    ofContainer path bytes false (.inFile location)

def readAt (archive : Archive) (store : Store) (position length : Nat) : Bytes :=
  match archive.container with
  | .inFile location => store.readAt location position length
  | .inMemory contents => contents.slice position length

/-- The payload of an entry, still transformed, as a source. -/
def payload (archive : Archive) (entry : Entry) (store : Store) (position length : Nat) : Bytes :=
  let start := (archive.directory.start entry).toNatClampNeg
  archive.readAt store (start + position) (min length (entry.size.toNat - position))

end Archive

end IgaArchive

import IgaArchive.Archive.Basic
import IgaArchive.Hash.Sha256
import IgaArchive.Payload.Key

/-!
Listing the members of an archive, on request with the SHA-256 digest of each decoded payload.
-/

namespace IgaArchive.Archive

structure ListOptions where
  policy : KeyPolicy := .byName
  digest : Bool := false
  lz4 : Bool := false
  /-- The transfer buffer; zero stands for the default. -/
  buffer : Int := 0

structure ListItem where
  entry : Entry
  start : Int64
  /-- Empty unless digests were asked for. -/
  digest : Bytes

structure Listing where
  header : Header
  items : List ListItem

def decoded (archive : Archive) (store : Store) (policy : KeyPolicy) (buffer : Int)
    (entry : Entry) : Except Failure Bytes :=
  let (basin, result) := Payload.transfer (fun _ => archive.payload entry store) Payload.Basin.sink
    (Payload.key entry.name policy) buffer.toNat entry.size.toNat {}
  match result.error with
  | none => .ok basin.held
  | some error => .error (.ofTransfer (fun _ => .basinFull) error)

def digestText (payload : Bytes) : Bytes :=
  utf8 "sha256:" ++ Numeral.hexBytes (Sha256.digest payload)

def listItem (archive : Archive) (store : Store) (options : ListOptions) (buffer : Int)
    (entry : Entry) : Except Failure ListItem := do
  let start := archive.directory.start entry
  if options.digest then
    let payload ← (archive.decoded store options.policy buffer entry).mapError
      (.during (.digest entry.name))
    return { entry, start, digest := digestText payload }
  else return { entry, start, digest := [] }

def list (path : Bytes) (options : ListOptions) : Action Listing := do
  let buffer := Payload.chosenBuffer options.buffer
  Action.ofExcept (Payload.checkBuffer buffer)
  let archive ← openAt path options.lz4
  let items ← fun workspace =>
    (archive.directory.entries.mapM (archive.listItem workspace.store options buffer), workspace)
  return { header := archive.directory.header, items }

end IgaArchive.Archive

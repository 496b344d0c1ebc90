import IgaArchive.Archive.Basic
import IgaArchive.Payload.Key

/-!
Extracting all members of an archive. Names are checked for the whole archive before the first file
is made; then members are written in table order, and the first failure ends the extraction.
-/

namespace IgaArchive.Archive

structure ExtractOptions where
  /-- Where members go; empty stands for the working directory. -/
  outputDirectory : Bytes := []
  policy : KeyPolicy := .byName
  lz4 : Bool := false
  /-- Make the output directory once the archive has been checked. -/
  makeDirectory : Bool := false
  /-- The transfer buffer; zero stands for the default. -/
  buffer : Int := 0

structure Task where
  entry : Entry
  start : Int64
  destination : Bytes
  key : UInt8

def taskFor (directory : Directory) (outputDirectory : Bytes) (policy : KeyPolicy) (entry : Entry) :
    Except EntryName.Refusal Task := do
  EntryName.check entry.name
  return { entry, start := directory.start entry,
           destination := Path.join outputDirectory entry.name,
           key := Payload.key entry.name policy }

/-- The tasks for all entries in table order, or the first name that is refused. -/
def tasks (directory : Directory) (outputDirectory : Bytes) (policy : KeyPolicy) :
    Except EntryName.Refusal (List Task) :=
  let base := if outputDirectory = [] then Path.here else outputDirectory
  directory.entries.mapM (taskFor directory base policy)

structure FileSink where
  workspace : Workspace
  position : Nat := 0

/-- Writes into the file at a location and counts the bytes taken, those of a failing write too. -/
def FileSink.write (path : Bytes) (location : Location) : Payload.Sink FileSink Fault :=
  fun sink bytes =>
    let (store, taken, refused) := sink.workspace.store.writeAt location sink.position bytes
    ({ workspace := { sink.workspace with store }.count taken, position := sink.position + taken },
      refused.map fun errno => ⟨"write", path, errno⟩)

def transferTo (archive : Archive) (task : Task) (location : Location) (buffer : Int) :
    Action Unit := fun workspace =>
  let (sink, result) := Payload.transfer
    (fun sink : FileSink => archive.payload task.entry sink.workspace.store)
    (FileSink.write task.destination location) task.key buffer.toNat task.entry.size.toNat
    { workspace }
  match result.error with
  | none => (.ok (), sink.workspace)
  | some error => (.error (.ofTransfer .store error), sink.workspace)

def Task.description (task : Task) : Bytes :=
  utf8 "extract " ++ task.entry.name ++ utf8 ": offset " ++ Numeral.signed task.start.toInt ++
    utf8 ", size " ++ Numeral.decimal task.entry.size.toNat ++ utf8 ", key 0x" ++
    Numeral.hexByteUpper task.key

/-- Extracts one member: its destination is made empty, filled and closed. -/
def extractTask (archive : Archive) (buffer : Int) (task : Task) : Action Unit := do
  Action.track fun tracker => tracker.entry task.entry.name
  let location ← Action.during (.create task.destination) (Action.alter (·.create task.destination))
  Action.detail task.description
  Action.during (.extract task.entry.name) (archive.transferTo task location buffer)
  Action.during (.close task.destination) (Action.ask (·.close task.destination location))

def extractTasks (archive : Archive) (buffer : Int) : List Task → Action Unit
  | [] => pure ()
  | task :: rest => do
    archive.extractTask buffer task
    archive.extractTasks buffer rest

def extract (path : Bytes) (options : ExtractOptions) : Action Unit := do
  let buffer := Payload.chosenBuffer options.buffer
  Action.ofExcept (Payload.checkBuffer buffer)
  let archive ← openAt path options.lz4
  let tasks ← Action.ofExcept
    ((tasks archive.directory options.outputDirectory options.policy).mapError .entryName)
  if options.makeDirectory && !options.outputDirectory.isEmpty then
    Action.during .createOutputDirectory (Action.mkdirAll options.outputDirectory)
  Action.tracked archive.directory.payloadSize (archive.extractTasks buffer tasks)

end IgaArchive.Archive

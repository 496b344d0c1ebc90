import IgaArchive.Archive.Output
import IgaArchive.Payload.Key

/-!
Creating an archive from files. All inputs are measured first; then the output is made, and the
directory and the transformed inputs are written to it in order. A failure on the way leaves what had
reached the file by then.
-/

namespace IgaArchive.Archive

structure CompressOptions where
  /-- The transfer buffer; zero stands for the default. -/
  buffer : Int := 0
  lz4 : Bool := false

structure Input where
  name : Bytes
  path : Bytes
  size : Int64

/-- Names and measures one input, which has to be a regular file. -/
def measure (path : Bytes) : Action Input := do
  let name ← Action.ofExcept (memberName path)
  match ← Action.during .statInput (Action.ask (·.stat path)) with
  | .file contents => return { name, path, size := Int64.ofNat contents.size }
  | _ => throw (.notRegular path)

structure OutputSink where
  workspace : Workspace
  output : Output

/-- Writes payload bytes to the output and counts those it takes. -/
def OutputSink.write : Payload.Sink OutputSink Fault := fun sink bytes =>
  let (output, store, taken) := sink.output.write sink.workspace.store bytes
  ({ workspace := { sink.workspace with store }.count taken, output }, output.failed)

def withOutput (step : Step) (output : Output) (act : Output → Store → Output × Store) :
    Action Output := fun workspace =>
  let (output, store) := act output workspace.store
  match output.failed with
  | none => (.ok output, { workspace with store })
  | some fault => (.error (.during step (.store fault)), { workspace with store })

def appendPayload (output : Output) (buffer : Int) (input : Input) (entry : Entry) :
    Action Output := do
  let (location, _) ← Action.during .openInput (Action.ask (·.openForReading input.path))
  Action.during (.compress input.path) fun workspace =>
    let (sink, result) := Payload.transfer
      (fun sink : OutputSink => sink.workspace.store.readAt location)
      OutputSink.write (Payload.key entry.name .byName) buffer.toNat entry.size.toNat
      { workspace, output }
    match result.error with
    | none => (.ok sink.output, sink.workspace)
    | some error => (.error (.ofTransfer .store error), sink.workspace)

def appendPayloads (buffer : Int) : List (Input × Entry) → Output → Action Output
  | [], output => pure output
  | (input, entry) :: rest, output => do
    let output ← appendPayload output buffer input entry
    appendPayloads buffer rest output

/-- Ends the frame, if there is one, empties the buffer and closes the file. -/
def closeOutput (output : Output) : Action Unit := do
  let output ← withOutput .closeFrame output Output.closeFrame
  let output ← withOutput .flushOutput output Output.flush
  Action.during .closeOutput (Action.ask (·.close output.path output.location))

def writeArchive (path : Bytes) (directory : Directory) (inputs : List Input) (lz4 : Bool)
    (buffer : Int) : Action Unit := do
  let location ← Action.during .createOutput (Action.alter (·.create path))
  let head ← Action.ofExcept (directory.encode.mapError .layout)
  let output : Output := { path, location, frame := if lz4 then some {} else none }
  let output ← withOutput .writeDirectory output fun output store =>
    let (output, store, _) := output.write store head
    (output, store)
  Action.detail (path ++ utf8 ": " ++ Numeral.decimal directory.entries.length ++
    utf8 " entries, data start " ++ Numeral.signed directory.dataStart.toInt)
  let output ← appendPayloads buffer (inputs.zip directory.entries) output
  closeOutput output

def compress (output : Bytes) (inputs : List Bytes) (options : CompressOptions) : Action Unit := do
  let buffer := Payload.chosenBuffer options.buffer
  Action.ofExcept (Payload.checkBuffer buffer)
  let inputs ← inputs.mapM measure
  let directory ← Action.ofExcept
    ((Directory.layout (inputs.map (·.name)) (inputs.map (·.size))).mapError .layout)
  Action.tracked directory.payloadSize
    (writeArchive output directory inputs options.lz4 buffer)

end IgaArchive.Archive

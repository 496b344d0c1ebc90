import IgaArchive.Lz4.Writer
import IgaArchive.Workspace

/-!
The output of a new archive. Bytes pass through a buffer on their way to the file: a write that does
not fit fills the buffer up and empties it, and one that is larger than the empty buffer goes straight
to the file. A failed write to the file is final. On request the bytes are wrapped in an LZ4 frame
before they reach the buffer.
-/

namespace IgaArchive.Archive

structure Output where
  path : Bytes
  location : Location
  position : Nat := 0
  buffered : Bytes := []
  failed : Option Fault := none
  frame : Option Lz4.Writer := none

namespace Output

def bufferRoom : Nat := 4096

def send (output : Output) (store : Store) (bytes : Bytes) : Output × Store × Nat :=
  let (store, taken, refused) := store.writeAt output.location output.position bytes
  ({ output with
      position := output.position + taken
      failed := refused.map fun errno => ⟨"write", output.path, errno⟩ }, store, taken)

def flush (output : Output) (store : Store) : Output × Store :=
  if output.failed.isSome ∨ output.buffered.isEmpty then (output, store)
  else
    let (sent, store, taken) := output.send store output.buffered
    ({ sent with buffered := output.buffered.drop taken }, store)

/-- Takes bytes into an empty buffer, or sends them on if they do not fit. Gives the number taken. -/
def putEmpty (output : Output) (store : Store) (bytes : Bytes) : Output × Store × Nat :=
  if bytes.length ≤ bufferRoom then ({ output with buffered := bytes }, store, bytes.length)
  else output.send store bytes

/-- Takes bytes and gives the number taken; all are taken unless a write to the file fails. -/
def put (output : Output) (store : Store) (bytes : Bytes) : Output × Store × Nat :=
  let free := bufferRoom - output.buffered.length
  if output.failed.isSome then (output, store, 0)
  else if bytes.length ≤ free then
    ({ output with buffered := output.buffered ++ bytes }, store, bytes.length)
  else if output.buffered.isEmpty then output.putEmpty store bytes
  else
    let (flushed, store) :=
      { output with buffered := output.buffered ++ bytes.take free }.flush store
    if flushed.failed.isSome then (flushed, store, free)
    else
      let (last, store, taken) := flushed.putEmpty store (bytes.drop free)
      (last, store, free + taken)

def putAll (output : Output) (store : Store) : List Bytes → Output × Store
  | [] => (output, store)
  | bytes :: rest =>
    let (output, store, _) := output.put store bytes
    if output.failed.isSome then (output, store) else output.putAll store rest

/-- How many byte strings are taken before a write to the file fails. -/
def countPut (output : Output) (store : Store) : List Bytes → Nat
  | [] => 0
  | bytes :: rest =>
    let (output, store, _) := output.put store bytes
    if output.failed.isSome then 0 else output.countPut store rest + 1

/-- Takes container bytes, through the frame if there is one. Gives the number taken. -/
def write (output : Output) (store : Store) (bytes : Bytes) : Output × Store × Nat :=
  match output.frame with
  | none => output.put store bytes
  | some frame =>
    let (parts, next) := frame.write bytes
    let framed := { output with frame := some next }
    let (last, after) := framed.putAll store parts
    (last, after,
      if last.failed.isSome then frame.takenUntil (framed.countPut store parts) else bytes.length)

def closeFrame (output : Output) (store : Store) : Output × Store :=
  match output.frame with
  | none => (output, store)
  | some frame => output.putAll store frame.close

end Output

end IgaArchive.Archive

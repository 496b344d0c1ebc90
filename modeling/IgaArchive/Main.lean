import IgaArchive.CommandLine.Reach
import Std.Time

/-!
The program. What a run may look at is read into a store, the run takes place there, and what it
changed is written back.
-/

namespace IgaArchive.Main

def textOf? (location : Location) : Option String :=
  String.fromUTF8? (Path.render true location).toByteArray

def contentsOf (text : String) (size : UInt64) : IO (Contents × Bool) :=
  try return (⟨← IO.FS.readBinFile text⟩, true)
  catch _ => return ((Contents.ofBytes []).resize size.toNat, false)

/-- The store with the node at a location of the file system, if there is one that can be used. -/
def readNode (store : Store) (location : Location) : IO Store := do
  match textOf? location with
  | none => return store
  | some text =>
    try
      let metadata ← (← IO.FS.realPath text).metadata
      match metadata.type with
      | .dir => return store.put location .directory
      | .file =>
        let (contents, readable) ← contentsOf text metadata.byteSize
        return (store.put location (.file contents)).setTerms location { readable }
      | _ => return store
    catch _ => return store

def readNodes (store : Store) (locations : List Location) : IO Store :=
  locations.foldlM (fun store location =>
    if (store.node? location).isSome then return store else readNode store location) store

def sameNode : Store.Node → Store.Node → Bool
  | .directory, .directory => true
  | .file left, .file right => left.packed.data == right.packed.data
  | .fullDevice, .fullDevice => true
  | _, _ => false

def writeNodes (before after : Store) : IO Unit :=
  after.nodes.forM fun (location, node) => do
    if (before.node? location).any (sameNode node) then return
    match textOf? location, node with
    | some text, .directory => IO.FS.createDir text
    | some text, .file contents => IO.FS.writeBinFile text contents.packed
    | _, _ => return

/-- Everything a run may look at. Each round can bring further paths to light. -/
def gather (environment : CommandLine.Environment) (arguments : List Bytes) : (rounds : Nat) →
    Store → IO Store
  | 0, store => return store
  | rounds + 1, store => do
    let locations := (CommandLine.paths environment arguments store).flatMap store.trail
    gather environment arguments rounds (← readNodes store locations)

/-- The store before anything is read: the working directory and the devices. -/
def emptyStore : IO Store := do
  let workingDirectory := Path.cleanElements (utf8 (← IO.currentDir).toString)
  let above := (List.range (workingDirectory.length + 1)).tail.map fun count =>
    (workingDirectory.take count, Store.Node.directory)
  return { nodes := above ++ [([utf8 "dev"], .directory), ([utf8 "dev", utf8 "full"], .fullDevice)],
           workingDirectory }

def environment : IO CommandLine.Environment := do
  let configPath := utf8 ((← IO.getEnv "IGATOOL_CONFIG").getD "")
  let stamp := utf8 ((← Std.Time.PlainDateTime.now).format "uuuu/MM/dd HH:mm:ss.SSSSSS" ++ " ")
  return { configPath, clock := .still (← IO.monoNanosNow), stamp }

end IgaArchive.Main

open IgaArchive in
def main (arguments : List String) : IO UInt32 := do
  let arguments := arguments.map utf8
  let environment ← Main.environment
  let before ← Main.gather environment arguments 3 (← Main.emptyStore)
  let (after, outcome) := CommandLine.run environment arguments before
  Main.writeNodes before after
  (← IO.getStdout).write outcome.stdout.toByteArray
  (← IO.getStderr).write outcome.stderr.toByteArray
  return outcome.code

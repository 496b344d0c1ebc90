import IgaArchive.Store.Basic

/-!
What can be done with the files of a store: opening, creating, reading, writing, making and removing
directories. Failures name the operation and the path as it was given.
-/

namespace IgaArchive.Store

def faulting (operation : String) (path : Bytes) {α : Type} (result : Except Errno α) :
    Except Fault α :=
  result.mapError fun errno => ⟨operation, path, errno⟩

/-- Opens what a path leads to for reading. Directories can be opened. -/
def openForReading (store : Store) (path : Bytes) : Except Fault (Location × Node) :=
  faulting "open" path do
    let (location, node) ← store.find path
    if (store.terms location).readable then return (location, node) else throw .denied

def stat (store : Store) (path : Bytes) : Except Fault Node :=
  faulting "stat" path ((store.find path).map Prod.snd)

/-- Where a file of this path is or would be made, and the node there. -/
def fileTarget (store : Store) (path : Bytes) : Except Errno (Location × Option Node) := do
  match ← store.findParent path with
  | none => throw .isDirectory
  | some (directory, name) =>
    if meansDirectory path then throw .isDirectory
    else if name.length > maxName then throw .nameTooLong
    else
      match store.node? (directory ++ [name]) with
      | some .directory => throw .isDirectory
      | node => return (directory ++ [name], node)

/-- Makes the file empty, or makes it. It is opened for reading too, so both have to be allowed. -/
def create (store : Store) (path : Bytes) : Except Fault (Location × Store) :=
  faulting "open" path do
    let (location, node) ← store.fileTarget path
    if (store.terms location).readable && (store.terms location).writable then
      match node with
      | some .fullDevice => return (location, store)
      | _ => return (location, store.put location (.file {}))
    else throw .denied

/-- Up to `length` bytes of a file from a position on; a device reads as zeros. -/
def readAt (store : Store) (location : Location) (position length : Nat) : Bytes :=
  match store.node? location with
  | some (.file contents) => contents.slice position length
  | some .fullDevice => List.replicate length 0
  | _ => []

def sizeAt (store : Store) (location : Location) : Nat :=
  match store.node? location with
  | some (.file contents) => contents.size
  | _ => 0

/-- How many of some bytes a file of limited or unlimited room can take from a position on. -/
def fitting (room : Option Nat) (position count : Nat) : Nat :=
  match room with
  | none => count
  | some room => min count (room - position)

/-- Writes into a file at a position and gives the number of bytes taken. A file takes those that it has
room for, a device takes none. No bytes change nothing. -/
def writeAt (store : Store) (location : Location) (position : Nat) (bytes : Bytes) :
    Store × Nat × Option Errno :=
  match store.node? location with
  | some (.file contents) =>
    let taken := bytes.take (fitting (store.terms location).room position bytes.length)
    (if taken.isEmpty then store else store.put location (.file (contents.overwrite position taken)),
      taken.length, if taken.length < bytes.length then some .noSpace else none)
  | some .fullDevice => (store, 0, if bytes.isEmpty then none else some .noSpace)
  | _ => (store, 0, some .isDirectory)

def close (store : Store) (path : Bytes) (location : Location) : Except Fault Unit :=
  match (store.terms location).closing with
  | none => .ok ()
  | some errno => .error ⟨"close", path, errno⟩

def mkdir (store : Store) (path : Bytes) : Except Errno Store := do
  match ← store.findParent path with
  | none => throw .alreadyExists
  | some (directory, name) =>
    if name.length > maxName then throw .nameTooLong
    else if (store.node? (directory ++ [name])).isSome then throw .alreadyExists
    else if (store.terms (directory ++ [name])).writable then
      return store.put (directory ++ [name]) .directory
    else throw .denied

/-- The text of a path without its last element and the slash before it, unless nothing is left. -/
def parentText? (path : Bytes) : Option Bytes :=
  let named := (path.reverse.dropWhile Path.isSlash).reverse
  let upTo := Path.upToLastSlash named
  if upTo.length > 1 then some upTo.dropLast else none

/-- Makes a directory and those above it. `fuel` bounds how far up the path is followed. Directories
made before a failure stay. -/
def mkdirAllWithin : (fuel : Nat) → Store → Bytes → Store × Option Fault
  | 0, store, _ => (store, none)
  | fuel + 1, store, path =>
    match store.find path with
    | .ok (_, .directory) => (store, none)
    | .ok _ => (store, some ⟨"mkdir", path, .notDirectory⟩)
    | .error _ =>
      let (store, failed) :=
        match parentText? path with
        | none => (store, none)
        | some above => mkdirAllWithin fuel store above
      match failed with
      | some fault => (store, some fault)
      | none =>
        match store.mkdir path with
        | .ok store => (store, none)
        | .error errno =>
          match store.find path with
          | .ok (_, .directory) => (store, none)
          | _ => (store, some ⟨"mkdir", path, errno⟩)

def mkdirAll (store : Store) (path : Bytes) : Store × Option Fault :=
  mkdirAllWithin (path.length + 1) store path

def writeFile (store : Store) (path bytes : Bytes) : Store × Option Fault :=
  match store.create path with
  | .error fault => (store, some fault)
  | .ok (location, store) =>
    let (store, _, failed) := store.writeAt location 0 bytes
    (store, failed.map fun errno => ⟨"write", path, errno⟩)

def readWhole (store : Store) (path : Bytes) : Except Fault Bytes := do
  match ← store.openForReading path with
  | (_, .file contents) => return contents.toBytes
  | (_, .directory) => throw ⟨"read", path, .isDirectory⟩
  | (_, .fullDevice) => return []

def openForWriting (store : Store) (path : Bytes) (make : Bool) : Except Fault (Location × Store) :=
  faulting "open" path do
    let (location, after) ←
      if make then do
        let (location, node) ← store.fileTarget path
        pure (location, if node.isSome then store else store.put location (.file {}))
      else
        match ← store.find path with
        | (_, .directory) => throw .isDirectory
        | (location, _) => pure (location, store)
    if (store.terms location).writable then return (location, after) else throw .denied

def patchFile (store : Store) (path : Bytes) (position : Nat) (bytes : Bytes) :
    Store × Option Fault :=
  match store.openForWriting path false with
  | .error fault => (store, some fault)
  | .ok (location, store) =>
    let (store, _, failed) := store.writeAt location position bytes
    (store, failed.map fun errno => ⟨"write", path, errno⟩)

def appendFile (store : Store) (path bytes : Bytes) : Store × Option Fault :=
  match store.openForWriting path false with
  | .error fault => (store, some fault)
  | .ok (location, store) =>
    let (store, _, failed) := store.writeAt location (store.sizeAt location) bytes
    (store, failed.map fun errno => ⟨"write", path, errno⟩)

def truncateFile (store : Store) (path : Bytes) (size : Nat) : Store × Option Fault :=
  match store.find path with
  | .error errno => (store, some ⟨"truncate", path, errno⟩)
  | .ok (location, .file contents) =>
    if (store.terms location).writable then
      (store.put location (.file (contents.resize size)), none)
    else (store, some ⟨"truncate", path, .denied⟩)
  | .ok (_, .directory) => (store, some ⟨"truncate", path, .isDirectory⟩)
  | .ok (_, .fullDevice) => (store, some ⟨"truncate", path, .invalid⟩)

/-- Removes what a path leads to and all below it; a missing path is fine. -/
def removeAll (store : Store) (path : Bytes) : Store × Option Fault :=
  match store.find path with
  | .ok (location, _) => (store.erase location, none)
  | .error .notFound => (store, none)
  | .error errno => (store, some ⟨"unlinkat", path, errno⟩)

def inByteOrder : Bytes → Bytes → Bool
  | [], _ => true
  | _ :: _, [] => false
  | a :: as, b :: bs => a < b || (a == b && inByteOrder as bs)

def tree (store : Store) : List (Bytes × Node) :=
  let below := store.nodes.filterMap fun (location, node) =>
    match store.workingDirectory.isPrefixOf? location with
    | some (name :: names) => some ([Bytes.slash].intercalate (name :: names), node)
    | _ => none
  below.mergeSort fun left right => inByteOrder left.1 right.1

end IgaArchive.Store

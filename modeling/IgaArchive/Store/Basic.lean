import IgaArchive.Path
import IgaArchive.Store.Contents

/-!
A store of files and directories. A location is the list of names that leads to a node from the
root; the root is a directory at the empty location. Paths are followed name by name from the root or
from the working directory, as the text of the path says, and may fail on the way. Beside its nodes a
store has terms for every location, which no operation changes: who asks is always the same user.
-/

namespace IgaArchive

inductive Errno where
  | notFound
  | notDirectory
  | isDirectory
  | alreadyExists
  | invalid
  | nameTooLong
  | noSpace
  | denied
  | inputOutput
  deriving DecidableEq, Repr

def Errno.message : Errno → Bytes
  | .notFound => utf8 "no such file or directory"
  | .notDirectory => utf8 "not a directory"
  | .isDirectory => utf8 "is a directory"
  | .alreadyExists => utf8 "file exists"
  | .invalid => utf8 "invalid argument"
  | .nameTooLong => utf8 "file name too long"
  | .noSpace => utf8 "no space left on device"
  | .denied => utf8 "permission denied"
  | .inputOutput => utf8 "input/output error"

inductive Store.Node where
  | directory
  | file (contents : Contents)
  /-- A device that can be opened for writing and never has room. -/
  | fullDevice

def Store.Node.isDirectory : Store.Node → Bool
  | .directory => true
  | _ => false

abbrev Location := List Bytes

/-- What may be done at a location, whether there is a node by now or not. -/
structure Store.Terms where
  readable : Bool := true
  writable : Bool := true
  /-- The most bytes that a file can hold there; none stands for any number. -/
  room : Option Nat := none
  /-- What closing a file there reports: bytes that were taken may still be lost. -/
  closing : Option Errno := none

structure Store where
  nodes : List (Location × Store.Node)
  workingDirectory : Location
  terms : Location → Store.Terms := fun _ => {}

/-- What a store was asked to do with a path, and why it did not. -/
structure Fault where
  operation : String
  path : Bytes
  errno : Errno
  deriving DecidableEq, Repr

def Fault.message (fault : Fault) : Bytes :=
  utf8 fault.operation ++ utf8 " " ++ fault.path ++ utf8 ": " ++ fault.errno.message

namespace Store

/-- A kernel setting that can be written and not read, by whomever. -/
def writeOnlySetting : Location :=
  [utf8 "proc", utf8 "sys", utf8 "vm", utf8 "compact_memory"]

/-- A store with an empty working directory, the device `/dev/full` and a file that cannot be read. -/
def initial : Store where
  nodes := [([utf8 "dev"], .directory), ([utf8 "dev", utf8 "full"], .fullDevice),
    ([utf8 "proc"], .directory), ([utf8 "proc", utf8 "sys"], .directory),
    ([utf8 "proc", utf8 "sys", utf8 "vm"], .directory), (writeOnlySetting, .file {}),
    ([utf8 "work"], .directory)]
  workingDirectory := [utf8 "work"]
  terms location := { readable := location ≠ writeOnlySetting }

def node? (store : Store) (location : Location) : Option Node :=
  if location = [] then some .directory else store.nodes.lookup location

def put (store : Store) (location : Location) (node : Node) : Store :=
  if (store.nodes.lookup location).isSome then
    { store with
      nodes := store.nodes.map fun (at_, old) => if at_ = location then (at_, node) else (at_, old) }
  else { store with nodes := store.nodes ++ [(location, node)] }

def setTerms (store : Store) (location : Location) (terms : Terms) : Store :=
  { store with terms := fun other => if other = location then terms else store.terms other }

def erase (store : Store) (location : Location) : Store :=
  { store with nodes := store.nodes.filter fun (at_, _) => !location.isPrefixOf at_ }

def maxName : Nat := 255

def maxPath : Nat := 4095

def checkPath (path : Bytes) : Except Errno Unit :=
  if path.contains 0 then .error .invalid
  else if path.isEmpty then .error .notFound
  else if path.length > maxPath then .error .nameTooLong
  else .ok ()

def origin (store : Store) (path : Bytes) : Location :=
  if Path.isAbsolute path then [] else store.workingDirectory

/-- Follows one name from a location, which has to be a directory. -/
def step (store : Store) (location : Location) (name : Bytes) : Except Errno Location :=
  match store.node? location with
  | none => .error .notFound
  | some .directory =>
    if name = Path.here then .ok location
    else if name = Path.parent then .ok location.dropLast
    else if name.length > maxName then .error .nameTooLong
    else if (store.node? (location ++ [name])).isSome then .ok (location ++ [name])
    else .error .notFound
  | some _ => .error .notDirectory

def walk (store : Store) (location : Location) (names : List Bytes) : Except Errno Location :=
  names.foldlM store.step location

def follow (location : Location) (name : Bytes) : Location :=
  if name = Path.here then location
  else if name = Path.parent then location.dropLast
  else location ++ [name]

def trail (store : Store) (path : Bytes) : List Location :=
  let names := Path.elements path
  (List.range (names.length + 1)).map fun count =>
    (names.take count).foldl follow (store.origin path)

/-- A path that ends in a slash means a directory. -/
def meansDirectory (path : Bytes) : Bool :=
  path.getLast? == some Bytes.slash

def find (store : Store) (path : Bytes) : Except Errno (Location × Node) := do
  checkPath path
  let location ← store.walk (store.origin path) (Path.elements path)
  match store.node? location with
  | none => throw .notFound
  | some node =>
    if meansDirectory path && !node.isDirectory then throw .notDirectory
    else return (location, node)

/-- The directory that holds the last element of a path, and that element; `none` for a path that
names no entry of a directory. -/
def findParent (store : Store) (path : Bytes) : Except Errno (Option (Location × Bytes)) := do
  checkPath path
  let names := Path.elements path
  match names.getLast? with
  | none => return none
  | some last =>
    let location ← store.walk (store.origin path) names.dropLast
    match store.node? location with
    | some .directory =>
      if last = Path.here ∨ last = Path.parent then return none else return some (location, last)
    | _ => throw .notDirectory

end Store

end IgaArchive

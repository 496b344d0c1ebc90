import IgaArchive.Store.Files

/-!
The diagnostic log. Lines go to the console and, if one is set, to a log file as well. Detail lines
appear only in verbose mode. The log file is opened at its first line; if it was there before, lines
are added to its end.
-/

namespace IgaArchive

/-- How an opened log file is written: at its end, or on from a position. -/
inductive LogPosition where
  | atEnd
  | at (position : Nat)

structure LogFile where
  path : Bytes
  /-- The most bytes the file may take; no line longer than this is written to it. -/
  capacity : Int64
  opened : Option (Location × LogPosition) := none

structure Log where
  verbose : Bool := false
  /-- What stands between the program's name and the message, such as the time. -/
  stamp : Bytes := []
  console : Bytes := []
  file : Option LogFile := none

namespace LogFile

/-- The capacity of a log file that may take a number of mebibytes; none stands for a hundred. -/
def capacityOf (mebibytes : Int) : Int64 :=
  if mebibytes = 0 then 100 * 1048576 else Int64.ofInt mebibytes * 1048576

def open? (file : LogFile) (store : Store) : Store × Option (Location × LogPosition) :=
  match store.find file.path with
  | .ok (_, .directory) => (store, none)
  | .ok (location, _) =>
    (store, if (store.terms location).writable then some (location, .atEnd) else none)
  | .error .notFound =>
    match store.mkdirAll (Path.directory file.path) with
    | (store, some _) => (store, none)
    | (store, none) =>
      match store.create file.path with
      | .ok (location, store) => (store, some (location, .at 0))
      | .error _ => (store, none)
  | .error _ => (store, none)

/-- Writes a line into the opened file. What the file does not take is lost. -/
def writeOpened (store : Store) (location : Location) (position : LogPosition) (line : Bytes) :
    Store × LogPosition :=
  match position with
  | .atEnd => ((store.writeAt location (store.sizeAt location) line).1, .atEnd)
  | .at position =>
    let (store, taken, _) := store.writeAt location position line
    (store, .at (position + taken))

/-- Writes a line if it is not too long. Rotation is left out: a file that a line would take past its
capacity is neither renamed nor started anew, nor is one that cannot be opened. -/
def write (file : LogFile) (store : Store) (line : Bytes) : Store × LogFile :=
  if Int64.ofNat line.length > file.capacity then (store, file)
  else
    let (store, opened) :=
      match file.opened with
      | some opened => (store, some opened)
      | none => file.open? store
    match opened with
    | none => (store, file)
    | some (location, position) =>
      let (store, position) := writeOpened store location position line
      (store, { file with opened := some (location, position) })

end LogFile

namespace Log

def line (stamp message : Bytes) : Bytes :=
  utf8 "[igatool] " ++ stamp ++ message ++
    (if message.getLast? = some Bytes.newline then [] else [Bytes.newline])

def note (log : Log) (store : Store) (message : Bytes) : Store × Log :=
  let text := line log.stamp message
  let log := { log with console := log.console ++ text }
  match log.file with
  | none => (store, log)
  | some file =>
    let (store, file) := file.write store text
    (store, { log with file := some file })

def detail (log : Log) (store : Store) (message : Bytes) : Store × Log :=
  if log.verbose then log.note store message else (store, log)

def setUp (store : Store) (verbose : Bool) (path : Bytes) (mebibytes : Int) (stamp : Bytes) :
    Store × Except Fault Log :=
  if path = [] then (store, .ok { verbose, stamp })
  else
    match store.mkdirAll (Path.directory path) with
    | (store, some fault) => (store, .error fault)
    | (store, none) =>
      (store, .ok { verbose, stamp, file := some { path, capacity := LogFile.capacityOf mebibytes } })

end Log

end IgaArchive

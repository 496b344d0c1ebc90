import IgaArchive.Failure
import IgaArchive.Log
import IgaArchive.Progress.Tracker

/-!
Where archive operations take place: the files they read and write, the log, and the progress report
if there is one. An action may fail, and what it changed before that stays changed.
-/

namespace IgaArchive

structure Workspace where
  store : Store
  log : Log := {}
  tracker : Option Tracker := none

abbrev Action (α : Type) := ExceptT Failure (StateM Workspace) α

namespace Action

variable {α : Type}

def runOn (workspace : Workspace) (action : Action α) : Except Failure α × Workspace :=
  action workspace

def ofExcept (result : Except Failure α) : Action α :=
  fun workspace => (result, workspace)

def during (step : Step) (action : Action α) : Action α := fun workspace =>
  let (result, workspace) := action workspace
  (result.mapError (.during step), workspace)

def ask (question : Store → Except Fault α) : Action α := fun workspace =>
  ((question workspace.store).mapError .store, workspace)

def alter (change : Store → Except Fault (α × Store)) : Action α := fun workspace =>
  match change workspace.store with
  | .error fault => (.error (.store fault), workspace)
  | .ok (result, store) => (.ok result, { workspace with store })

def mkdirAll (path : Bytes) : Action Unit := fun workspace =>
  match workspace.store.mkdirAll path with
  | (store, none) => (.ok (), { workspace with store })
  | (store, some fault) => (.error (.store fault), { workspace with store })

def detail (message : Bytes) : Action Unit := fun workspace =>
  let (store, log) := workspace.log.detail workspace.store message
  (.ok (), { workspace with store, log })

def note (message : Bytes) : Action Unit := fun workspace =>
  let (store, log) := workspace.log.note workspace.store message
  (.ok (), { workspace with store, log })

end Action

namespace Workspace

def track (workspace : Workspace) (change : Tracker → Tracker) : Workspace :=
  { workspace with tracker := workspace.tracker.map change }

def count (workspace : Workspace) (bytes : Nat) : Workspace :=
  workspace.track fun tracker => tracker.add bytes.toUInt64

end Workspace

namespace Action

variable {α : Type}

def track (change : Tracker → Tracker) : Action Unit := fun workspace =>
  (.ok (), workspace.track change)

/-- Runs an action between the start and the summary of the progress report; the summary is printed
also when the action fails. -/
def tracked (size : UInt64) (action : Action α) : Action α := fun workspace =>
  let (result, workspace) := action (workspace.track fun tracker => tracker.init size)
  (result, workspace.track Tracker.stop)

end Action

end IgaArchive

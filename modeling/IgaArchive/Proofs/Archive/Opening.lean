import IgaArchive.Archive.Basic
import IgaArchive.Proofs.Action
import IgaArchive.Proofs.Directory.Extent
import IgaArchive.Proofs.Directory.Finality
import IgaArchive.Proofs.Directory.RoundTrip

/-!
Opening an archive. An archive that is accepted is a regular file whose directory reads, and every
payload that the directory tells of lies within the file. What is made of a file rests on its bytes
alone.
-/

namespace IgaArchive.Directory

theorem read_dataStart (bytes : Bytes) (directory : Directory) (accepted : read bytes = .ok directory) :
    ∃ start ≤ bytes.length, directory.dataStart = Int64.ofNat start := by
  obtain ⟨start, begins, _, within, _⟩ := read_uses bytes directory accepted
  exact ⟨start, within, begins⟩

/-- Accepted payloads lie within the container, and no position wraps around, if there is room for the largest
offset and size together behind the directory. -/
theorem fits_of_resolve (directory : Directory) (start length : Nat)
    (begins : directory.dataStart = Int64.ofNat start) (near : start + 0x200000000 ≤ 0x8000000000000000)
    (short : length < 0x8000000000000000)
    (resolved : directory.resolve (Int64.ofNat length) = .ok ()) (entry : Entry)
    (member : entry ∈ directory.entries) :
    (directory.start entry).toInt = start + entry.offset.toNat ∧
      start + entry.offset.toNat + entry.size.toNat ≤ length := by
  have ends := (resolve_eq_ok_iff directory start begins near length short).mp resolved entry member
  rw [ending_eq directory start begins near] at ends
  exact ⟨start_toInt directory start begins near entry, by omega⟩

end IgaArchive.Directory

namespace IgaArchive.Archive

/-- What a file has to be to be opened as an archive without a frame. -/
structure Opened (path : Bytes) (before after : Workspace) (archive : Archive)
    (location : Location) (contents : Contents) : Prop where
  found : before.store.find path = .ok (location, .file contents)
  readable : (before.store.terms location).readable = true
  read : Directory.read contents.toBytes = .ok archive.directory
  resolved : archive.directory.resolve (Int64.ofNat contents.size) = .ok ()
  container : archive.container = .inFile location
  tracker : after.tracker = before.tracker
  changes : Store.ChangesOnly (before.log.Reaches before.store) before.store after.store
  reach : ∀ reached, after.log.Reaches after.store reached → before.log.Reaches before.store reached

/-- The container that the bytes of a file hold, wrapped in a frame or not. -/
def containerIn (wrapped : Bool) (bytes : Bytes) : Except Failure Bytes :=
  if wrapped then unwrap maxUnwrapSize bytes else .ok bytes

theorem containerIn_length (wrapped : Bool) (bytes container : Bytes)
    (held : containerIn wrapped bytes = .ok container) (short : bytes.length < 0x4000000000000000) :
    container.length < 0x4000000000000000 := by
  cases wrapped with
  | false =>
      cases held
      exact short
  | true =>
      rw [containerIn, if_pos rfl, unwrap] at held
      split at held
      · cases held
      · split at held
        · cases held
        · split at held
          · cases held
          · rename_i within
            cases held
            rw [maxUnwrapSize] at within
            omega

structure OpenedFrom (path : Bytes) (wrapped : Bool) (before after : Workspace) (archive : Archive)
    (location : Location) (contents : Contents) (container : Bytes) : Prop where
  found : before.store.find path = .ok (location, .file contents)
  readable : (before.store.terms location).readable = true
  held : containerIn wrapped contents.toBytes = .ok container
  read : Directory.read container = .ok archive.directory
  resolved : archive.directory.resolve (Int64.ofNat container.length) = .ok ()
  place : archive.container =
    if wrapped then .inMemory (.ofBytes container) else .inFile location
  tracker : after.tracker = before.tracker
  changes : Store.ChangesOnly (before.log.Reaches before.store) before.store after.store
  reach : ∀ reached, after.log.Reaches after.store reached → before.log.Reaches before.store reached

theorem Opened.openedFrom {path : Bytes} {before after : Workspace} {archive : Archive}
    {location : Location} {contents : Contents}
    (opened : Opened path before after archive location contents) :
    OpenedFrom path false before after archive location contents contents.toBytes := by
  refine ⟨opened.found, opened.readable, rfl, opened.read, ?_, opened.container, opened.tracker, opened.changes,
    opened.reach⟩
  rw [Contents.length_toBytes]
  exact opened.resolved

theorem OpenedFrom.whole {path : Bytes} {wrapped : Bool} {before after : Workspace} {archive : Archive}
    {location : Location} {contents : Contents} {container : Bytes}
    (opened : OpenedFrom path wrapped before after archive location contents container) :
    before.store.readWhole path = .ok contents.toBytes :=
  Store.readWhole_file _ _ _ _ (Store.openForReading_eq_ok.mpr ⟨opened.found, opened.readable⟩)

theorem ofContainer_eq_ok (path bytes : Bytes) (wrapped : Bool) (container : Container)
    (archive : Archive) (before after : Workspace)
    (accepted : (ofContainer path bytes wrapped container).runOn before = (.ok archive, after)) :
    Directory.read bytes = .ok archive.directory ∧
      archive.directory.resolve (Int64.ofNat bytes.length) = .ok () ∧
      archive.container = container ∧ after.tracker = before.tracker ∧
      Store.ChangesOnly (before.log.Reaches before.store) before.store after.store ∧
      ∀ reached, after.log.Reaches after.store reached →
        before.log.Reaches before.store reached := by
  rw [ofContainer] at accepted
  obtain ⟨directory, _, reading, afterRead⟩ := Action.bind_eq_ok accepted
  obtain ⟨read, rfl⟩ := Action.ofExcept_eq_ok.mp reading
  obtain ⟨_, _, logging, afterLog⟩ := Action.bind_eq_ok afterRead
  obtain ⟨sameTracker, changes, reach⟩ := Action.detail_eq_ok logging
  obtain ⟨_, _, resolving, last⟩ := Action.bind_eq_ok afterLog
  obtain ⟨resolved, rfl⟩ := Action.ofExcept_eq_ok.mp resolving
  obtain ⟨rfl, rfl⟩ := Action.pure_eq_ok.mp last
  exact ⟨Result.mapError_eq_ok.mp read, Result.mapError_eq_ok.mp resolved, rfl, sameTracker, changes,
    reach⟩

theorem read_nil : ∃ error, Directory.read [] = .error error :=
  ⟨_, rfl⟩

theorem openAt_opens (path : Bytes) (wrapped : Bool) (archive : Archive) (before after : Workspace)
    (accepted : (openAt path wrapped).runOn before = (.ok archive, after)) :
    ∃ location contents container,
      OpenedFrom path wrapped before after archive location contents container := by
  rw [openAt] at accepted
  obtain ⟨⟨location, node⟩, _, opening, rest⟩ := Action.bind_eq_ok accepted
  obtain ⟨opened, rfl⟩ := Action.ask_eq_ok.mp (Action.during_eq_ok.mp opening)
  obtain ⟨found, readable⟩ := Store.openForReading_eq_ok.mp opened
  cases wrapped with
  | false =>
      obtain ⟨bytes, _, taking, containing⟩ := Action.bind_eq_ok rest
      obtain ⟨taken, rfl⟩ := Action.ofExcept_eq_ok.mp taking
      obtain ⟨read, resolved, place, tracker, changes, reach⟩ :=
        ofContainer_eq_ok path bytes false _ archive before after containing
      cases node with
      | directory => cases taken
      | fullDevice =>
          cases taken
          obtain ⟨error, refused⟩ := read_nil
          rw [refused] at read
          cases read
      | file contents =>
          cases taken
          exact ⟨location, contents, _, found, readable, rfl, read, resolved, place, tracker, changes, reach⟩
  | true =>
      obtain ⟨frame, _, taking, unwrapping⟩ := Action.bind_eq_ok rest
      obtain ⟨taken, rfl⟩ := Action.ofExcept_eq_ok.mp taking
      obtain ⟨bytes, _, unwrapped, noting⟩ := Action.bind_eq_ok unwrapping
      obtain ⟨held, rfl⟩ := Action.ofExcept_eq_ok.mp unwrapped
      obtain ⟨_, between, noted, containing⟩ := Action.bind_eq_ok noting
      obtain ⟨sameTracker, noteChanges, noteReach⟩ := Action.detail_eq_ok noted
      obtain ⟨read, resolved, place, tracker, changes, reach⟩ :=
        ofContainer_eq_ok path bytes true _ archive between after containing
      cases node with
      | directory => cases taken
      | fullDevice =>
          cases taken
          cases held
      | file contents =>
          cases taken
          exact ⟨location, contents, bytes, found, readable, held, read, resolved, place,
            tracker.trans sameTracker, noteChanges.trans (changes.mono noteReach),
            fun reached again => noteReach reached (reach reached again)⟩

theorem openAt_eq_ok (path : Bytes) (archive : Archive) (before after : Workspace)
    (accepted : (openAt path false).runOn before = (.ok archive, after)) :
    ∃ location contents, Opened path before after archive location contents := by
  obtain ⟨location, contents, container, opened⟩ := openAt_opens path false archive before after accepted
  have whole : contents.toBytes = container := Except.ok.inj opened.held
  subst whole
  have resolved := opened.resolved
  rw [Contents.length_toBytes] at resolved
  exact ⟨location, contents, opened.found, opened.readable, opened.read, resolved, opened.place, opened.tracker,
    opened.changes, opened.reach⟩

/-- What the bytes of a container come to: its directory, or why it is refused. -/
def verdict (container : Bytes) : Except Failure Directory := do
  let directory ← (Directory.read container).mapError .ofDirectory
  (directory.resolve (Int64.ofNat container.length)).mapError .outOfRange
  return directory

theorem verdict_of_refused (container : Bytes) (error : Directory.ReadError)
    (refused : Directory.read container = .error error) :
    verdict container = .error (.ofDirectory error) := by
  simp only [verdict, refused, Result.mapError_error, bind, Except.bind]

theorem verdict_of_read (container : Bytes) (directory : Directory)
    (read : Directory.read container = .ok directory) :
    verdict container =
      ((directory.resolve (Int64.ofNat container.length)).mapError .outOfRange).map
        fun _ => directory := by
  simp only [verdict, read, Result.mapError_ok, bind, Except.bind]
  cases directory.resolve (Int64.ofNat container.length) <;> rfl

theorem verdict_eq_ok (container : Bytes) (directory : Directory) :
    verdict container = .ok directory ↔
      Directory.read container = .ok directory ∧
        directory.resolve (Int64.ofNat container.length) = .ok () := by
  cases reading : Directory.read container with
  | error error => simp [verdict_of_refused container error reading]
  | ok found =>
      rw [verdict_of_read container found reading]
      cases resolving : found.resolve (Int64.ofNat container.length) with
      | error error =>
          simp only [Result.mapError_error, Except.map, reduceCtorEq, Except.ok.injEq, false_iff]
          rintro ⟨rfl, fine⟩
          rw [resolving] at fine
          cases fine
      | ok _ =>
          simp only [Result.mapError_ok, Except.map, Except.ok.injEq]
          constructor
          · rintro rfl
            exact ⟨rfl, resolving⟩
          · exact And.left

theorem ofContainer_run (path bytes : Bytes) (wrapped : Bool) (container : Container)
    (before : Workspace) :
    ∃ messages, (ofContainer path bytes wrapped container).runOn before =
      ((verdict bytes).map fun directory =>
        { path, directory, size := Int64.ofNat bytes.length, wrapped, container },
        before.detailed messages) := by
  rw [ofContainer]
  cases reading : Directory.read bytes with
  | error error =>
      refine ⟨[], ?_⟩
      rw [verdict_of_refused bytes error reading, Result.mapError_error,
        Action.bind_of_error _ _ _ _ _ (Action.ofExcept_run _ _)]
      rfl
  | ok directory =>
      refine ⟨[path ++ utf8 ": " ++ Numeral.decimal directory.entries.length ++
        utf8 " entries, data start " ++ Numeral.signed directory.dataStart.toInt ++ utf8 ", size " ++
        Numeral.decimal bytes.length], ?_⟩
      rw [verdict_of_read bytes directory reading, Result.mapError_ok,
        Action.bind_of_ok _ _ _ _ _ (Action.ofExcept_run _ _),
        Action.bind_of_ok _ _ _ _ _ (Action.detail_run _ _)]
      cases resolving : directory.resolve (Int64.ofNat bytes.length) with
      | error error =>
          simp only [resolving, Result.mapError_error]
          rw [Action.bind_of_error _ _ _ _ _ (Action.ofExcept_run _ _)]
          rfl
      | ok _ =>
          simp only [resolving, Result.mapError_ok]
          rw [Action.bind_of_ok _ _ _ _ _ (Action.ofExcept_run _ _)]
          rfl

theorem readWhole_eq_ok (store : Store) (path content : Bytes) (step : Step)
    (whole : store.readWhole path = .ok content) :
    ∃ location node, store.openForReading path = .ok (location, node) ∧
      bytesOf path step node = .ok content := by
  obtain ⟨⟨location, node⟩, opened, read⟩ := Result.bind_eq_ok whole
  refine ⟨location, node, opened, ?_⟩
  cases node <;> cases read <;> rfl

theorem node?_of_readWhole (store : Store) (path content : Bytes) (nonempty : content ≠ [])
    (whole : store.readWhole path = .ok content) :
    store.node? (store.place path) = some (.file (.ofBytes content)) := by
  obtain ⟨location, node, opened, read⟩ := readWhole_eq_ok store path content .readSignature whole
  obtain ⟨_, _, place, present⟩ := Store.find_eq_ok _ _ _ _ (Store.openForReading_eq_ok.mp opened).1
  rw [← place, present]
  cases node with
  | file contents =>
      cases read
      rw [Contents.ofBytes_toBytes]
  | directory => cases read
  | fullDevice =>
      cases read
      exact absurd rfl nonempty

theorem openAt_run (path content : Bytes) (before : Workspace)
    (whole : before.store.readWhole path = .ok content) :
    ∃ messages, (openAt path false).runOn before =
      ((verdict content).map fun directory =>
        { path, directory, size := Int64.ofNat content.length, wrapped := false,
          container := .inFile (before.store.place path) },
        before.detailed messages) := by
  obtain ⟨location, node, opened, bytes⟩ := readWhole_eq_ok before.store path content .readSignature whole
  obtain ⟨_, _, place, _⟩ := Store.find_eq_ok _ _ _ _ (Store.openForReading_eq_ok.mp opened).1
  have asked := Action.openForReading_run .openArchive path before location node opened
  have taken := Action.ofExcept_eq_ok.mpr ⟨bytes, Eq.refl before⟩
  rw [openAt, Action.bind_of_ok _ _ _ _ _ asked]
  simp only [Bool.false_eq_true, if_false]
  rw [Action.bind_of_ok _ _ _ _ _ taken, ← place]
  exact ofContainer_run path content false _ before

/-- Where a container comes from makes no difference to what opening comes to. -/
theorem openAt_of_container (path bytes container : Bytes) (wrapped : Bool) (before : Workspace)
    (whole : before.store.readWhole path = .ok bytes)
    (held : containerIn wrapped bytes = .ok container) :
    ∃ messages place, (openAt path wrapped).runOn before =
      ((verdict container).map fun directory =>
        { path, directory, size := Int64.ofNat container.length, wrapped, container := place },
        before.detailed messages) := by
  cases wrapped with
  | false =>
      cases held
      obtain ⟨messages, run⟩ := openAt_run path bytes before whole
      exact ⟨messages, _, run⟩
  | true =>
      obtain ⟨location, node, opened, read⟩ := readWhole_eq_ok before.store path bytes .readFrameMagic whole
      have asked := Action.openForReading_run .openArchive path before location node opened
      have taken := Action.ofExcept_eq_ok.mpr ⟨read, Eq.refl before⟩
      have unwrapped : (Action.ofExcept (unwrap maxUnwrapSize bytes)).runOn before =
          (.ok container, before) := Action.ofExcept_eq_ok.mpr ⟨held, rfl⟩
      rw [openAt, Action.bind_of_ok _ _ _ _ _ asked]
      simp only [if_true]
      rw [Action.bind_of_ok _ _ _ _ _ taken, Action.bind_of_ok _ _ _ _ _ unwrapped,
        Action.bind_of_ok _ _ _ _ _ (Action.detail_run _ _)]
      obtain ⟨messages, run⟩ := ofContainer_run path container true (.inMemory (.ofBytes container))
        ((Action.detail (path ++ utf8 ": unwrapped lz4 frame, " ++ Numeral.decimal bytes.length ++
          utf8 " -> " ++ Numeral.decimal container.length ++ utf8 " bytes")).runOn before).2
      exact ⟨_ :: messages, _, run⟩

theorem openAt_of_failure (path bytes : Bytes) (wrapped : Bool) (before : Workspace) (failure : Failure)
    (whole : before.store.readWhole path = .ok bytes)
    (refused : containerIn wrapped bytes = .error failure) :
    (openAt path wrapped).runOn before = (.error failure, before) := by
  cases wrapped with
  | false => cases refused
  | true =>
      obtain ⟨location, node, opened, read⟩ := readWhole_eq_ok before.store path bytes .readFrameMagic whole
      have asked := Action.openForReading_run .openArchive path before location node opened
      have taken := Action.ofExcept_eq_ok.mpr ⟨read, Eq.refl before⟩
      have unwrapping : (Action.ofExcept (unwrap maxUnwrapSize bytes)).runOn before =
          (.error failure, before) := congrArg (Prod.mk · before) refused
      rw [openAt, Action.bind_of_ok _ _ _ _ _ asked]
      simp only [if_true]
      rw [Action.bind_of_ok _ _ _ _ _ taken, Action.bind_of_error _ _ _ _ _ unwrapping]

section Verdict

variable (path content : Bytes) (before : Workspace)
variable (whole : before.store.readWhole path = .ok content)
include whole

theorem openAt_accepts (directory : Directory) (accepted : verdict content = .ok directory) :
    ((openAt path false).runOn before).1 =
      .ok { path, directory, size := Int64.ofNat content.length, wrapped := false,
            container := .inFile (before.store.place path) } := by
  obtain ⟨messages, run⟩ := openAt_run path content before whole
  rw [run, accepted]
  rfl

theorem openAt_refuses (failure : Failure) (refused : verdict content = .error failure) :
    ((openAt path false).runOn before).1 = .error failure := by
  obtain ⟨messages, run⟩ := openAt_run path content before whole
  rw [run, refused]
  rfl

theorem verdict_of_opened (archive : Archive)
    (opened : ((openAt path false).runOn before).1 = .ok archive) :
    verdict content = .ok archive.directory ∧
      archive.container = .inFile (before.store.place path) := by
  cases judged : verdict content with
  | error failure =>
      rw [openAt_refuses path content before whole failure judged] at opened
      cases opened
  | ok directory =>
      rw [openAt_accepts path content before whole directory judged] at opened
      cases opened
      exact ⟨rfl, rfl⟩

end Verdict

end IgaArchive.Archive

import IgaArchive.Proofs.Archive.Decoding
import IgaArchive.Proofs.Archive.Format

/-!
Rejected archives. The buffer, the container and all names are checked before anything is made, and these
checks do nothing but write detail lines. What is done afterwards can only fail for want of files, space or
input, so a rejection tells that nothing was done.
-/

namespace IgaArchive

/-- The failures by which a request or an archive is turned down, told by their kind. -/
def Failure.IsRejection (failure : Failure) : Prop :=
  failure.kind = .signature ∨ failure.kind = .range ∨ failure.kind = .format ∨
    failure.kind = .bufferSize ∨ failure.kind = .tooLarge

instance (failure : Failure) : Decidable failure.IsRejection :=
  inferInstanceAs (Decidable (_ ∨ _))

theorem Failure.store_not_isRejection (fault : Fault) : ¬ (Failure.store fault).IsRejection := by
  rw [IsRejection, kind]
  split <;> simp

theorem Failure.ofTransfer_not_isRejection (error : Payload.TransferError Fault) :
    ¬ (Failure.ofTransfer .store error).IsRejection := by
  cases error with
  | shortRead => decide
  | write fault => exact store_not_isRejection fault

end IgaArchive

namespace IgaArchive.Action

variable {α β : Type}

/-- An action whose failures are no rejections. -/
def NeverRejects (action : Action α) : Prop :=
  ∀ before after failure, action.runOn before = (.error failure, after) → ¬ failure.IsRejection

namespace NeverRejects

theorem pure (value : α) : NeverRejects (Pure.pure value : Action α) :=
  fun _ _ _ failed => nomatch failed

theorem track (change : Tracker → Tracker) : NeverRejects (Action.track change) :=
  fun _ _ _ failed => nomatch failed

theorem detail (message : Bytes) : NeverRejects (Action.detail message) :=
  fun _ _ _ failed => nomatch failed

theorem ask (question : Store → Except Fault α) : NeverRejects (Action.ask question) := by
  intro before after failure failed
  obtain ⟨fault, rfl, _⟩ := ask_eq_error.mp failed
  exact Failure.store_not_isRejection fault

theorem alter (change : Store → Except Fault (α × Store)) : NeverRejects (Action.alter change) := by
  intro before after failure failed
  rw [runOn, Action.alter] at failed
  split at failed
  · cases failed
    exact Failure.store_not_isRejection _
  · cases failed

theorem mkdirAll (path : Bytes) : NeverRejects (Action.mkdirAll path) := by
  intro before after failure failed
  rw [mkdirAll_run] at failed
  split at failed
  · cases failed
  · cases failed
    exact Failure.store_not_isRejection _

theorem during (step : Step) {action : Action α} (never : NeverRejects action) :
    NeverRejects (Action.during step action) := by
  intro before after failure failed
  obtain ⟨cause, rfl, caused⟩ := during_eq_error.mp failed
  exact never before after cause caused

theorem bind {action : Action α} {next : α → Action β} (first : NeverRejects action)
    (rest : ∀ value, NeverRejects (next value)) : NeverRejects (action >>= next) := by
  intro before after failure failed
  rcases bind_cases failed with ⟨_, same, failed⟩ | ⟨middle, between, _, failed⟩
  · cases same
    exact first before after failure failed
  · exact rest middle between after failure failed

theorem tracked (size : UInt64) {action : Action α} (never : NeverRejects action) :
    NeverRejects (Action.tracked size action) := by
  intro before after failure failed
  rw [tracked_run] at failed
  cases ran : action.runOn (before.track fun tracker => tracker.init size) with
  | mk result ended =>
      rw [ran] at failed
      cases failed
      exact never _ ended failure ran

end NeverRejects

end IgaArchive.Action

namespace IgaArchive.Archive

theorem transferTo_neverRejects (archive : Archive) (task : Task) (location : Location) (buffer : Int) :
    (archive.transferTo task location buffer).NeverRejects := by
  intro before after failure failed
  simp only [Action.runOn, transferTo] at failed
  split at failed
  · cases failed
  · cases failed
    exact Failure.ofTransfer_not_isRejection _

theorem extractTask_neverRejects (archive : Archive) (buffer : Int) (task : Task) :
    (archive.extractTask buffer task).NeverRejects := by
  rw [extractTask]
  apply Action.NeverRejects.bind (.track _)
  intro _
  apply Action.NeverRejects.bind (.during _ (.alter _))
  intro location
  apply Action.NeverRejects.bind (.detail _)
  intro _
  apply Action.NeverRejects.bind (.during _ (transferTo_neverRejects archive task location buffer))
  intro _
  exact .during _ (.ask _)

theorem extractTasks_neverRejects (archive : Archive) (buffer : Int) (list : List Task) :
    (archive.extractTasks buffer list).NeverRejects := by
  induction list with
  | nil => exact .pure ()
  | cons task list ih =>
      apply Action.NeverRejects.bind (extractTask_neverRejects archive buffer task)
      intro _
      exact ih

theorem makeOutput_neverRejects (options : ExtractOptions) : (makeOutput options).NeverRejects := by
  rw [makeOutput]
  split
  · exact .during _ (.mkdirAll _)
  · exact .pure ()

theorem performing_neverRejects (archive : Archive) (options : ExtractOptions) (list : List Task) :
    (makeOutput options >>= fun _ => Action.tracked archive.directory.payloadSize
      (archive.extractTasks (Payload.chosenBuffer options.buffer) list)).NeverRejects := by
  apply Action.NeverRejects.bind (makeOutput_neverRejects options)
  intro _
  exact .tracked _ (extractTasks_neverRejects archive _ list)

theorem ofContainer_onlyDetails (path bytes : Bytes) (wrapped : Bool) (container : Container) :
    (ofContainer path bytes wrapped container).OnlyDetails := by
  intro before
  obtain ⟨messages, run⟩ := ofContainer_run path bytes wrapped container before
  exact ⟨messages, by rw [run]⟩

theorem openAt_onlyDetails (path : Bytes) (wrapped : Bool) : (openAt path wrapped).OnlyDetails := by
  rw [openAt]
  apply Action.OnlyDetails.bind (.during _ (.ask _))
  rintro ⟨location, node⟩
  cases wrapped with
  | false =>
      apply Action.OnlyDetails.bind (.ofExcept _)
      intro bytes
      exact ofContainer_onlyDetails path bytes false _
  | true =>
      apply Action.OnlyDetails.bind (.ofExcept _)
      intro frame
      apply Action.OnlyDetails.bind (.ofExcept _)
      intro bytes
      apply Action.OnlyDetails.bind (.detail _)
      intro _
      exact ofContainer_onlyDetails path bytes true _

/-- All that an extraction checks before it makes anything: the archive that it goes on with, and the
tasks for its entries. -/
def vet (path : Bytes) (options : ExtractOptions) : Action (Archive × List Task) := do
  Action.ofExcept (Payload.checkBuffer (Payload.chosenBuffer options.buffer))
  let archive ← openAt path options.lz4
  let list ← Action.ofExcept
    ((tasks archive.directory options.outputDirectory options.policy).mapError .entryName)
  return (archive, list)

theorem extract_eq_vet (path : Bytes) (options : ExtractOptions) :
    extract path options = (do
      let (archive, list) ← vet path options
      makeOutput options
      Action.tracked archive.directory.payloadSize
        (archive.extractTasks (Payload.chosenBuffer options.buffer) list)) := by
  rw [extract_eq, vet]
  simp only [bind_assoc, pure_bind]

theorem vet_onlyDetails (path : Bytes) (options : ExtractOptions) :
    (vet path options).OnlyDetails := by
  rw [vet]
  apply Action.OnlyDetails.bind (.ofExcept _)
  intro _
  apply Action.OnlyDetails.bind (openAt_onlyDetails path options.lz4)
  intro archive
  apply Action.OnlyDetails.bind (.ofExcept _)
  intro list
  exact .pure _

theorem vet_eq_ok (path : Bytes) (options : ExtractOptions) (before after : Workspace)
    (archive : Archive) (list : List Task)
    (vetted : (vet path options).runOn before = (.ok (archive, list), after)) :
    Payload.ValidBuffer (Payload.chosenBuffer options.buffer) ∧
      (openAt path options.lz4).runOn before = (.ok archive, after) ∧
      tasks archive.directory options.outputDirectory options.policy = .ok list := by
  rw [vet] at vetted
  obtain ⟨_, _, checking, afterCheck⟩ := Action.bind_eq_ok vetted
  obtain ⟨checked, rfl⟩ := Action.ofExcept_eq_ok.mp checking
  obtain ⟨found, opened, accepted, afterOpen⟩ := Action.bind_eq_ok afterCheck
  obtain ⟨named, _, listing, last⟩ := Action.bind_eq_ok afterOpen
  obtain ⟨listed, rfl⟩ := Action.ofExcept_eq_ok.mp listing
  obtain ⟨same, rfl⟩ := Action.pure_eq_ok.mp last
  cases same
  exact ⟨Payload.checkBuffer_eq_ok.mp checked, accepted, Result.mapError_eq_ok.mp listed⟩

theorem vet_lists (path : Bytes) (options : ExtractOptions) (before after : Workspace)
    (archive : Archive) (list : List Task) (location : Location) (bytes : Bytes) (directory : Directory)
    (plain : options.lz4 = false)
    (found : before.store.find path = .ok (location, .file (.ofBytes bytes)))
    (reads : Directory.read bytes = .ok directory)
    (vetted : (vet path options).runOn before = (.ok (archive, list), after)) :
    archive.directory = directory ∧
      list = directory.entries.map (taskOf directory options.outputDirectory options.policy) := by
  obtain ⟨_, accepted, listed⟩ := vet_eq_ok path options before after archive list vetted
  rw [plain] at accepted
  obtain ⟨_, _, open_⟩ := openAt_eq_ok path archive before after accepted
  have sameFile := open_.found.symm.trans found
  cases sameFile
  have read := open_.read
  rw [Contents.toBytes_ofBytes, reads] at read
  cases read
  exact ⟨rfl, ((tasks_eq_ok _ _ _ _).mp listed).2.symm⟩

/-- A workspace in which nothing was done but write detail lines, if the log takes them: the progress
report is as it was, and no file has changed that the log does not reach. -/
structure Untouched (before after : Workspace) : Prop where
  tracker : after.tracker = before.tracker
  changes : Store.ChangesOnly (before.log.Reaches before.store) before.store after.store
  store : before.log.file = none → after.store = before.store
  silent : before.log.verbose = false → after = before

theorem untouched_detailed (before : Workspace) (messages : List Bytes) :
    Untouched before (before.detailed messages) := by
  obtain ⟨tracker, changes⟩ := before.detailed_spec messages
  constructor
  · exact tracker
  · exact changes
  · exact before.detailed_store messages
  · exact before.detailed_of_quiet messages

theorem extract_rejected (path : Bytes) (options : ExtractOptions) (before after : Workspace)
    (failure : Failure) (failed : (extract path options).runOn before = (.error failure, after))
    (rejected : failure.IsRejection) : Untouched before after := by
  rw [extract_eq_vet] at failed
  rcases Action.bind_cases failed with ⟨_, _, refused⟩ | ⟨⟨archive, list⟩, between, _, performed⟩
  · obtain ⟨messages, noted⟩ := vet_onlyDetails path options before
    rw [refused] at noted
    simp only at noted
    rw [noted]
    exact untouched_detailed before messages
  · exact absurd rejected
      (performing_neverRejects archive options list between after failure performed)

/-- An entry that must not be extracted: its name is refused, or the container ends before it does. -/
def Inadmissible (container : Bytes) (directory : Directory) (entry : Entry) : Prop :=
  EntryName.check entry.name ≠ .ok () ∨ (container.length : Int) < directory.ending entry

theorem vet_refuses (path : Bytes) (options : ExtractOptions) (before : Workspace)
    (bytes container : Bytes) (directory : Directory) (entry : Entry)
    (whole : before.store.readWhole path = .ok bytes)
    (held : containerIn options.lz4 bytes = .ok container)
    (short : container.length < 0x4000000000000000)
    (read : Directory.read container = .ok directory) (member : entry ∈ directory.entries)
    (bad : Inadmissible container directory entry) :
    ∃ failure after, (vet path options).runOn before = (.error failure, after) ∧
      failure.IsRejection := by
  obtain ⟨n, begins, _, within, _⟩ := Directory.read_uses container directory read
  obtain ⟨messages, place, opening⟩ :=
    openAt_of_container path bytes container options.lz4 before whole held
  rw [verdict_of_read container directory read] at opening
  rw [vet]
  cases checked : Payload.checkBuffer (Payload.chosenBuffer options.buffer) with
  | error failure =>
      rw [Action.bind_of_error _ _ _ _ _ (Action.ofExcept_run _ _)]
      rw [Payload.checkBuffer] at checked
      split at checked <;> cases checked
      exact ⟨_, before, rfl, by simp [Failure.IsRejection, Failure.kind]⟩
  | ok _ =>
      rw [Action.bind_of_ok _ _ _ _ _ (Action.ofExcept_run _ _)]
      cases resolving : directory.resolve (Int64.ofNat container.length) with
      | error error =>
          rw [resolving] at opening
          rw [Action.bind_of_error _ _ _ _ _ opening]
          exact ⟨_, _, rfl, by simp [Failure.IsRejection, Failure.kind]⟩
      | ok _ =>
          -- The payloads all fit, so it is a name that is refused.
          have fits := (Directory.resolve_eq_ok_iff directory n begins (by omega) container.length
            (by omega)).mp resolving entry member
          have named : EntryName.check entry.name ≠ .ok () := by
            rcases bad with refused | beyond
            · exact refused
            · omega
          rw [resolving] at opening
          rw [Action.bind_of_ok _ _ _ _ _ opening]
          cases listing : tasks directory options.outputDirectory options.policy with
          | ok list =>
              have safe := ((tasks_eq_ok _ _ _ list).mp listing).1 entry member
              exact absurd safe named
          | error refusal =>
              rw [Result.mapError_error, Action.bind_of_error _ _ _ _ _ (Action.ofExcept_run _ _)]
              exact ⟨_, _, rfl, by simp [Failure.IsRejection, Failure.kind]⟩

/-- A rejected archive changes nothing. When an extraction fails for a wrong signature, a payload out of
range, a malformed archive or name, the buffer size or an oversized frame, nothing was made, written,
printed or counted. So a single entry with an unsafe name or out of range, anywhere in the table, keeps
all others from being extracted. -/
theorem rejected_extract_changes_nothing :
    (∀ (path : Bytes) (options : ExtractOptions) (before after : Workspace) (failure : Failure),
      (extract path options).runOn before = (.error failure, after) → failure.IsRejection →
      Untouched before after) ∧
    ∀ (path : Bytes) (options : ExtractOptions) (before : Workspace) (bytes container : Bytes)
      (directory : Directory) (entry : Entry), before.store.readWhole path = .ok bytes →
      containerIn options.lz4 bytes = .ok container → container.length < 0x4000000000000000 →
      Directory.read container = .ok directory → entry ∈ directory.entries →
      Inadmissible container directory entry →
      ∃ failure after, (extract path options).runOn before = (.error failure, after) ∧
        failure.IsRejection ∧ Untouched before after := by
  refine ⟨extract_rejected, ?_⟩
  intro path options before bytes container directory entry whole held short read member bad
  obtain ⟨failure, after, refused, rejected⟩ :=
    vet_refuses path options before bytes container directory entry whole held short read member bad
  have failed : (extract path options).runOn before = (.error failure, after) := by
    rw [extract_eq_vet, Action.bind_of_error _ _ _ _ _ refused]
  exact ⟨failure, after, failed, rejected, extract_rejected path options before after failure failed rejected⟩

def climbing : Bytes :=
  containerOf [⟨utf8 "a", [1, 2]⟩, ⟨utf8 "../b", [3]⟩]

def climbingDirectory : Directory where
  header := .standard
  entries := [⟨0, utf8 "a", 0, 2⟩, ⟨1, utf8 "../b", 2, 1⟩]
  dataStart := 29

def climbingAndCut : Workspace where
  store := (Store.initial.put [utf8 "work", utf8 "climbing"] (.file (.ofBytes climbing))).put
    [utf8 "work", utf8 "stub"] (.file (.ofBytes (Directory.twoByteContainer.take 23)))
  tracker := some { enabled := true, clock := .ticking 0 1000000000 }

def newDirectory : ExtractOptions where
  outputDirectory := utf8 "out"
  makeDirectory := true

/-- The first member of `climbing` is not extracted although only the second is at fault, and a container
that lacks its last byte leaves no output directory either. -/
theorem rejected_extract_changes_nothing_second_member :
    (∃ failure after, (extract (utf8 "climbing") newDirectory).runOn climbingAndCut =
        (.error failure, after) ∧ failure.IsRejection ∧ after = climbingAndCut) ∧
    ∃ failure after, (extract (utf8 "stub") newDirectory).runOn climbingAndCut =
        (.error failure, after) ∧ failure.IsRejection ∧ after = climbingAndCut := by
  have climbs : climbingAndCut.store.readWhole (utf8 "climbing") = .ok climbing :=
    Result.eq_ok_of_toOption (by decide +kernel)
  have reads : Directory.read climbing = .ok climbingDirectory :=
    Result.eq_ok_of_toOption (by decide +kernel)
  have refusedName : EntryName.check (utf8 "../b") ≠ .ok () :=
    fun safe => absurd (congrArg Except.toOption safe) (by decide +kernel)
  have stub : climbingAndCut.store.readWhole (utf8 "stub") = .ok (Directory.twoByteContainer.take 23) :=
    Result.eq_ok_of_toOption (by decide +kernel)
  have readsStub : Directory.read (Directory.twoByteContainer.take 23) = .ok Directory.twoByteDirectory :=
    Result.eq_ok_of_toOption (by decide +kernel)
  constructor
  · obtain ⟨failure, after, failed, rejected, untouched⟩ := rejected_extract_changes_nothing.2
      (utf8 "climbing") newDirectory climbingAndCut climbing climbing climbingDirectory
      ⟨1, utf8 "../b", 2, 1⟩ climbs rfl (by decide +kernel) reads (by decide +kernel)
      (Or.inl refusedName)
    exact ⟨failure, after, failed, rejected, untouched.silent rfl⟩
  · obtain ⟨failure, after, failed, rejected, untouched⟩ := rejected_extract_changes_nothing.2
      (utf8 "stub") newDirectory climbingAndCut (Directory.twoByteContainer.take 23)
      (Directory.twoByteContainer.take 23)
      Directory.twoByteDirectory ⟨0, [0x61], 0, 2⟩ stub rfl (by decide +kernel) readsStub
      (by decide +kernel) (Or.inr (by decide +kernel))
    exact ⟨failure, after, failed, rejected, untouched.silent rfl⟩

end IgaArchive.Archive

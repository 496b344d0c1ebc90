import IgaArchive.Proofs.Archive.PartialExtraction

/-!
What becomes of the archive that is extracted. Its file stays open and is read while destinations are
made one after another, so it lasts as long as none of them is the file itself: then it is left as it was
by every run, and a payload that was in range can be read to its end.
-/

namespace IgaArchive.Failure

theorem store_kind_ne (fault : Fault) : (Failure.store fault).kind ≠ .unexpectedEnd := by
  rw [kind]
  split <;> simp

end IgaArchive.Failure

namespace IgaArchive.Archive

/-- A run that has left one location alone, which the log still does not reach. -/
structure Spared (location : Location) (before after : Workspace) : Prop where
  changes : Store.ChangesOnly (· ≠ location) before.store after.store
  unread : ¬ after.log.Reaches after.store location

namespace Spared

variable {location : Location} {first second third : Workspace}

theorem trans (earlier : Spared location first second) (later : Spared location second third) :
    Spared location first third :=
  ⟨earlier.changes.trans later.changes, later.unread⟩

theorem node?_eq (spared : Spared location first second) :
    second.store.node? location = first.store.node? location :=
  spared.changes.outside location fun moved => moved rfl

theorem of_changes {may : Location → Prop} (changes : Store.ChangesOnly may first.store second.store)
    (outside : ¬ may location) (sameLog : second.log = first.log)
    (unread : ¬ first.log.Reaches first.store location) : Spared location first second := by
  constructor
  · refine changes.mono ?_
    rintro other touched rfl
    exact outside touched
  · rw [sameLog, Log.reaches_congr changes]
    exact unread

theorem detailed (workspace : Workspace) (messages : List Bytes)
    (unread : ¬ workspace.log.Reaches workspace.store location) :
    Spared location workspace (workspace.detailed messages) := by
  induction messages generalizing workspace with
  | nil => exact ⟨Store.ChangesOnly.refl _ _, unread⟩
  | cons message messages ih =>
      obtain ⟨_, changes, reach⟩ := Action.detail_eq_ok (Action.detail_run message workspace)
      have noted : Spared location workspace ((Action.detail message).runOn workspace).2 := by
        constructor
        · refine changes.mono ?_
          rintro other reached rfl
          exact unread reached
        · exact fun reached => unread (reach location reached)
      rw [Workspace.detailed_cons]
      exact noted.trans (ih _ noted.unread)

end Spared

/-- A transfer changes nothing but the file it writes, and if it runs short of input then some piece of
the payload could not be read on the way. -/
theorem transferTo_outcome (archive : Archive) (task : Task) (target : Location) (buffer : Int)
    (before after : Workspace) (outcome : Except Failure Unit) (positive : 0 < buffer)
    (ran : (archive.transferTo task target buffer).runOn before = (outcome, after)) :
    Store.ChangesOnly (· = target) before.store after.store ∧ after.log = before.log ∧
      ∀ failure, outcome = .error failure → failure.kind = .unexpectedEnd →
        ∃ position length, position + length ≤ task.entry.size.toNat ∧
          (archive.payload task.entry after.store position length).length < length := by
  have spec := Payload.transferFrom_outcome
    (fun sink : FileSink => archive.payload task.entry sink.workspace.store)
    (FileSink.write task.destination target) task.key buffer.toNat task.entry.size.toNat
    (fun _ sink => Store.ChangesOnly (· = target) before.store sink.workspace.store ∧
      sink.workspace.log = before.log)
    (by omega)
    (by
      rintro position sink next ⟨changes, sameLog⟩ _ _ written
      obtain ⟨further, kept⟩ := FileSink.write_changesOnly written
      exact ⟨changes.trans further, kept.trans sameLog⟩)
    0 { workspace := before } ⟨Store.ChangesOnly.refl _ _, rfl⟩ (Nat.zero_le _)
  simp only [Action.runOn, transferTo, Payload.transfer] at ran
  rcases spec with ⟨final, run, changes, sameLog⟩ |
    ⟨reached, final, ⟨changes, sameLog⟩, more, short, run⟩ |
    ⟨reached, sink, next, fault, ⟨changes, sameLog⟩, _, _, refused, run⟩
  · rw [run] at ran
    cases ran
    exact ⟨changes, sameLog, by simp⟩
  · rw [run] at ran
    cases ran
    refine ⟨changes, sameLog, ?_⟩
    intro _ _ _
    exact ⟨reached, _, by omega, short⟩
  · rw [run] at ran
    cases ran
    obtain ⟨further, kept⟩ := FileSink.write_changesOnly refused
    refine ⟨changes.trans further, kept.trans sameLog, ?_⟩
    rintro _ ⟨⟩ short
    exact absurd short (Failure.store_kind_ne fault)

/-- A file that none of the tasks and no line of the log will touch. -/
structure Guarded (location : Location) (list : List Task) (workspace : Workspace) : Prop where
  apart : ∀ task ∈ list, workspace.store.place task.destination ≠ location
  unread : ¬ workspace.log.Reaches workspace.store location

theorem Spared.guarded {location : Location} {list : List Task} {before after : Workspace}
    (spared : Spared location before after) (guarded : Guarded location list before) :
    Guarded location list after := by
  constructor
  · intro task member
    rw [spared.changes.place_eq]
    exact guarded.apart task member
  · exact spared.unread

theorem extractTask_outcome (archive : Archive) (buffer : Int) (task : Task) (location : Location)
    (before after : Workspace) (outcome : Except Failure Unit) (positive : 0 < buffer)
    (apart : before.store.place task.destination ≠ location)
    (unread : ¬ before.log.Reaches before.store location)
    (ran : (archive.extractTask buffer task).runOn before = (outcome, after)) :
    Spared location before after ∧
      ∀ failure, outcome = .error failure → failure.kind = .unexpectedEnd →
        ∃ position length, position + length ≤ task.entry.size.toNat ∧
          (archive.payload task.entry after.store position length).length < length := by
  rw [extractTask, Action.bind_of_ok (Action.track _) _ before _ () rfl] at ran
  rcases Action.bind_cases ran with ⟨failure, rfl, unmade⟩ | ⟨target, made, making, rest⟩
  · obtain ⟨cause, rfl, refused⟩ := Action.during_eq_error.mp unmade
    obtain ⟨fault, rfl, rfl⟩ := Action.alter_eq_error refused
    refine ⟨⟨Store.ChangesOnly.refl _ _, unread⟩, ?_⟩
    rintro _ ⟨⟩ short
    exact absurd short (Failure.store_kind_ne fault)
  · obtain ⟨created, creating, rfl⟩ := Action.alter_eq_ok.mp (Action.during_eq_ok.mp making)
    obtain ⟨place, changes⟩ := Store.create_changesOnly _ _ _ _ creating
    have createdSpared : Spared location before
        { before with store := created, tracker := before.tracker.map (·.entry task.entry.name) } :=
      .of_changes changes apart.symm rfl unread
    have notedSpared := createdSpared.trans
      (.detailed _ [task.description] createdSpared.unread)
    rw [Action.bind_of_ok _ _ _ _ _ (Action.detail_run _ _)] at rest
    rcases Action.bind_cases rest with ⟨failure, rfl, stopped⟩ | ⟨_, filled, moved, closing⟩
    · obtain ⟨cause, rfl, broken⟩ := Action.during_eq_error.mp stopped
      obtain ⟨filling, sameLog, short⟩ :=
        transferTo_outcome archive task target buffer _ _ _ positive broken
      refine ⟨notedSpared.trans (.of_changes filling (place ▸ apart.symm) sameLog notedSpared.unread), ?_⟩
      rintro _ ⟨⟩ kind
      exact short cause rfl kind
    · obtain ⟨filling, sameLog, _⟩ :=
        transferTo_outcome archive task target buffer _ _ _ positive (Action.during_eq_ok.mp moved)
      obtain ⟨rfl, rfl⟩ := Prod.mk.inj closing
      refine ⟨notedSpared.trans (.of_changes filling (place ▸ apart.symm) sameLog notedSpared.unread), ?_⟩
      intro failure failed kind
      obtain ⟨_, rfl, refused⟩ := Result.mapError_eq_error.mp failed
      obtain ⟨fault, rfl, _⟩ := Result.mapError_eq_error.mp refused
      exact absurd kind (Failure.store_kind_ne fault)

theorem extractTasks_spared (archive : Archive) (buffer : Int) (list : List Task) (location : Location)
    (before after : Workspace) (outcome : Except Failure Unit) (positive : 0 < buffer)
    (guarded : Guarded location list before)
    (ran : (archive.extractTasks buffer list).runOn before = (outcome, after)) :
    Spared location before after := by
  induction list generalizing before with
  | nil =>
      cases ran
      exact ⟨Store.ChangesOnly.refl _ _, guarded.unread⟩
  | cons task list ih =>
      have apart := guarded.apart task (by simp)
      rw [extractTasks] at ran
      rcases Action.bind_cases ran with ⟨failure, _, stopped⟩ | ⟨_, middle, step, continued⟩
      · exact (extractTask_outcome archive buffer task location before after _ positive apart
          guarded.unread stopped).1
      · have spared := (extractTask_outcome archive buffer task location before middle _ positive apart
          guarded.unread step).1
        have rest : Guarded location list middle := spared.guarded
          ⟨fun other member => guarded.apart other (List.mem_cons_of_mem _ member), guarded.unread⟩
        exact spared.trans (ih middle rest continued)

theorem makeOutput_spared (options : ExtractOptions) (location : Location) (node : Store.Node)
    (before after : Workspace) (outcome : Except Failure Unit)
    (present : before.store.node? location = some node)
    (unread : ¬ before.log.Reaches before.store location)
    (made : (makeOutput options).runOn before = (outcome, after)) : Spared location before after := by
  obtain ⟨makes, sameLog⟩ := makeOutput_spec options before after outcome made
  constructor
  · refine ⟨makes.changesOnly.workingDirectory, makes.changesOnly.terms, ?_, makes.changesOnly.directories⟩
    intro other here
    rw [Decidable.not_not.mp here, makes.of_present location node present, present]
  · rw [sameLog, Log.reaches_congr makes.changesOnly]
    exact unread

theorem makeOutput_kind_ne (options : ExtractOptions) (before after : Workspace) (failure : Failure)
    (failed : (makeOutput options).runOn before = (.error failure, after)) :
    failure.kind ≠ .unexpectedEnd := by
  rw [makeOutput] at failed
  split at failed
  · obtain ⟨cause, rfl, refused⟩ := Action.during_eq_error.mp failed
    rw [Action.mkdirAll_run] at refused
    split at refused <;> cases refused
    exact Failure.store_kind_ne _
  · cases failed

section Extract

variable (path : Bytes) (options : ExtractOptions) (location : Location) (before : Workspace)

theorem vet_spared (unread : ¬ before.log.Reaches before.store location) :
    Spared location before ((vet path options).runOn before).2 := by
  obtain ⟨messages, noted⟩ := vet_onlyDetails path options before
  rw [noted]
  exact .detailed before messages unread

variable (unread : ¬ before.log.Reaches before.store location)
variable (apart : ∀ archive list opened, (vet path options).runOn before = (.ok (archive, list), opened) →
  ∀ task ∈ list, before.store.place task.destination ≠ location)
include unread apart

theorem vetted_guarded (archive : Archive) (list : List Task) (opened : Workspace)
    (vetted : (vet path options).runOn before = (.ok (archive, list), opened)) :
    Spared location before opened ∧ Guarded location list opened := by
  have spared := vet_spared path options location before unread
  rw [vetted] at spared
  exact ⟨spared, spared.guarded ⟨apart archive list opened vetted, unread⟩⟩

variable (node : Store.Node) (found : before.store.find path = .ok (location, node))
include found

theorem makeOutput_guarded (archive : Archive) (list : List Task) (opened started : Workspace)
    (outcome : Except Failure Unit)
    (vetted : (vet path options).runOn before = (.ok (archive, list), opened))
    (made : (makeOutput options).runOn opened = (outcome, started)) :
    Spared location before started ∧ Guarded location list started := by
  obtain ⟨spared, guarded⟩ := vetted_guarded path options location before unread apart archive list
    opened vetted
  have present := (Store.find_eq_ok _ _ _ _ found).2.2.2
  rw [← spared.node?_eq] at present
  have making := makeOutput_spared options location node opened started outcome present
    guarded.unread made
  exact ⟨spared.trans making, making.guarded guarded⟩

theorem extract_spared (outcome : Except Failure Unit) (after : Workspace)
    (ran : (extract path options).runOn before = (outcome, after)) : Spared location before after := by
  rw [extract_eq_vet] at ran
  rcases Action.bind_cases ran with ⟨failure, _, refused⟩ | ⟨⟨archive, list⟩, opened, vetted, performed⟩
  · have spared := vet_spared path options location before unread
    rw [refused] at spared
    exact spared
  · obtain ⟨valid, _, _⟩ := vet_eq_ok path options before opened archive list vetted
    rcases Action.bind_cases performed with ⟨failure, _, unmade⟩ | ⟨_, started, made, tracked⟩
    · exact (makeOutput_guarded path options location before unread apart node found archive list opened
        after _ vetted unmade).1
    · obtain ⟨spared, guarded⟩ := makeOutput_guarded path options location before unread apart
        node found archive list opened started _ vetted made
      rw [Action.tracked_run] at tracked
      cases tracked
      have extracted := extractTasks_spared archive _ list location
        (started.track fun tracker => tracker.init archive.directory.payloadSize) _ _ valid.1
        ⟨guarded.apart, guarded.unread⟩ rfl
      exact spared.trans ⟨extracted.changes, extracted.unread⟩

end Extract

theorem inside_of_resolve (directory : Directory) (start length : Nat)
    (begins : directory.dataStart = Int64.ofNat start) (near : start + 0x200000000 ≤ 0x8000000000000000)
    (short : length < 0x8000000000000000)
    (resolved : directory.resolve (Int64.ofNat length) = .ok ()) (entry : Entry)
    (member : entry ∈ directory.entries) :
    (directory.start entry).toNatClampNeg + entry.size.toNat ≤ length := by
  obtain ⟨position, fits⟩ :=
    Directory.fits_of_resolve directory start length begins near short resolved entry member
  rw [Int64.toNatClampNeg, position]
  omega

theorem payload_length (archive : Archive) (container : Bytes) (entry : Entry) (store : Store)
    (supplies : archive.Supplies container store)
    (inRange : (archive.directory.start entry).toNatClampNeg + entry.size.toNat ≤ container.length)
    (position length : Nat) (inside : position + length ≤ entry.size.toNat) :
    (archive.payload entry store position length).length = length := by
  rw [supplies.payload, List.length_take, List.length_drop, ciphertext_length _ _ _ inRange]
  omega

theorem extractTasks_kind_ne (archive : Archive) (buffer : Int) (list : List Task) (location : Location)
    (container : Bytes) (before after : Workspace) (failure : Failure) (positive : 0 < buffer)
    (inFile : archive.container = .inFile location)
    (present : before.store.node? location = some (.file (.ofBytes container)))
    (inRange : ∀ task ∈ list,
      (archive.directory.start task.entry).toNatClampNeg + task.entry.size.toNat ≤ container.length)
    (guarded : Guarded location list before)
    (failed : (archive.extractTasks buffer list).runOn before = (.error failure, after)) :
    failure.kind ≠ .unexpectedEnd := by
  obtain ⟨front, task, back, between, rfl, done, stopped⟩ :=
    extractTasks_eq_error archive buffer list before after failure failed
  have finished := extractTasks_spared archive buffer front location before between _ positive
    ⟨fun other member => guarded.apart other (List.mem_append_left _ member), guarded.unread⟩ done
  have later := finished.guarded guarded
  obtain ⟨last, short⟩ := extractTask_outcome archive buffer task location between after _ positive
    (later.apart task (by simp)) later.unread stopped
  have supplies : archive.Supplies container after.store := by
    simp only [Supplies, inFile]
    rw [last.node?_eq, finished.node?_eq, present]
  intro kind
  obtain ⟨position, length, inside, less⟩ := short failure rfl kind
  rw [payload_length archive container task.entry after.store supplies (inRange task (by simp))
    position length inside] at less
  exact Nat.lt_irrefl _ less

/-- An archive outlasts its extraction. If no destination is the file of the archive itself, this file is
found as it was after every run, whether it succeeded or not, and once the archive has been checked no
failure is due to a payload that ends too soon. Stray zeros can make a directory of any length, so room is
needed behind it for the largest offset and size together, where positions would wrap around. -/
theorem extract_spares_archive (path : Bytes) (options : ExtractOptions) (before : Workspace)
    (location : Location) (node : Store.Node) (plain : options.lz4 = false)
    (found : before.store.find path = .ok (location, node))
    (unread : ¬ before.log.Reaches before.store location)
    (apart : ∀ archive list opened,
      (vet path options).runOn before = (.ok (archive, list), opened) →
      ∀ task ∈ list, before.store.place task.destination ≠ location) :
    (∀ outcome after, (extract path options).runOn before = (outcome, after) →
      after.store.find path = .ok (location, node)) ∧
    ∀ contents vetted opened failure after, node = .file contents →
      contents.size < 0x8000000000000000 →
      (vet path options).runOn before = (.ok vetted, opened) →
      vetted.1.directory.dataStart.toInt + 0x200000000 ≤ 0x8000000000000000 →
      (extract path options).runOn before = (.error failure, after) →
      failure.kind ≠ .unexpectedEnd := by
  constructor
  · intro outcome after ran
    have spared := extract_spared path options location before unread apart node found outcome after ran
    apply Store.find_again spared.changes path location node found
    rw [spared.node?_eq]
    exact (Store.find_eq_ok _ _ _ _ found).2.2.2
  · rintro contents ⟨archive, list⟩ opened failure after rfl short vetted near failed
    obtain ⟨valid, accepted, listed⟩ := vet_eq_ok path options before opened archive list vetted
    rw [plain] at accepted
    obtain ⟨_, _, open_⟩ := openAt_eq_ok path archive before opened accepted
    have sameFile := open_.found.symm.trans found
    cases sameFile
    rw [extract_eq_vet, Action.bind_of_ok _ _ _ _ _ vetted] at failed
    rcases Action.bind_cases failed with ⟨_, same, unmade⟩ | ⟨_, started, made, tracked⟩
    · cases same
      exact makeOutput_kind_ne options opened after failure unmade
    · obtain ⟨spared, guarded⟩ := makeOutput_guarded path options location before unread apart _ found
        archive list opened started _ vetted made
      have present : started.store.node? location = some (.file (.ofBytes contents.toBytes)) := by
        rw [spared.node?_eq, Contents.ofBytes_toBytes]
        exact (Store.find_eq_ok _ _ _ _ found).2.2.2
      have inRange : ∀ task ∈ list, (archive.directory.start task.entry).toNatClampNeg +
          task.entry.size.toNat ≤ contents.toBytes.length := by
        obtain ⟨start, within, begins⟩ := Directory.read_dataStart _ _ open_.read
        obtain ⟨_, rfl⟩ := (tasks_eq_ok _ _ _ _).mp listed
        intro task member
        obtain ⟨entry, inside, rfl⟩ := List.mem_map.mp member
        rw [Contents.length_toBytes] at within ⊢
        simp only [begins, Int64.toInt_ofNat_of_lt (Nat.lt_of_le_of_lt within short)] at near
        exact inside_of_resolve archive.directory start contents.size begins (by omega) short
          open_.resolved entry inside
      rw [Action.tracked_run] at tracked
      obtain ⟨stopped, _⟩ := Prod.mk.inj tracked
      exact extractTasks_kind_ne archive _ list location contents.toBytes
        (started.track fun tracker => tracker.init archive.directory.payloadSize) _ failure valid.1
        open_.container present inRange ⟨guarded.apart, guarded.unread⟩ (Prod.ext stopped rfl)

def ownNameContainer : Bytes :=
  containerOf [⟨utf8 "a.iga", utf8 "hello"⟩]

def ownNameDirectory : Directory where
  header := .standard
  entries := [⟨0, utf8 "a.iga", 0, 5⟩]
  dataStart := 26

def ownName : Workspace where
  store := Store.initial.put [utf8 "work", utf8 "a.iga"] (.file (.ofBytes ownNameContainer))

theorem extract_spares_archive_own_name :
    ∃ failure after,
      (extract (utf8 "a.iga") { outputDirectory := utf8 "missing" }).runOn ownName = (.error failure, after) ∧
      after.store.find (utf8 "a.iga") =
        .ok ([utf8 "work", utf8 "a.iga"], .file (.ofBytes ownNameContainer)) ∧
      failure.kind ≠ .unexpectedEnd := by
  have fails : ((extract (utf8 "a.iga") { outputDirectory := utf8 "missing" }).runOn
      ownName).1.toOption.isSome = false := by
    decide +kernel
  have passes : ((vet (utf8 "a.iga") { outputDirectory := utf8 "missing" }).runOn
      ownName).1.toOption.isSome = true := by
    decide +kernel
  have reads : Directory.read ownNameContainer = .ok ownNameDirectory :=
    Result.eq_ok_of_toOption (by decide +kernel)
  have found : ownName.store.find (utf8 "a.iga") =
      .ok ([utf8 "work", utf8 "a.iga"], .file (.ofBytes ownNameContainer)) := by
    rfl
  have apart : ∀ task ∈ ownNameDirectory.entries.map
      (taskOf ownNameDirectory (utf8 "missing") .byName),
      ownName.store.place task.destination ≠ [utf8 "work", utf8 "a.iga"] := by
    decide +kernel
  obtain ⟨failure, after, failed⟩ := Action.exists_error fails
  obtain ⟨vetted, opened, passed⟩ := Action.exists_ok passes
  obtain ⟨spared, legible⟩ := extract_spares_archive (utf8 "a.iga")
    { outputDirectory := utf8 "missing" } ownName _ _ rfl found (fun reached => nomatch reached.1)
    (by
      intro archive list opened vetted
      obtain ⟨_, rfl⟩ := vet_lists _ _ _ _ _ _ _ _ _ rfl found reads vetted
      exact apart)
  have listed := vet_lists _ _ _ _ _ _ _ _ _ rfl found reads passed
  exact ⟨failure, after, failed, spared _ after failed,
    legible _ vetted opened failure after rfl (by decide +kernel) passed (by rw [listed.1]; decide) failed⟩

/-- Extracted beside itself, the archive passes all checks, runs short of input and is lost. -/
theorem extract_destroys_archive :
    ∃ vetted opened failure after,
      (vet (utf8 "a.iga") { outputDirectory := utf8 "." }).runOn ownName = (.ok vetted, opened) ∧
      (extract (utf8 "a.iga") { outputDirectory := utf8 "." }).runOn ownName = (.error failure, after) ∧
      failure.kind = .unexpectedEnd ∧
      ownName.store.readWhole (utf8 "a.iga") = .ok ownNameContainer ∧ ownNameContainer ≠ [] ∧
      after.store.readWhole (utf8 "a.iga") = .ok [] := by
  have passes : ((vet (utf8 "a.iga") { outputDirectory := utf8 "." }).runOn
      ownName).1.toOption.isSome = true := by
    decide +kernel
  have fails : (Result.error? ((extract (utf8 "a.iga") { outputDirectory := utf8 "." }).runOn
      ownName).1).map Failure.kind = some .unexpectedEnd := by
    decide +kernel
  have whole : ownName.store.readWhole (utf8 "a.iga") = .ok ownNameContainer :=
    Result.eq_ok_of_toOption (by decide +kernel)
  have lost : ((extract (utf8 "a.iga") { outputDirectory := utf8 "." }).runOn ownName).2.store.readWhole
      (utf8 "a.iga") = .ok [] :=
    Result.eq_ok_of_toOption (by decide +kernel)
  obtain ⟨vetted, opened, passed⟩ := Action.exists_ok passes
  obtain ⟨failure, cause, kind⟩ := Option.map_eq_some_iff.mp fails
  obtain ⟨after, failed⟩ := Action.exists_of_error? cause
  rw [failed] at lost
  exact ⟨vetted, opened, failure, after, passed, failed, kind, whole, by decide +kernel, lost⟩

end IgaArchive.Archive

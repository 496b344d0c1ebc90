import IgaArchive.Proofs.Archive.Confinement
import IgaArchive.Proofs.Archive.Preservation
import IgaArchive.Proofs.Archive.RoundTrip

/-!
Files of their own. A destination is told by the elements of a name without empty ones and `.`: members share
a file just when their names agree in these, and a name that has none leads to the output directory itself.
Where the elements differ, an extraction into an empty directory leaves one file for each entry.
-/

namespace IgaArchive.Path

/-- A path that leads further down from a directory: it has the elements of the directory and more behind
them, none of which goes up. -/
structure Below (directory path : Bytes) : Prop where
  rooted : isAbsolute path = isAbsolute directory
  further : ∃ more, more ≠ [] ∧ parent ∉ more ∧ proper path = proper directory ++ more

theorem isAbsolute_clean (path : Bytes) : isAbsolute (clean path) = isAbsolute path :=
  isAbsolute_render _ _ (cleanElements_plain path)

section Join

variable (base name : Bytes) (nonempty : base ≠ []) (down : parent ∉ elements name)
include nonempty down

theorem join_eq_clean_iff : join base name = clean base ↔ proper name = [] := by
  constructor
  · intro same
    have shape := proper_join base name nonempty down
    rw [same] at shape
    exact List.self_eq_append_right.mp shape
  · intro nothing
    rw [proper_eq_added] at nothing
    rw [join_eq_render base name nonempty down, nothing, List.append_nil, clean]

theorem join_below (goes : proper name ≠ []) : Below (clean base) (join base name) := by
  refine ⟨?_, proper name, goes, ?_, proper_join base name nonempty down⟩
  · rw [isAbsolute_join base name nonempty down, isAbsolute_clean]
  · rw [proper_eq_added]
    exact fun up => down (List.mem_filter.mp up).1

theorem join_eq_join_iff (other : Bytes) (otherDown : parent ∉ elements other) :
    join base name = join base other ↔ proper name = proper other := by
  constructor
  · intro same
    have shape := proper_join base name nonempty down
    rw [same, proper_join base other nonempty otherDown] at shape
    exact (List.append_cancel_left shape).symm
  · intro same
    rw [proper_eq_added, proper_eq_added] at same
    rw [join_eq_render base name nonempty down, join_eq_render base other nonempty otherDown, same]

end Join

end IgaArchive.Path

namespace IgaArchive.Archive

theorem EmptyTarget.place_proper {outputDirectory : Bytes} {base : Location} {workspace : Workspace}
    (target : EmptyTarget outputDirectory base workspace) (name : Bytes)
    (down : Path.parent ∉ Path.elements name) :
    workspace.store.place (Path.join (baseOf outputDirectory) name) = base ++ Path.proper name := by
  obtain ⟨_, walked, _, _⟩ := Store.find_eq_ok _ _ _ _ target.found
  have clean := Store.walk_cleanElements _ _ _ walked
  rw [Store.place_join _ _ _ (baseOf_ne_nil _) down, ← Store.walk_eq_ok _ _ _ _ clean,
    Path.proper_eq_added]

theorem tasks_nodup (directory : Directory) (out : Bytes) (policy : KeyPolicy) (list : List Task)
    (listed : tasks directory out policy = .ok list)
    (distinct : (directory.entries.map fun entry => Path.proper entry.name).Nodup) :
    (list.map Task.destination).Nodup := by
  obtain ⟨accepted, rfl⟩ := (tasks_eq_ok _ _ _ _).mp listed
  rw [List.map_map]
  rw [List.Nodup, List.pairwise_map] at distinct ⊢
  refine distinct.imp_of_mem ?_
  intro entry other member otherMember differ same
  exact differ ((Path.join_eq_join_iff _ _ (baseOf_ne_nil out)
    (EntryName.check_eq_ok _ (accepted entry member)).2 _
    (EntryName.check_eq_ok _ (accepted other otherMember)).2).mp same)

theorem transferTo_inRange (archive : Archive) (container : Bytes) (task : Task) (target : Location)
    (buffer : Int) (before after : Workspace) (positive : 0 < buffer)
    (supplies : archive.Supplies container before.store) (apart : ¬ archive.ReadsFrom target)
    (ran : (archive.transferTo task target buffer).runOn before = (.ok (), after)) :
    task.entry.size.toNat = 0 ∨
      (archive.directory.start task.entry).toNatClampNeg + task.entry.size.toNat ≤ container.length := by
  have spec := Payload.transferFrom_outcome
    (fun sink : FileSink => archive.payload task.entry sink.workspace.store)
    (FileSink.write task.destination target) task.key buffer.toNat task.entry.size.toNat
    (fun position sink => archive.Supplies container sink.workspace.store ∧
      (position = 0 ∨
        (archive.directory.start task.entry).toNatClampNeg + position ≤ container.length))
    (by omega)
    (by
      rintro position sink next ⟨held, _⟩ more whole written
      constructor
      · refine held.again (FileSink.write_changesOnly written).1 ?_
        rintro source reads rfl
        exact apart reads
      · -- The piece that was read lies within the container.
        rw [held.payload, List.length_take, List.length_drop, ciphertext, List.length_take,
          List.length_drop] at whole
        omega)
    0 { workspace := before } ⟨supplies, Or.inl rfl⟩ (Nat.zero_le _)
  simp only [Action.runOn, transferTo, Payload.transfer] at ran
  rcases spec with ⟨final, _, _, inside⟩ | ⟨_, _, _, _, _, run⟩ | ⟨_, _, _, _, _, _, _, _, run⟩
  · exact inside
  · rw [run] at ran
    cases ran
  · rw [run] at ran
    cases ran

/-- What a member must have been to be extracted: it went to no directory, and all of its payload was
there. -/
def Extractable (archive : Archive) (container : Bytes) (store : Store) (task : Task) : Prop :=
  store.node? (store.place task.destination) ≠ some .directory ∧
    (task.entry.size.toNat = 0 ∨
      (archive.directory.start task.entry).toNatClampNeg + task.entry.size.toNat ≤ container.length)

section Extractable

variable (archive : Archive) (container : Bytes) (buffer : Int) (location : Location)
variable (positive : 0 < buffer) (reads : ∀ source, archive.ReadsFrom source → source = location)
include positive reads

theorem extractTask_extractable (task : Task) (before after : Workspace)
    (supplies : archive.Supplies container before.store)
    (apart : before.store.place task.destination ≠ location)
    (unread : ¬ before.log.Reaches before.store location)
    (ran : (archive.extractTask buffer task).runOn before = (.ok (), after)) :
    Extractable archive container before.store task := by
  rw [extractTask, Action.bind_of_ok (Action.track _) _ before _ () rfl] at ran
  obtain ⟨target, made, making, rest⟩ := Action.bind_eq_ok ran
  obtain ⟨created, creating, rfl⟩ := Action.alter_eq_ok.mp (Action.during_eq_ok.mp making)
  obtain ⟨place, changes⟩ := Store.create_changesOnly _ _ _ _ creating
  have createdSpared : Spared location before
      { before with store := created, tracker := before.tracker.map (·.entry task.entry.name) } :=
    .of_changes changes apart.symm rfl unread
  have noted := createdSpared.trans (.detailed _ [task.description] createdSpared.unread)
  rw [Action.bind_of_ok _ _ _ _ _ (Action.detail_run _ _)] at rest
  obtain ⟨_, moved, filled, _⟩ := Action.bind_eq_ok rest
  constructor
  · obtain ⟨node, found, _⟩ := Store.create_eq_ok _ _ _ _ creating
    obtain ⟨_, _, _, _, _, _, present, free⟩ := Store.fileTarget_eq_ok _ _ _ _ found
    have here : before.store.place task.destination = target := place.symm
    rw [here]
    exact present ▸ free
  · refine transferTo_inRange archive container task target buffer _ moved positive
      (supplies.again noted.changes ?_) ?_ (Action.during_eq_ok.mp filled)
    · intro source from_ moved
      exact moved (reads source from_)
    · intro from_
      exact apart (place ▸ reads target from_)

/-- Members that were all extracted were so from the start: no directory is lost on the way. -/
theorem extractTasks_extractable (list : List Task) (before after : Workspace)
    (supplies : archive.Supplies container before.store) (guarded : Guarded location list before)
    (ran : (archive.extractTasks buffer list).runOn before = (.ok (), after)) :
    ∀ task ∈ list, Extractable archive container before.store task := by
  induction list generalizing before with
  | nil => exact nofun
  | cons first list ih =>
      rw [extractTasks] at ran
      obtain ⟨_, middle, step, rest⟩ := Action.bind_eq_ok ran
      have apart := guarded.apart first (by simp)
      have spared := (extractTask_outcome archive buffer first location before middle _ positive apart
        guarded.unread step).1
      have later := ih middle
        (supplies.again spared.changes fun source from_ moved => moved (reads source from_))
        (spared.guarded ⟨fun task member => guarded.apart task (List.mem_cons_of_mem _ member),
          guarded.unread⟩) rest
      refine List.forall_mem_cons.mpr ⟨?_, ?_⟩
      · exact extractTask_extractable archive container buffer location positive reads first before middle
          supplies apart guarded.unread step
      · intro task member
        obtain ⟨free, inside⟩ := later task member
        refine ⟨?_, inside⟩
        intro directory
        rw [spared.changes.place_eq] at free
        exact free (spared.changes.directories _ directory)

end Extractable

theorem start_le_of_resolve (directory : Directory) (length : Nat) (short : length < 0x8000000000000000)
    (resolved : directory.resolve (Int64.ofNat length) = .ok ()) (entry : Entry)
    (member : entry ∈ directory.entries) (empty : entry.size.toNat = 0) :
    (directory.start entry).toNatClampNeg ≤ length := by
  have fits : directory.fits (Int64.ofNat length) entry = true := by
    rw [Directory.resolve] at resolved
    split at resolved
    · cases resolved
    · rename_i missing
      simpa using List.find?_eq_none.mp missing entry member
  have zero : Int64.ofNat 0 = 0 := rfl
  rw [Directory.fits, decide_eq_true_iff, empty, zero, Int64.add_zero, Int64.le_iff_toInt_le,
    Int64.toInt_ofNat_of_lt short] at fits
  rw [Int64.toNatClampNeg]
  omega

theorem containerIn_length_le (wrapped : Bool) (bytes container : Bytes)
    (held : containerIn wrapped bytes = .ok container) :
    container.length ≤ max maxUnwrapSize bytes.length := by
  cases wrapped with
  | false =>
      cases held
      exact Nat.le_max_right _ _
  | true =>
      rw [containerIn, if_pos rfl, unwrap] at held
      split at held
      · cases held
      · split at held
        · cases held
        · split at held
          · cases held
          · rename_i within
            cases held
            omega

theorem extraction_no_device (container : Bytes) (directory : Directory) (task : Task)
    (store after : Store) (log later : Log) (outcome : Except Failure Unit) (location : Location)
    (quiet : ¬ log.Reaches store (store.place task.destination))
    (ran : extraction container directory task store log = (outcome, after, later))
    (unreached : ¬ log.Reaches store location) (free : store.node? location ≠ some .fullDevice) :
    after.node? location ≠ some .fullDevice := by
  by_cases here : location = store.place task.destination
  · cases creating : store.create task.destination with
    | error fault =>
        rw [extraction_of_refused _ _ _ _ _ _ creating] at ran
        cases ran
        exact free
    | ok target =>
        obtain ⟨made, created⟩ := target
        have prepared := prepared_of_create task store created log made quiet creating
        obtain ⟨node, found, _, _, outcome⟩ := Store.create_eq_ok _ _ _ _ creating
        obtain ⟨_, below⟩ := Store.place_of_fileTarget _ _ _ _ found
        obtain ⟨_, _, _, _, _, _, present, _⟩ := Store.fileTarget_eq_ok _ _ _ _ found
        rw [here, ← prepared.place] at free
        rcases outcome with ⟨device, _⟩ | ⟨_, rfl⟩
        · exact absurd (present.trans device) free
        · have empty := prepared.untouched
          rw [Store.node?_put _ _ _ _ below, if_pos rfl] at empty
          rw [extraction_of_create _ _ _ _ _ _ _ creating] at ran
          cases ran
          rw [here, ← prepared.place, delivered, Store.node?_fill _ _ _ empty]
          simp
  · obtain ⟨changes, _, _⟩ := extraction_spec container directory task store after log later outcome
      quiet ran
    rw [changes.outside]
    · exact free
    · rintro (same | reached)
      · exact here same
      · exact unreached reached

theorem extractions_no_device (container : Bytes) (directory : Directory) (tasks : List Task)
    (store : Store) (log : Log) (location : Location)
    (quiet : ∀ task ∈ tasks, ¬ log.Reaches store (store.place task.destination))
    (unreached : ¬ log.Reaches store location) (free : store.node? location ≠ some .fullDevice) :
    (extractions container directory tasks store log).2.1.node? location ≠ some .fullDevice := by
  induction tasks generalizing store log with
  | nil => exact free
  | cons first tasks ih =>
      rw [extractions]
      cases step : extraction container directory first store log with
      | mk result left =>
          obtain ⟨middle, kept⟩ := left
          have still := extraction_no_device container directory first store middle log kept result
            location (quiet first (by simp)) step unreached free
          obtain ⟨changes, reach, _⟩ := extraction_spec container directory first store middle log kept
            result (quiet first (by simp)) step
          cases result with
          | error failure => exact still
          | ok done =>
              refine ih middle kept ?_ (fun reached => unreached (reach location reached)) still
              intro task member
              exact Log.quiet_again changes reach _ (quiet task (List.mem_cons_of_mem _ member))

section Empty

variable {path : Bytes} {options : ExtractOptions} {base : Location} {before opened : Workspace}
variable {archive : Archive} {contents : Contents} {container : Bytes} {list : List Task}
variable (source : OpenedFrom path options.lz4 before opened archive (before.store.place path) contents
  container)
variable (listed : tasks archive.directory options.outputDirectory options.policy = .ok list)
variable (target : EmptyTarget options.outputDirectory base before)

include source target in
theorem EmptyTarget.openedFrom : EmptyTarget options.outputDirectory base opened :=
  target.again source.changes target.quiet
    fun below down reached => target.quiet below down (source.reach _ reached)

include listed target in
theorem EmptyTarget.places (task : Task) (member : task ∈ list) :
    before.store.place task.destination = base ++ Path.proper task.entry.name := by
  obtain ⟨checked, rfl⟩ := (tasks_eq_ok _ _ _ _).mp listed
  obtain ⟨entry, inside, rfl⟩ := List.mem_map.mp member
  exact target.place_proper _ (EntryName.check_eq_ok _ (checked entry inside)).2

include source listed target in
theorem EmptyTarget.guarded (unread : ¬ before.log.Reaches before.store (before.store.place path)) :
    Guarded (before.store.place path) list opened := by
  have file := (Store.find_eq_ok _ _ _ _ source.found).2.2.2
  have root := (Store.find_eq_ok _ _ _ _ target.found).2.2.2
  refine ⟨?_, fun reached => unread (source.reach _ reached)⟩
  intro task member here
  rw [source.changes.place_eq, target.places listed task member] at here
  rw [← here] at file
  by_cases nothing : Path.proper task.entry.name = []
  · rw [nothing, List.append_nil, root] at file
    cases file
  · rw [target.empty _ nothing] at file
    cases file

variable (extractable : ∀ task ∈ list, Extractable archive container opened.store task)

include source listed target extractable in
theorem EmptyTarget.proper_ne_nil (task : Task) (member : task ∈ list) :
    Path.proper task.entry.name ≠ [] := by
  intro nothing
  have stays := target.openedFrom source
  have here := stays.places listed task member
  have directory := (Store.find_eq_ok _ _ _ _ stays.found).2.2.2
  rw [nothing, List.append_nil] at here
  rw [← here] at directory
  exact (extractable task member).1 directory

include source listed target extractable in
theorem EmptyTarget.poised (short : contents.size < 0x8000000000000000)
    (unread : ¬ before.log.Reaches before.store (before.store.place path)) :
    Poised archive container list opened := by
  have guarded := target.guarded source listed unread
  have stays := target.openedFrom source
  refine ⟨source.supplies unread, ?_, ?_, ?_, ?_⟩
  · intro task member
    rcases (extractable task member).2 with empty | inside
    · have bound := containerIn_length_le _ _ _ source.held
      rw [Contents.length_toBytes, maxUnwrapSize] at bound
      obtain ⟨_, rfl⟩ := (tasks_eq_ok _ _ _ _).mp listed
      obtain ⟨entry, present, rfl⟩ := List.mem_map.mp member
      rw [empty, Nat.add_zero]
      exact start_le_of_resolve archive.directory container.length (by omega) source.resolved entry
        present empty
    · exact inside
  · intro task member reads
    exact guarded.apart task member (source.readsFrom reads)
  · intro place reads
    rw [source.readsFrom reads]
    exact guarded.unread
  · intro task member
    rw [stays.places listed task member]
    exact stays.quiet _ (target.proper_ne_nil source listed extractable task member)

end Empty

/-- An extraction into an empty directory that has succeeded: what was opened, the tasks that were made of
it, and what they have done to the files. -/
structure Filled (path : Bytes) (options : ExtractOptions) (base : Location)
    (before opened after : Workspace) (archive : Archive) (contents : Contents) (container : Bytes)
    (list : List Task) : Prop where
  accepted : (openAt path options.lz4).runOn before = (.ok archive, opened)
  source : OpenedFrom path options.lz4 before opened archive (before.store.place path) contents container
  listed : tasks archive.directory options.outputDirectory options.policy = .ok list
  target : EmptyTarget options.outputDirectory base opened
  poised : Poised archive container list opened
  goes : ∀ task ∈ list, Path.proper task.entry.name ≠ []
  ran : ∃ later, extractions container archive.directory list opened.store opened.log =
    (.ok (), after.store, later)

theorem filled_of_extract (path : Bytes) (options : ExtractOptions) (base : Location)
    (before after : Workspace)
    (short : ∀ location contents, before.store.find path = .ok (location, .file contents) →
      contents.size < 0x8000000000000000)
    (unread : ¬ before.log.Reaches before.store (before.store.place path))
    (target : EmptyTarget options.outputDirectory base before)
    (extracted : (extract path options).runOn before = (.ok (), after)) :
    ∃ opened archive contents container list,
      Filled path options base before opened after archive contents container list := by
  obtain ⟨valid, archive, opened, list, accepted, listed⟩ :=
    extract_opens path options before after extracted
  obtain ⟨location, contents, container, source⟩ :=
    openAt_opens path options.lz4 archive before opened accepted
  obtain rfl : location = before.store.place path := (Store.find_eq_ok _ _ _ _ source.found).2.2.1
  have stays := target.openedFrom source
  have naming : (Action.ofExcept ((tasks archive.directory options.outputDirectory
      options.policy).mapError .entryName)).runOn opened = (.ok list, opened) :=
    Action.ofExcept_eq_ok.mpr ⟨Result.mapError_eq_ok.mpr listed, rfl⟩
  rw [extract_of_opened path options before opened archive valid accepted,
    Action.bind_of_ok _ _ _ _ _ naming,
    Action.bind_of_ok _ _ _ _ _ (makeOutput_present options opened base stays.found)] at extracted
  obtain ⟨ended, ran, rfl⟩ := Action.tracked_eq_ok extracted
  have guarded := target.guarded source listed unread
  have extractable : ∀ task ∈ list, Extractable archive container opened.store task :=
    extractTasks_extractable archive container _ (before.store.place path) valid.1
      (fun _ reads => source.readsFrom reads) list
      (opened.track fun tracker => tracker.init archive.directory.payloadSize) ended
      (source.supplies unread) ⟨guarded.apart, guarded.unread⟩ ran
  have poised := target.poised source listed extractable (short _ _ source.found) unread
  obtain ⟨_, run, _⟩ := extractTasks_run archive container list _ _ valid.1
    (poised.track fun tracker => tracker.init archive.directory.payloadSize)
  rw [ran] at run
  obtain ⟨outcome, same⟩ := Prod.mk.inj run
  subst same
  exact ⟨opened, archive, contents, container, list, accepted, source, listed, stays, poised,
    target.proper_ne_nil source listed extractable, _, Prod.ext outcome.symm (Prod.ext rfl rfl)⟩

section Filled

variable {path : Bytes} {options : ExtractOptions} {base : Location} {before opened after : Workspace}
variable {archive : Archive} {contents : Contents} {container : Bytes} {list : List Task}
variable (filled : Filled path options base before opened after archive contents container list)
include filled

theorem Filled.elsewhere (below : Location) (down : below ≠ [])
    (other : ∀ task ∈ list, below ≠ Path.proper task.entry.name) :
    after.store.node? (base ++ below) = none := by
  obtain ⟨later, ran⟩ := filled.ran
  obtain ⟨changes, _⟩ := extractions_spec _ _ list _ after.store _ later _ filled.poised.quiet ran
  rw [changes.outside, filled.target.empty below down]
  rintro (⟨task, member, here⟩ | reached)
  · rw [filled.target.places filled.listed task member, List.append_cancel_left_eq] at here
    exact other task member here
  · exact filled.target.quiet below down reached

theorem Filled.file (front : List Task) (task : Task) (back : List Task)
    (shape : list = front ++ task :: back)
    (last : ∀ other ∈ back, Path.proper other.entry.name ≠ Path.proper task.entry.name) :
    after.store.node? (base ++ Path.proper task.entry.name) =
      some (.file (.ofBytes (plaintext container archive.directory task.key task.entry))) := by
  obtain ⟨later, ran⟩ := filled.ran
  have inside : ∀ other ∈ task :: back, other ∈ list :=
    fun other member => shape ▸ List.mem_append_right front member
  have member := inside task (by simp)
  have goes := filled.goes task member
  have place := filled.target.places filled.listed task member
  obtain ⟨_, holds⟩ := extractions_spec _ _ list _ after.store _ later _ filled.poised.quiet ran
  obtain ⟨node, found, whole | ⟨device, _⟩⟩ := holds rfl front task back shape (by
    intro other behind
    rw [place, filled.target.places filled.listed other (inside other (List.mem_cons_of_mem _ behind)),
      ne_eq, List.append_cancel_left_eq]
    exact last other behind)
  · rw [← place, ← whole]
    exact (Store.find_eq_ok _ _ _ _ found).2.2.2
  · have free := extractions_no_device container archive.directory list opened.store opened.log
      (base ++ Path.proper task.entry.name) filled.poised.quiet (filled.target.quiet _ goes)
      (by rw [filled.target.empty _ goes]; exact nofun)
    have present := (Store.find_eq_ok _ _ _ _ found).2.2.2
    rw [ran, ← place] at free
    rw [device] at present
    exact absurd present free

theorem Filled.own
    (distinct : (archive.directory.entries.map fun entry => Path.proper entry.name).Nodup)
    (entry : Entry) (inside : entry ∈ archive.directory.entries) :
    let bytes := plaintext container archive.directory (Payload.key entry.name options.policy) entry
    Path.proper entry.name ≠ [] ∧
      after.store.node? (base ++ Path.proper entry.name) = some (.file (.ofBytes bytes)) ∧
      bytes.length = entry.size.toNat := by
  obtain ⟨_, shape⟩ := (tasks_eq_ok _ _ _ _).mp filled.listed
  obtain ⟨front, back, split⟩ := List.append_of_mem inside
  have member : taskOf archive.directory options.outputDirectory options.policy entry ∈ list :=
    shape ▸ List.mem_map_of_mem inside
  have fits := filled.poised.inRange _ member
  simp only [taskOf] at fits
  refine ⟨filled.goes _ member, ?_, plaintext_length container archive.directory _ entry fits⟩
  apply filled.file
    (front.map (taskOf archive.directory options.outputDirectory options.policy))
    (taskOf archive.directory options.outputDirectory options.policy entry)
    (back.map (taskOf archive.directory options.outputDirectory options.policy))
  · rw [← shape, split, List.map_append, List.map_cons]
  · intro task behind same
    obtain ⟨other, later, rfl⟩ := List.mem_map.mp behind
    rw [split, List.map_append, List.map_cons] at distinct
    have apart := (List.nodup_cons.mp (List.nodup_append.mp distinct).2.1).1
    exact apart (List.mem_map.mpr ⟨other, later, same⟩)

end Filled

/-- Members get files of their own as far as the proper elements of their names differ. Tasks share a
destination just when their names agree in these; a destination is the clean output directory just when there
are none, and else lies below it. An extraction into an empty directory that succeeds leaves one file for each
entry, with its payload, and nothing else, if all names differ so. -/
theorem entries_get_own_files :
    (∀ (directory : Directory) (out : Bytes) (policy : KeyPolicy) (list : List Task),
      tasks directory out policy = .ok list →
      list.map Task.entry = directory.entries ∧
      (∀ task ∈ list,
        (task.destination = Path.clean out ↔ Path.proper task.entry.name = []) ∧
        (Path.proper task.entry.name ≠ [] → Path.Below (Path.clean out) task.destination)) ∧
      (∀ first ∈ list, ∀ second ∈ list, first.destination = second.destination ↔
        Path.proper first.entry.name = Path.proper second.entry.name) ∧
      ((directory.entries.map fun entry => Path.proper entry.name).Nodup →
        (list.map Task.destination).Nodup)) ∧
    ∀ (path : Bytes) (options : ExtractOptions) (base : Location) (before after : Workspace),
      (∀ location contents, before.store.find path = .ok (location, .file contents) →
        contents.size < 0x8000000000000000) →
      ¬ before.log.Reaches before.store (before.store.place path) →
      EmptyTarget options.outputDirectory base before →
      (extract path options).runOn before = (.ok (), after) →
      ∃ opened archive contents container,
        (openAt path options.lz4).runOn before = (.ok archive, opened) ∧
        before.store.find path = .ok (before.store.place path, .file contents) ∧
        containerIn options.lz4 contents.toBytes = .ok container ∧
        ((archive.directory.entries.map fun entry => Path.proper entry.name).Nodup →
          (∀ entry ∈ archive.directory.entries, Path.proper entry.name ≠ [] ∧
            ∃ bytes, after.store.node? (base ++ Path.proper entry.name) = some (.file (.ofBytes bytes)) ∧
              bytes = plaintext container archive.directory (Payload.key entry.name options.policy) entry ∧
              bytes.length = entry.size.toNat) ∧
          ∀ below ≠ [], (∀ entry ∈ archive.directory.entries, below ≠ Path.proper entry.name) →
            after.store.node? (base ++ below) = none) := by
  constructor
  · intro directory out policy list listed
    have distinct := tasks_nodup directory out policy list listed
    obtain ⟨accepted, rfl⟩ := (tasks_eq_ok _ _ _ _).mp listed
    have downs : ∀ entry ∈ directory.entries, Path.parent ∉ Path.elements entry.name :=
      fun entry member => (EntryName.check_eq_ok _ (accepted entry member)).2
    refine ⟨by rw [List.map_map]; exact List.map_id _, ?_, ?_, distinct⟩
    · intro task member
      obtain ⟨entry, inside, rfl⟩ := List.mem_map.mp member
      rw [← clean_baseOf]
      exact ⟨Path.join_eq_clean_iff _ _ (baseOf_ne_nil out) (downs entry inside),
        Path.join_below _ _ (baseOf_ne_nil out) (downs entry inside)⟩
    · intro first firstIn second secondIn
      obtain ⟨entry, inside, rfl⟩ := List.mem_map.mp firstIn
      obtain ⟨other, otherInside, rfl⟩ := List.mem_map.mp secondIn
      exact Path.join_eq_join_iff _ _ (baseOf_ne_nil out) (downs entry inside) _ (downs other otherInside)
  · intro path options base before after short unread target extracted
    obtain ⟨opened, archive, contents, container, list, filled⟩ :=
      filled_of_extract path options base before after short unread target extracted
    obtain ⟨_, shape⟩ := (tasks_eq_ok _ _ _ _).mp filled.listed
    refine ⟨opened, archive, contents, container, filled.accepted, filled.source.found,
      filled.source.held, ?_⟩
    intro distinct
    constructor
    · intro entry inside
      obtain ⟨goes, file, length⟩ := filled.own distinct entry inside
      exact ⟨goes, _, file, rfl, length⟩
    · intro below down other
      apply filled.elsewhere below down
      intro task member
      rw [← shape] at member
      obtain ⟨entry, inside, rfl⟩ := List.mem_map.mp member
      exact other entry inside

def distinctElements : List Member :=
  [⟨utf8 "a", utf8 "x"⟩, ⟨utf8 ".//b", utf8 "yz"⟩]

def sharedElements : List Member :=
  [⟨utf8 "a", utf8 "x"⟩, ⟨utf8 "./a", utf8 "y"⟩]

def distinctAndShared : Workspace where
  store :=
    { Store.initial with
      nodes := Store.initial.nodes ++
        [([utf8 "work", utf8 "distinct"], .file (.ofBytes (containerOf distinctElements))),
          ([utf8 "work", utf8 "shared"], .file (.ofBytes (containerOf sharedElements))),
          ([utf8 "work", utf8 "out"], .directory)] }

theorem distinctAndShared_emptyTarget : EmptyTarget (utf8 "out") [utf8 "work", utf8 "out"] distinctAndShared :=
  ⟨rfl, Store.node?_below _ _ (by decide +kernel), fun _ _ reached => nomatch reached.1⟩

def distinctElementsDirectory : Directory where
  header := .standard
  entries := [⟨0, utf8 "a", 0, 1⟩, ⟨1, utf8 ".//b", 1, 2⟩]
  dataStart := 29

/-- Slashes and dots in a name are left out of the path of its file. -/
theorem entries_get_own_files_distinct_elements :
    ∃ after bytes,
      (extract (utf8 "distinct") { outputDirectory := utf8 "out" }).runOn distinctAndShared = (.ok (), after) ∧
      after.store.node? [utf8 "work", utf8 "out", utf8 "b"] = some (.file (.ofBytes bytes)) ∧
      bytes.length = 2 ∧
      after.store.node? [utf8 "work", utf8 "out", utf8 "c"] = none := by
  have works : ((extract (utf8 "distinct") { outputDirectory := utf8 "out" }).runOn
      distinctAndShared).1.toOption.isSome = true := by
    decide +kernel
  have found : distinctAndShared.store.find (utf8 "distinct") =
      .ok ([utf8 "work", utf8 "distinct"], .file (.ofBytes (containerOf distinctElements))) := by
    rfl
  have reads : Directory.read (containerOf distinctElements) = .ok distinctElementsDirectory :=
    Result.eq_ok_of_toOption (by decide +kernel)
  have small : (Contents.ofBytes (containerOf distinctElements)).size < 0x8000000000000000 := by
    decide +kernel
  have distinct : (distinctElementsDirectory.entries.map fun entry => Path.proper entry.name).Nodup := by
    decide +kernel
  have proper : Path.proper (utf8 ".//b") = [utf8 "b"] := by
    decide +kernel
  have others : ∀ entry ∈ distinctElementsDirectory.entries, [utf8 "c"] ≠ Path.proper entry.name := by
    decide +kernel
  obtain ⟨_, after, extracted⟩ := Action.exists_ok works
  obtain ⟨opened, archive, contents, container, accepted, source, held, own⟩ :=
    entries_get_own_files.2 (utf8 "distinct") { outputDirectory := utf8 "out" }
      [utf8 "work", utf8 "out"] distinctAndShared after
      (by
        intro location contents there
        rw [found] at there
        cases there
        exact small)
      (fun reached => nomatch reached.1) distinctAndShared_emptyTarget extracted
  have directory : archive.directory = distinctElementsDirectory := by
    obtain ⟨_, _, open_⟩ := openAt_eq_ok _ _ _ _ accepted
    have same := open_.found.symm.trans found
    cases same
    have read := open_.read
    rw [Contents.toBytes_ofBytes, reads] at read
    exact (Except.ok.inj read).symm
  rw [directory] at own
  obtain ⟨files, nothing⟩ := own distinct
  obtain ⟨_, bytes, file, _, length⟩ := files ⟨1, utf8 ".//b", 1, 2⟩ (by simp [distinctElementsDirectory])
  rw [proper] at file
  exact ⟨after, bytes, extracted, file, length, nothing [utf8 "c"] (by simp) others⟩

def sharedElementsDirectory : Directory where
  header := .standard
  entries := [⟨0, utf8 "a", 0, 1⟩, ⟨1, utf8 "./a", 1, 1⟩]
  dataStart := 28

def stayingDirectory : Directory where
  header := .standard
  entries := [⟨0, utf8 ".", 0, 0⟩]
  dataStart := 22

/-- Different names are not enough: two of them may go to one file, where the first member is lost, and one
may lead to the output directory itself. -/
theorem distinct_names_share_destination :
    ∃ list after,
      (sharedElementsDirectory.entries.map Entry.name).Nodup ∧
      tasks sharedElementsDirectory (utf8 "out") .byName = .ok list ∧
      ¬ (list.map Task.destination).Nodup ∧
      Directory.read (containerOf sharedElements) = .ok sharedElementsDirectory ∧
      EmptyTarget (utf8 "out") [utf8 "work", utf8 "out"] distinctAndShared ∧
      (extract (utf8 "shared") { outputDirectory := utf8 "out" }).runOn distinctAndShared = (.ok (), after) ∧
      after.store.readWhole (utf8 "out/a") = .ok (utf8 "y") ∧
      after.store.nodes.length = distinctAndShared.store.nodes.length + 1 ∧
      ∃ task, tasks stayingDirectory (utf8 "out") .byName = .ok [task] ∧
        task.destination = Path.clean (utf8 "out") := by
  have works : ((extract (utf8 "shared") { outputDirectory := utf8 "out" }).runOn
      distinctAndShared).1.toOption.isSome = true := by
    decide +kernel
  have whole : ((extract (utf8 "shared") { outputDirectory := utf8 "out" }).runOn
      distinctAndShared).2.store.readWhole (utf8 "out/a") = .ok (utf8 "y") :=
    Result.eq_ok_of_toOption (by decide +kernel)
  have count : ((extract (utf8 "shared") { outputDirectory := utf8 "out" }).runOn
      distinctAndShared).2.store.nodes.length = distinctAndShared.store.nodes.length + 1 := by
    decide +kernel
  have shared : ¬ ((sharedElementsDirectory.entries.map
      (taskOf sharedElementsDirectory (utf8 "out") .byName)).map Task.destination).Nodup := by
    decide +kernel
  have idle : (taskOf stayingDirectory (utf8 "out") .byName ⟨0, utf8 ".", 0, 0⟩).destination =
      Path.clean (utf8 "out") := by
    decide +kernel
  obtain ⟨_, after, extracted⟩ := Action.exists_ok works
  rw [extracted] at whole count
  refine ⟨_, after, by decide +kernel, (tasks_eq_ok _ _ _ _).mpr ⟨?_, rfl⟩, shared,
    Result.eq_ok_of_toOption (by decide +kernel), distinctAndShared_emptyTarget, extracted, whole, count, _,
    (tasks_eq_ok _ _ _ _).mpr ⟨?_, rfl⟩, idle⟩
  · simp only [sharedElementsDirectory, List.forall_mem_cons]
    exact ⟨rfl, rfl, nofun⟩
  · simp only [stayingDirectory, List.forall_mem_cons]
    exact ⟨rfl, nofun⟩

end IgaArchive.Archive

import IgaArchive.Proofs.Archive.Destinations
import IgaArchive.Proofs.Archive.Extraction
import IgaArchive.Proofs.Archive.Opening

/-!
Extraction as a whole. Every archive that is accepted is decoded entry by entry, also one that was laid
out by others, with payloads that overlap, leave gaps or repeat names.
-/

namespace IgaArchive.Archive

/-- Bytes that are the payload of an entry, decoded byte by byte from the container. -/
structure Decodes (container : Bytes) (directory : Directory) (policy : KeyPolicy) (entry : Entry)
    (bytes : Bytes) : Prop where
  length : bytes.length = entry.size.toNat
  byte : ∀ i < entry.size.toNat, ∃ (position : Nat) (b : UInt8),
    (position : Int) = directory.dataStart.toInt + entry.offset.toNat + i ∧
      container[position]? = some b ∧
      bytes[i]? = some (b ^^^ (i + 2).toUInt8 ^^^ Payload.key entry.name policy)

/-- A directory whose payloads all lie within a container of the given length. -/
def Within (directory : Directory) (length : Nat) : Prop :=
  ∃ start : Nat, directory.dataStart.toInt = start ∧ ∀ entry ∈ directory.entries,
    (directory.start entry).toNatClampNeg = start + entry.offset.toNat ∧
      start + entry.offset.toNat + entry.size.toNat ≤ length

section OpenedFrom

variable {path : Bytes} {wrapped : Bool} {before after : Workspace} {archive : Archive}
variable {location : Location} {contents : Contents} {container : Bytes}
variable (opened : OpenedFrom path wrapped before after archive location contents container)
variable (short : contents.size < 0x4000000000000000)
include opened short

theorem OpenedFrom.fits : ∃ start : Nat, archive.directory.dataStart.toInt = start ∧
    ∀ entry ∈ archive.directory.entries,
      (archive.directory.start entry).toInt = start + entry.offset.toNat ∧
        start + entry.offset.toNat + entry.size.toNat ≤ container.length := by
  have near := containerIn_length wrapped _ container opened.held
    (by rw [Contents.length_toBytes]; exact short)
  obtain ⟨start, within, begins⟩ := Directory.read_dataStart _ _ opened.read
  refine ⟨start, ?_, ?_⟩
  · rw [begins, Int64.toInt_ofNat_of_lt (by omega)]
  · exact Directory.fits_of_resolve archive.directory start container.length begins (by omega) (by omega)
      opened.resolved

theorem OpenedFrom.within : Within archive.directory container.length := by
  obtain ⟨start, begins, entries⟩ := opened.fits short
  refine ⟨start, begins, ?_⟩
  intro entry member
  obtain ⟨position, fit⟩ := entries entry member
  refine ⟨?_, fit⟩
  rw [Int64.toNatClampNeg, position]
  omega

theorem OpenedFrom.start_eq (entry : Entry) (member : entry ∈ archive.directory.entries) :
    (archive.directory.start entry).toInt =
      archive.directory.dataStart.toInt + entry.offset.toNat := by
  obtain ⟨start, begins, entries⟩ := opened.fits short
  rw [begins]
  exact (entries entry member).1

end OpenedFrom

theorem within_of_opened (path : Bytes) (before after : Workspace) (archive : Archive)
    (location : Location) (contents : Contents)
    (opened : Opened path before after archive location contents)
    (short : contents.size < 0x4000000000000000) : Within archive.directory contents.size := by
  rw [← Contents.length_toBytes]
  exact opened.openedFrom.within short

theorem plaintext_decodes (container : Bytes) (directory : Directory) (policy : KeyPolicy)
    (entry : Entry) (within : Within directory container.length)
    (member : entry ∈ directory.entries) :
    Decodes container directory policy entry
      (plaintext container directory (Payload.key entry.name policy) entry) := by
  obtain ⟨start, begins, entries⟩ := within
  obtain ⟨position, fits⟩ := entries entry member
  have zero : (0 : Int64) = Int64.ofNat 0 := rfl
  refine ⟨plaintext_length container directory _ entry (by omega), ?_⟩
  intro i inside
  have bound : start + entry.offset.toNat + i < container.length := by omega
  refine ⟨start + entry.offset.toNat + i, container[start + entry.offset.toNat + i], ?_, ?_, ?_⟩
  · rw [begins]
    omega
  · exact List.getElem?_eq_getElem bound
  · rw [plaintext, ciphertext, position, zero, Payload.transform_ofNat, List.getElem?_mapIdx,
      List.getElem?_take, if_pos inside, List.getElem?_drop, List.getElem?_eq_getElem bound]
    simp [UInt8.xor_assoc]

section OpenedFrom

variable {path : Bytes} {wrapped : Bool} {before after : Workspace} {archive : Archive}
variable {location : Location} {contents : Contents} {container : Bytes}
variable (opened : OpenedFrom path wrapped before after archive location contents container)
include opened

theorem OpenedFrom.readsFrom {source : Location} (reads : archive.ReadsFrom source) :
    source = location := by
  have place := opened.place.symm.trans reads
  cases wrapped with
  | false => exact (Container.inFile.inj place).symm
  | true => cases place

theorem OpenedFrom.supplies (unread : ¬ before.log.Reaches before.store location) :
    archive.Supplies container after.store := by
  have present := (Store.find_eq_ok _ _ _ _ opened.found).2.2.2
  have held := opened.held
  cases wrapped with
  | false =>
      cases held
      simp only [Supplies, opened.place, Bool.false_eq_true, if_false]
      rw [opened.changes.outside location unread, present, Contents.ofBytes_toBytes]
  | true => simp only [Supplies, opened.place, if_true]

theorem OpenedFrom.poised {outputDirectory : Bytes} {policy : KeyPolicy} {list : List Task}
    (short : contents.size < 0x4000000000000000)
    (listed : tasks archive.directory outputDirectory policy = .ok list)
    (apart : ∀ task ∈ list, before.store.place task.destination ≠ location)
    (unread : ¬ before.log.Reaches before.store location)
    (quiet : ∀ task ∈ list, ¬ before.log.Reaches before.store (before.store.place task.destination)) :
    Poised archive container list after := by
  obtain ⟨start, _, fits⟩ := opened.within short
  obtain ⟨_, rfl⟩ := (tasks_eq_ok _ _ _ _).mp listed
  refine ⟨opened.supplies unread, ?_, ?_, ?_, ?_⟩
  · intro task member
    obtain ⟨entry, inside, rfl⟩ := List.mem_map.mp member
    obtain ⟨position, fit⟩ := fits entry inside
    rw [taskOf, position]
    exact fit
  · intro task member reads
    rw [opened.changes.place_eq] at reads
    exact apart task member (opened.readsFrom reads)
  · intro source reads reached
    rw [opened.readsFrom reads] at reached
    exact unread (opened.reach location reached)
  · intro task member
    exact Log.quiet_again opened.changes opened.reach _ (quiet task member)

end OpenedFrom

theorem ready_of_opened (path : Bytes) (before after : Workspace) (archive : Archive)
    (location : Location) (contents : Contents) (outputDirectory : Bytes) (policy : KeyPolicy)
    (list : List Task) (opened : Opened path before after archive location contents)
    (short : contents.size < 0x4000000000000000)
    (listed : tasks archive.directory outputDirectory policy = .ok list)
    (apart : ∀ task ∈ list, before.store.place task.destination ≠ location)
    (unread : ¬ before.log.Reaches before.store location)
    (quiet : ∀ task ∈ list, ¬ before.log.Reaches before.store (before.store.place task.destination)) :
    Ready archive location contents.toBytes list after :=
  ⟨opened.openedFrom.poised short listed apart unread quiet, opened.container⟩

theorem Poised.onlyMakes {archive : Archive} {container : Bytes} {list : List Task}
    {before after : Workspace} {may : Location → Prop}
    (poised : Poised archive container list before)
    (makes : Store.OnlyMakes may before.store after.store) (sameLog : after.log = before.log) :
    Poised archive container list after := by
  have reach : ∀ location, after.log.Reaches after.store location ↔
      before.log.Reaches before.store location := by
    intro location
    rw [sameLog, Log.reaches_congr makes.changesOnly]
  refine ⟨?_, poised.inRange, ?_, ?_, ?_⟩
  · have supplies := poised.supplies
    unfold Supplies at *
    cases place : archive.container with
    | inFile source =>
        rw [place] at supplies
        exact makes.of_present source _ supplies
    | inMemory contents =>
        rw [place] at supplies
        exact supplies
  · intro task member
    rw [makes.changesOnly.place_eq]
    exact poised.apart task member
  · intro source reads
    rw [reach]
    exact poised.unread source reads
  · intro task member
    rw [reach, makes.changesOnly.place_eq]
    exact poised.quiet task member

theorem Ready.onlyMakes {archive : Archive} {source : Location} {container : Bytes}
    {list : List Task} {before after : Workspace} {may : Location → Prop}
    (ready : Ready archive source container list before)
    (makes : Store.OnlyMakes may before.store after.store) (sameLog : after.log = before.log) :
    Ready archive source container list after :=
  ⟨ready.toPoised.onlyMakes makes sameLog, ready.inFile⟩

theorem Poised.track {archive : Archive} {container : Bytes} {list : List Task}
    {workspace : Workspace} (poised : Poised archive container list workspace)
    (change : Tracker → Tracker) : Poised archive container list (workspace.track change) :=
  ⟨poised.supplies, poised.inRange, poised.apart, poised.unread, poised.quiet⟩

def makeOutput (options : ExtractOptions) : Action Unit :=
  if options.makeDirectory && !options.outputDirectory.isEmpty then
    Action.during .createOutputDirectory (Action.mkdirAll options.outputDirectory)
  else pure ()

theorem extract_eq (path : Bytes) (options : ExtractOptions) :
    extract path options = (do
      Action.ofExcept (Payload.checkBuffer (Payload.chosenBuffer options.buffer))
      let archive ← openAt path options.lz4
      let list ← Action.ofExcept
        ((tasks archive.directory options.outputDirectory options.policy).mapError .entryName)
      makeOutput options
      Action.tracked archive.directory.payloadSize
        (archive.extractTasks (Payload.chosenBuffer options.buffer) list)) := by
  simp only [extract, makeOutput]
  congr 1
  funext _
  congr 1
  funext archive
  congr 1
  funext list
  split <;> rfl

/-- The locations that may become directories when the output directory is made. -/
def ExtractOptions.Makes (options : ExtractOptions) (store : Store) (location : Location) : Prop :=
  options.makeDirectory = true ∧ location ∈ store.trail options.outputDirectory

theorem makeOutput_spec (options : ExtractOptions) (before after : Workspace)
    (outcome : Except Failure Unit) (made : (makeOutput options).runOn before = (outcome, after)) :
    Store.OnlyMakes (options.Makes before.store) before.store after.store ∧ after.log = before.log := by
  rw [makeOutput] at made
  split at made
  · rename_i asked
    have makes := Store.mkdirAll_onlyMakes before.store options.outputDirectory
    have wanted : options.makeDirectory = true := by
      simp only [Bool.and_eq_true] at asked
      exact asked.1
    rw [Action.during_run, Action.mkdirAll_run] at made
    cases made
    exact ⟨makes.mono fun _ inside => ⟨wanted, inside⟩, rfl⟩
  · cases made
    exact ⟨Store.OnlyMakes.refl _ _, rfl⟩

theorem makeOutput_agree (options : ExtractOptions) {left right : Workspace}
    (alike : Action.Alike left right) :
    Action.Agree ((makeOutput options).runOn left) ((makeOutput options).runOn right) := by
  rw [makeOutput]
  split
  · exact (Action.Agree.mkdirAll alike _).during _
  · exact ⟨rfl, alike.1, alike.2⟩

theorem openAt_agree (path : Bytes) {left right : Workspace} (alike : Action.Alike left right) :
    Action.Agree ((openAt path false).runOn left) ((openAt path false).runOn right) := by
  rw [openAt]
  refine Action.Agree.bind ((Action.Agree.ask alike _).during _) ?_
  rintro ⟨location, node⟩ leftOpened rightOpened _ alikeOpened
  refine Action.Agree.bind (Action.Agree.ofExcept alikeOpened _) ?_
  intro bytes leftRead rightRead _ alikeRead
  rw [ofContainer]
  refine Action.Agree.bind (Action.Agree.ofExcept alikeRead _) ?_
  intro directory leftDirectory rightDirectory _ alikeDirectory
  refine Action.Agree.bind (Action.Agree.detail alikeDirectory _) ?_
  intro _ leftNoted rightNoted _ alikeNoted
  refine Action.Agree.bind (Action.Agree.ofExcept alikeNoted _) ?_
  intro _ leftLast rightLast _ alikeLast
  exact ⟨rfl, alikeLast.1, alikeLast.2⟩

theorem extractTasks_agree (archive : Archive) (container : Bytes) (list : List Task)
    (buffer other : Int) (left right : Workspace) (positive : 0 < buffer)
    (otherPositive : 0 < other) (alike : Action.Alike left right)
    (poised : Poised archive container list left) :
    Action.Agree ((archive.extractTasks buffer list).runOn left)
      ((archive.extractTasks other list).runOn right) := by
  have samePoised : Poised archive container list right := by
    obtain ⟨supplies, inRange, apart, unread, quiet⟩ := poised
    rw [alike.1, alike.2] at unread quiet
    rw [alike.1] at supplies apart
    exact ⟨supplies, inRange, apart, unread, quiet⟩
  obtain ⟨_, run, _⟩ := extractTasks_run archive container list buffer left positive poised
  obtain ⟨_, otherRun, _⟩ :=
    extractTasks_run archive container list other right otherPositive samePoised
  rw [run, otherRun, alike.1, alike.2]
  exact ⟨rfl, rfl, rfl⟩

theorem extract_of_opened (path : Bytes) (options : ExtractOptions) (before opened : Workspace)
    (archive : Archive) (valid : Payload.ValidBuffer (Payload.chosenBuffer options.buffer))
    (accepted : (openAt path options.lz4).runOn before = (.ok archive, opened)) :
    (extract path options).runOn before =
      (Action.ofExcept ((tasks archive.directory options.outputDirectory
          options.policy).mapError .entryName) >>= fun list =>
        makeOutput options >>= fun _ =>
          Action.tracked archive.directory.payloadSize
            (archive.extractTasks (Payload.chosenBuffer options.buffer) list)).runOn opened := by
  rw [extract_eq, Action.bind_of_ok _ _ _ _ _ (Action.checkBuffer_run valid before),
    Action.bind_of_ok _ _ _ _ _ accepted]

theorem extract_opens (path : Bytes) (options : ExtractOptions) (before after : Workspace)
    (extracted : (extract path options).runOn before = (.ok (), after)) :
    Payload.ValidBuffer (Payload.chosenBuffer options.buffer) ∧
      ∃ archive opened list, (openAt path options.lz4).runOn before = (.ok archive, opened) ∧
        tasks archive.directory options.outputDirectory options.policy = .ok list := by
  rw [extract_eq] at extracted
  obtain ⟨_, _, checking, afterCheck⟩ := Action.bind_eq_ok extracted
  obtain ⟨checked, rfl⟩ := Action.ofExcept_eq_ok.mp checking
  obtain ⟨archive, opened, accepted, afterOpen⟩ := Action.bind_eq_ok afterCheck
  obtain ⟨list, _, listing, _⟩ := Action.bind_eq_ok afterOpen
  obtain ⟨listed, _⟩ := Action.ofExcept_eq_ok.mp listing
  exact ⟨Payload.checkBuffer_eq_ok.mp checked, archive, opened, list, accepted,
    Result.mapError_eq_ok.mp listed⟩

theorem extract_finished (path : Bytes) (options : ExtractOptions) (before opened after : Workspace)
    (archive : Archive) (container : Bytes)
    (accepted : (openAt path options.lz4).runOn before = (.ok archive, opened))
    (poised : ∀ list, tasks archive.directory options.outputDirectory options.policy = .ok list →
      Poised archive container list opened)
    (extracted : (extract path options).runOn before = (.ok (), after)) :
    ∃ list made, tasks archive.directory options.outputDirectory options.policy = .ok list ∧
      Store.OnlyMakes (options.Makes opened.store) opened.store made ∧
      extractions container archive.directory list made opened.log =
        (.ok (), after.store, after.log) := by
  have valid := (extract_opens path options before after extracted).1
  rw [extract_of_opened path options before opened archive valid accepted] at extracted
  obtain ⟨list, _, listing, afterList⟩ := Action.bind_eq_ok extracted
  obtain ⟨listed, rfl⟩ := Action.ofExcept_eq_ok.mp listing
  rw [Result.mapError_eq_ok] at listed
  obtain ⟨_, between, making, tracking⟩ := Action.bind_eq_ok afterList
  obtain ⟨makes, sameLog⟩ := makeOutput_spec options opened between _ making
  obtain ⟨ended, moved, rfl⟩ := Action.tracked_eq_ok tracking
  obtain ⟨_, run, _⟩ := extractTasks_run archive container list _ _ valid.1
    (((poised list listed).onlyMakes makes sameLog).track
      fun tracker => tracker.init archive.directory.payloadSize)
  rw [run] at moved
  obtain ⟨outcome, same⟩ := Prod.mk.inj moved
  subst same
  refine ⟨list, between.store, listed, makes, ?_⟩
  rw [← sameLog]
  exact Prod.ext outcome (Prod.ext rfl rfl)

theorem extract_eq_ok (path : Bytes) (options : ExtractOptions) (before opened after : Workspace)
    (archive : Archive) (source : Location) (container : Bytes) (plain : options.lz4 = false)
    (accepted : (openAt path false).runOn before = (.ok archive, opened))
    (ready : ∀ list, tasks archive.directory options.outputDirectory options.policy = .ok list →
      Ready archive source container list opened)
    (extracted : (extract path options).runOn before = (.ok (), after)) :
    ∃ list made, tasks archive.directory options.outputDirectory options.policy = .ok list ∧
      Store.OnlyMakes (options.Makes opened.store) opened.store made ∧
      extractions container archive.directory list made opened.log =
        (.ok (), after.store, after.log) := by
  rw [← plain] at accepted
  exact extract_finished path options before opened after archive container accepted
    (fun list listed => (ready list listed).toPoised) extracted

/-- What an extraction does to the files and whether it succeeds depend neither on the buffer nor on the
tracker. -/
theorem extract_agree (path : Bytes) (options : ExtractOptions) (before opened : Workspace)
    (archive : Archive) (source : Location) (container : Bytes) (plain : options.lz4 = false)
    (accepted : (openAt path false).runOn before = (.ok archive, opened))
    (ready : ∀ list, tasks archive.directory options.outputDirectory options.policy = .ok list →
      Ready archive source container list opened)
    (buffer : Int) (tracker : Option Tracker)
    (valid : Payload.ValidBuffer (Payload.chosenBuffer options.buffer))
    (otherValid : Payload.ValidBuffer (Payload.chosenBuffer buffer)) :
    Action.Agree ((extract path options).runOn before)
      ((extract path { options with buffer }).runOn { before with tracker }) := by
  have alike : Action.Alike before { before with tracker } := ⟨rfl, rfl⟩
  have opening := openAt_agree path alike
  cases otherAccepted : (openAt path false).runOn { before with tracker } with
  | mk result other =>
      rw [accepted, otherAccepted] at opening
      obtain ⟨same, store, log⟩ := opening
      simp only at same store log
      subst same
      rw [← plain] at accepted otherAccepted
      rw [extract_of_opened path options before opened archive valid accepted,
        extract_of_opened path { options with buffer } _ other archive otherValid otherAccepted]
      refine Action.Agree.bind (Action.Agree.ofExcept ⟨store, log⟩ _) ?_
      intro list between others listing alikeListed
      obtain ⟨listed, rfl⟩ := Action.ofExcept_eq_ok.mp listing
      rw [Result.mapError_eq_ok] at listed
      refine Action.Agree.bind (makeOutput_agree options alikeListed) ?_
      intro _ made otherMade making alikeMade
      obtain ⟨makes, sameLog⟩ := makeOutput_spec options opened made _ making
      refine Action.Agree.tracked _ (extractTasks_agree archive container list _ _ _ _ valid.1
        otherValid.1 (alikeMade.track _ _) ?_)
      exact ((ready list listed).toPoised.onlyMakes makes sameLog).track _

theorem destination_eq_of_place_eq (directory : Directory) (outputDirectory : Bytes)
    (policy : KeyPolicy) (list : List Task)
    (listed : tasks directory outputDirectory policy = .ok list) (store : Store)
    (first second : Task) (firstIn : first ∈ list) (secondIn : second ∈ list)
    (same : store.place first.destination = store.place second.destination) :
    first.destination = second.destination := by
  obtain ⟨accepted, rfl⟩ := (tasks_eq_ok _ _ _ _).mp listed
  obtain ⟨entry, inside, rfl⟩ := List.mem_map.mp firstIn
  obtain ⟨other, otherInside, rfl⟩ := List.mem_map.mp secondIn
  exact Store.join_eq_of_place_eq store _ _ _ (baseOf_ne_nil _)
    (EntryName.check_eq_ok _ (accepted entry inside)).2
    (EntryName.check_eq_ok _ (accepted other otherInside)).2 same

theorem Holds.decodes {container : Bytes} {directory : Directory} {outputDirectory : Bytes}
    {policy : KeyPolicy} {list : List Task} {task : Task} {place : Location} {store : Store}
    (holds : Holds container directory task place store)
    (within : Within directory container.length)
    (listed : tasks directory outputDirectory policy = .ok list) (member : task ∈ list) :
    ∃ node, store.find task.destination = .ok (place, node) ∧
      ((∃ bytes, node = .file (.ofBytes bytes) ∧
          Decodes container directory policy task.entry bytes) ∨
        node = .fullDevice ∧ task.entry.size = 0) := by
  obtain ⟨_, rfl⟩ := (tasks_eq_ok _ _ _ _).mp listed
  obtain ⟨entry, inside, rfl⟩ := List.mem_map.mp member
  have decodes := plaintext_decodes container directory policy entry within inside
  obtain ⟨node, found, file | ⟨device, nothing⟩⟩ := holds
  · exact ⟨node, found, Or.inl ⟨_, file, decodes⟩⟩
  · refine ⟨node, found, Or.inr ⟨device, ?_⟩⟩
    have length := decodes.length
    simp only [taskOf] at nothing
    rw [nothing] at length
    exact UInt32.toNat_inj.mp length.symm

theorem extractions_hold (container : Bytes) (directory : Directory) (outputDirectory : Bytes)
    (policy : KeyPolicy) (list : List Task) (store after : Store) (log later : Log)
    (listed : tasks directory outputDirectory policy = .ok list)
    (quiet : ∀ task ∈ list, ¬ log.Reaches store (store.place task.destination))
    (ran : extractions container directory list store log = (.ok (), after, later))
    (front : List Task) (task : Task) (back : List Task) (shape : list = front ++ task :: back)
    (last : ∀ other ∈ back, other.destination ≠ task.destination) :
    Holds container directory task (store.place task.destination) after := by
  have inside : ∀ other ∈ task :: back, other ∈ list :=
    fun other member => shape ▸ List.mem_append_right front member
  obtain ⟨_, holds⟩ := extractions_spec container directory list store after log later _ quiet ran
  apply holds rfl front task back shape
  intro other member same
  apply last other member
  exact destination_eq_of_place_eq _ _ _ list listed store other task
    (inside other (List.mem_cons_of_mem _ member)) (inside task (by simp)) same

theorem extractions_decode (container : Bytes) (directory : Directory) (outputDirectory : Bytes)
    (policy : KeyPolicy) (list : List Task) (store after : Store) (log later : Log)
    (within : Within directory container.length)
    (listed : tasks directory outputDirectory policy = .ok list)
    (quiet : ∀ task ∈ list, ¬ log.Reaches store (store.place task.destination))
    (ran : extractions container directory list store log = (.ok (), after, later))
    (front : List Task) (task : Task) (back : List Task) (shape : list = front ++ task :: back)
    (last : ∀ other ∈ back, other.destination ≠ task.destination) :
    ∃ node, after.find task.destination = .ok (store.place task.destination, node) ∧
      ((∃ bytes, node = .file (.ofBytes bytes) ∧
          Decodes container directory policy task.entry bytes) ∨
        node = .fullDevice ∧ task.entry.size = 0) := by
  have held := extractions_hold container directory outputDirectory policy list store after log later
    listed quiet ran front task back shape last
  exact held.decodes within listed (by simp [shape])

/-- Every accepted archive is decoded. After a successful extraction each destination holds the decoded
payload of the last entry that goes there, and nothing else has changed but what the log keeps and the
directories made on request. Buffers and trackers make no difference to any extraction. -/
theorem extract_decodes_accepted (path : Bytes) (options : ExtractOptions)
    (before opened : Workspace) (archive : Archive) (location : Location) (container : Contents)
    (plain : options.lz4 = false)
    (accepted : (openAt path false).runOn before = (.ok archive, opened))
    (found : before.store.find path = .ok (location, .file container))
    (short : container.size < 0x4000000000000000)
    (apart : ∀ list, tasks archive.directory options.outputDirectory options.policy = .ok list →
      ∀ task ∈ list, before.store.place task.destination ≠ location)
    (unread : ¬ before.log.Reaches before.store location)
    (quiet : ∀ list, tasks archive.directory options.outputDirectory options.policy = .ok list →
      ∀ task ∈ list, ¬ before.log.Reaches before.store (before.store.place task.destination)) :
    (∀ after, (extract path options).runOn before = (.ok (), after) →
      ∃ list, tasks archive.directory options.outputDirectory options.policy = .ok list ∧
        list.map Task.entry = archive.directory.entries ∧
        (∀ front task back, list = front ++ task :: back →
          (∀ other ∈ back, other.destination ≠ task.destination) →
          ∃ node,
            after.store.find task.destination =
              .ok (before.store.place task.destination, node) ∧
            ((∃ bytes, node = .file (.ofBytes bytes) ∧ Decodes container.toBytes archive.directory
                options.policy task.entry bytes) ∨
              node = .fullDevice ∧ task.entry.size = 0)) ∧
        ∀ other, (∀ task ∈ list, other ≠ before.store.place task.destination) →
          ¬ before.log.Reaches before.store other →
          after.store.node? other = before.store.node? other ∨
            options.Makes before.store other ∧ before.store.node? other = none ∧
              after.store.node? other = some .directory) ∧
    (∀ (buffer : Int) (tracker : Option Tracker),
      Payload.ValidBuffer (Payload.chosenBuffer options.buffer) →
      Payload.ValidBuffer (Payload.chosenBuffer buffer) →
      Action.Agree ((extract path options).runOn before)
        ((extract path { options with buffer }).runOn { before with tracker })) := by
  obtain ⟨place, contents, open_⟩ := openAt_eq_ok path archive before opened accepted
  have sameFile := open_.found.symm.trans found
  cases sameFile
  have ready : ∀ list,
      tasks archive.directory options.outputDirectory options.policy = .ok list →
      Ready archive location container.toBytes list opened := by
    intro list listed
    exact ready_of_opened path before opened archive location container _ _ list open_ short listed
      (apart list listed) unread (quiet list listed)
  constructor
  · intro after extracted
    obtain ⟨list, made, listed, makes, ran⟩ := extract_eq_ok path options before opened after archive
      location container.toBytes plain accepted ready extracted
    have prepared : Ready archive location container.toBytes list { opened with store := made } :=
      (ready list listed).onlyMakes makes rfl
    have places : ∀ path, made.place path = before.store.place path :=
      fun path => (makes.changesOnly.place_eq path).trans (open_.changes.place_eq path)
    have within := within_of_opened path before opened archive location container open_ short
    refine ⟨list, listed, ?_, ?_, ?_⟩
    · rw [← ((tasks_eq_ok _ _ _ _).mp listed).2, List.map_map]
      exact List.map_id _
    · intro front task back shape last
      rw [← places]
      exact extractions_decode _ _ _ _ list made after.store opened.log after.log
        (by rwa [Contents.length_toBytes]) listed prepared.quiet ran front task back shape last
    · intro other away unlogged
      have kept : after.store.node? other = made.node? other := by
        apply (extractions_spec _ _ list made after.store opened.log after.log _ prepared.quiet
          ran).1.outside
        rintro (⟨task, member, here⟩ | reached)
        · exact away task member (here.trans (places _))
        · rw [Log.reaches_congr makes.changesOnly] at reached
          exact unlogged (open_.reach other reached)
      have untouched := open_.changes.outside other unlogged
      rw [kept, ← untouched]
      rcases makes.nodes other with same | ⟨absent, present, wanted, passed⟩
      · exact Or.inl same
      · rw [open_.changes.trail_eq] at passed
        exact Or.inr ⟨⟨wanted, passed⟩, absent, present⟩
  · exact extract_agree path options before opened archive location container.toBytes plain accepted
      ready

/-- A directory of others: payloads overlap and are out of order, and a name is repeated. -/
def overlapping : Directory where
  header := .standard
  entries := [⟨0, utf8 "a", 2, 1⟩, ⟨1, utf8 "b.s", 1, 2⟩, ⟨4, utf8 "a", 0, 3⟩]
  dataStart := 32

def overlappingContainer : Bytes :=
  [0x49, 0x47, 0x41, 0x30, 0, 0, 0, 0, 2, 0, 0, 0, 2, 0, 0, 0, 19, 1, 5, 3, 3, 3, 5, 9, 1, 7, 11, 195,
    197, 93, 231, 195, 10, 20, 30]

def overlappingFile : Workspace where
  store := Store.initial.put [utf8 "work", utf8 "foreign"] (.file (.ofBytes overlappingContainer))
  tracker := some { enabled := true, clock := .still 0 }

def deepOutput : ExtractOptions where
  outputDirectory := utf8 "out/deep"
  makeDirectory := true

/-- The repeated name gets the three bytes of its last entry. -/
theorem extract_decodes_accepted_overlapping :
    ∃ after bytes, (extract (utf8 "foreign") deepOutput).runOn overlappingFile = (.ok (), after) ∧
      after.store.find (utf8 "out/deep/a") =
        .ok ([utf8 "work", utf8 "out", utf8 "deep", utf8 "a"], .file (.ofBytes bytes)) ∧
      Decodes overlappingContainer overlapping .byName ⟨4, utf8 "a", 0, 3⟩ bytes := by
  have opens : ((openAt (utf8 "foreign") false).runOn overlappingFile).1.toOption.isSome = true := by
    decide +kernel
  have works : ((extract (utf8 "foreign") deepOutput).runOn overlappingFile).1.toOption.isSome = true := by
    decide +kernel
  have reads : (Directory.read overlappingContainer).toOption = some overlapping := by decide +kernel
  have found : overlappingFile.store.find (utf8 "foreign") =
      .ok ([utf8 "work", utf8 "foreign"], .file (.ofBytes overlappingContainer)) := by
    rfl
  obtain ⟨archive, opened, accepted⟩ := Action.exists_ok opens
  obtain ⟨_, after, extracted⟩ := Action.exists_ok works
  have directory : archive.directory = overlapping := by
    obtain ⟨_, _, open_⟩ := openAt_eq_ok _ _ _ _ accepted
    have same := open_.found.symm.trans found
    cases same
    have read := open_.read
    rw [Contents.toBytes_ofBytes] at read
    rw [read] at reads
    exact Option.some.inj reads
  have apart : ∀ task ∈ overlapping.entries.map (taskOf overlapping deepOutput.outputDirectory .byName),
      overlappingFile.store.place task.destination ≠ [utf8 "work", utf8 "foreign"] := by
    decide +kernel
  obtain ⟨list, listed, _, holds, _⟩ := (extract_decodes_accepted (utf8 "foreign") deepOutput overlappingFile
    opened archive _ _ rfl accepted found (by decide +kernel)
    (by
      intro list listed
      obtain ⟨_, rfl⟩ := (tasks_eq_ok _ _ _ _).mp listed
      rw [directory]
      exact apart)
    (fun reached => nomatch reached.1) (fun _ _ _ _ reached => nomatch reached.1)).1 after extracted
  obtain ⟨_, rfl⟩ := (tasks_eq_ok _ _ _ _).mp listed
  rw [directory] at holds
  obtain ⟨node, there, file | ⟨_, nothing⟩⟩ := holds
    [taskOf overlapping deepOutput.outputDirectory .byName ⟨0, utf8 "a", 2, 1⟩,
      taskOf overlapping deepOutput.outputDirectory .byName ⟨1, utf8 "b.s", 1, 2⟩]
    (taskOf overlapping deepOutput.outputDirectory .byName ⟨4, utf8 "a", 0, 3⟩) [] rfl nofun
  · obtain ⟨bytes, rfl, decodes⟩ := file
    have destination : (taskOf overlapping deepOutput.outputDirectory .byName
        ⟨4, utf8 "a", 0, 3⟩).destination = utf8 "out/deep/a" := by
      decide +kernel
    have place : overlappingFile.store.place (utf8 "out/deep/a") =
        [utf8 "work", utf8 "out", utf8 "deep", utf8 "a"] := by
      decide +kernel
    rw [destination, place] at there
    rw [Contents.toBytes_ofBytes] at decodes
    exact ⟨after, bytes, extracted, there, decodes⟩
  · exact absurd nothing (by decide)

end IgaArchive.Archive

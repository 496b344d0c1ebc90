import IgaArchive.Proofs.Archive.Creation
import IgaArchive.Proofs.Archive.Decoding
import IgaArchive.Proofs.Archive.Members

/-!
Round trip. What was put into an archive comes out of it: extraction into an empty directory succeeds
just when every name may be extracted and no destination is too long, and then leaves one file for each
name, with the contents of the last input of that name.
-/

namespace IgaArchive.Archive

theorem nameable_of_memberAt? (store : Store) (path : Bytes) (member : Member)
    (found : memberAt? store path = some member)
    (accepted : EntryName.check member.name = .ok ()) : Store.Nameable member.name := by
  obtain ⟨named, present⟩ := memberAt?_eq_some store path member found
  obtain ⟨checked, walked, _, node⟩ := Store.find_eq_ok _ _ _ _ present
  obtain ⟨nonempty, plain, front, ends⟩ := Path.elements_of_fileName path member.name named
  have down : member.name ≠ Path.parent := by
    intro up
    have clean := (EntryName.check_eq_ok _ accepted).2
    rw [Path.elements_single _ nonempty plain] at clean
    exact clean (by simp [up])
  rw [ends, Store.walk_append] at walked
  obtain ⟨above, _, last⟩ := Result.bind_eq_ok walked
  rw [Store.walk_cons] at last
  obtain ⟨next, stepped, same⟩ := Result.bind_eq_ok last
  cases same
  obtain ⟨leads, here, proper⟩ := Store.step_eq_ok _ _ _ _ stepped
  have goes : member.name ≠ Path.here := by
    -- The name of a file does not stay at the directory that holds it.
    intro stays
    rw [leads, Store.follow, if_pos stays, here] at node
    cases node
  refine ⟨⟨nonempty, plain, goes, down⟩, ?_, (proper goes down).1⟩
  intro zero
  have inPath := Path.elements_subset path member.name (by simp [ends]) 0 zero
  exact (Store.checkPath_eq_ok.mp checked).1 inPath

theorem path_of_member (store : Store) (paths : List Bytes) (members : List Member)
    (found : paths.mapM (memberAt? store) = some members) (member : Member)
    (inside : member ∈ members) : ∃ path, memberAt? store path = some member := by
  rw [← map_snd_zip store paths members found] at inside
  obtain ⟨source, listed, same⟩ := List.mem_map.mp inside
  refine ⟨source.1, ?_⟩
  rw [← same]
  exact memberAt?_of_mem_zip store paths members found source listed

/-- An empty directory to extract into, which the log does not reach. -/
structure EmptyTarget (outputDirectory : Bytes) (directory : Location) (workspace : Workspace) :
    Prop where
  found : workspace.store.find (baseOf outputDirectory) = .ok (directory, .directory)
  empty : ∀ below ≠ [], workspace.store.node? (directory ++ below) = none
  quiet : ∀ below ≠ [], ¬ workspace.log.Reaches workspace.store (directory ++ below)

namespace EmptyTarget

variable {outputDirectory : Bytes} {directory : Location} {workspace : Workspace}

theorem place_join (target : EmptyTarget outputDirectory directory workspace) (name : Bytes)
    (leaf : Path.Leaf name) :
    workspace.store.place (Path.join (baseOf outputDirectory) name) = directory ++ [name] := by
  obtain ⟨_, walked, _, _⟩ := Store.find_eq_ok _ _ _ _ target.found
  have clean := Store.walk_cleanElements _ _ _ walked
  rw [Store.place_join _ _ _ (baseOf_ne_nil _) leaf.parent_not_mem, leaf.added,
    ← Store.walk_eq_ok _ _ _ _ clean]

theorem fillable_join (target : EmptyTarget outputDirectory directory workspace)
    (unlimited : workspace.store.Unlimited directory) (name : Bytes) (nameable : Store.Nameable name)
    (within : (Path.join (baseOf outputDirectory) name).length ≤ Store.maxPath) :
    workspace.store.Fillable (Path.join (baseOf outputDirectory) name) := by
  have free := target.empty [name] (by simp)
  rw [Store.Fillable, target.place_join name nameable.toLeaf]
  refine ⟨none, ?_, nofun, unlimited [name] (by simp)⟩
  rw [← free]
  apply Store.fileTarget_join _ _ _ _ target.found nameable within
  rw [free]
  exact nofun

theorem again {may : Location → Prop} {after : Workspace}
    (target : EmptyTarget outputDirectory directory workspace)
    (changes : Store.ChangesOnly may workspace.store after.store)
    (outside : ∀ below ≠ [], ¬ may (directory ++ below))
    (quiet : ∀ below ≠ [], ¬ after.log.Reaches after.store (directory ++ below)) :
    EmptyTarget outputDirectory directory after := by
  have present := (Store.find_eq_ok _ _ _ _ target.found).2.2.2
  refine ⟨?_, ?_, quiet⟩
  · apply Store.find_again changes _ _ _ target.found
    exact changes.directories directory present
  · intro below down
    rw [changes.outside _ (outside below down)]
    exact target.empty below down

theorem opened {path : Bytes} {after : Workspace} {archive : Archive} {location : Location}
    {contents : Contents} (target : EmptyTarget outputDirectory directory workspace)
    (opening : Opened path workspace after archive location contents) :
    EmptyTarget outputDirectory directory after := by
  apply target.again opening.changes target.quiet
  intro below down reached
  exact target.quiet below down (opening.reach _ reached)

end EmptyTarget

theorem makeOutput_present (options : ExtractOptions) (before : Workspace) (directory : Location)
    (found : before.store.find (baseOf options.outputDirectory) = .ok (directory, .directory)) :
    (makeOutput options).runOn before = (.ok (), before) := by
  rw [makeOutput]
  split
  · rename_i asked
    have named : options.outputDirectory ≠ [] := by
      simp only [Bool.and_eq_true, Bool.not_eq_true', List.isEmpty_eq_false_iff] at asked
      exact asked.2
    rw [baseOf, if_neg named] at found
    rw [Action.during_run, Action.mkdirAll_run, Store.mkdirAll_present _ _ _ found]
    rfl
  · rfl

theorem extract_run (path : Bytes) (options : ExtractOptions) (before opened : Workspace)
    (archive : Archive) (source directory : Location) (container : Bytes) (list : List Task)
    (plain : options.lz4 = false)
    (valid : Payload.ValidBuffer (Payload.chosenBuffer options.buffer))
    (accepted : (openAt path false).runOn before = (.ok archive, opened))
    (listed : tasks archive.directory options.outputDirectory options.policy = .ok list)
    (found : opened.store.find (baseOf options.outputDirectory) = .ok (directory, .directory))
    (ready : Ready archive source container list opened) :
    ∃ history, (extract path options).runOn before =
        ((extractions container archive.directory list opened.store opened.log).1,
          { store := (extractions container archive.directory list opened.store opened.log).2.1
            log := (extractions container archive.directory list opened.store opened.log).2.2
            tracker := opened.tracker.map fun tracker =>
              ((tracker.init archive.directory.payloadSize).tellAll history).stop }) ∧
      ((extractions container archive.directory list opened.store opened.log).1 = .ok () →
        history.map Prod.fst = list.map (·.entry.name)) := by
  have naming : (Action.ofExcept ((tasks archive.directory options.outputDirectory
      options.policy).mapError .entryName)).runOn opened = (.ok list, opened) :=
    Action.ofExcept_eq_ok.mpr ⟨Result.mapError_eq_ok.mpr listed, rfl⟩
  have making := makeOutput_present options opened directory found
  obtain ⟨history, run, told⟩ := extractTasks_run archive container list _ _ valid.1
    (ready.toPoised.track fun tracker => tracker.init archive.directory.payloadSize)
  refine ⟨history, ?_, told⟩
  rw [← plain] at accepted
  rw [extract_of_opened path options before opened archive valid accepted,
    Action.bind_of_ok _ _ _ _ _ naming, Action.bind_of_ok _ _ _ _ _ making]
  simp only [Action.runOn, Workspace.track] at run
  simp only [Action.runOn, Action.tracked, Workspace.track, run, Option.map_map, Function.comp_def]

theorem extractions_checked (container : Bytes) (directory : Directory) (tasks : List Task)
    (store : Store) (log : Log)
    (fine : (extractions container directory tasks store log).1 = .ok ()) :
    ∀ task ∈ tasks, Store.checkPath task.destination = .ok () := by
  induction tasks generalizing store log with
  | nil => exact nofun
  | cons first tasks ih =>
      cases creating : store.create first.destination with
      | error fault =>
          simp only [extractions, extraction, creating] at fine
          cases fine
      | ok target =>
          obtain ⟨location, created⟩ := target
          obtain ⟨node, found, _⟩ := Store.create_eq_ok _ _ _ _ creating
          obtain ⟨_, _, parent, _⟩ := Store.fileTarget_eq_ok _ _ _ _ found
          have checked := (Store.findParent_eq_ok _ _ _ _ parent).1
          rw [extractions] at fine
          cases step : extraction container directory first store log with
          | mk result left =>
              obtain ⟨middle, kept⟩ := left
              rw [step] at fine
              cases result with
              | error failure => cases fine
              | ok done => exact List.forall_mem_cons.mpr ⟨checked, ih middle kept fine⟩

def unpacked (members : List Member) : Location → Option Store.Node
  | [name] => (lastNamed? members name).map fun member => .file (.ofBytes member.contents)
  | _ => none

section Written

variable {members : List Member} {directory : Directory} {encoded : Bytes}
variable (laid : Directory.LaidOut (members.map Member.outline) directory encoded)
include laid

theorem tasks_written (outputDirectory : Bytes) (policy : KeyPolicy) (list : List Task) :
    tasks directory outputDirectory policy = .ok list ↔
      (∀ member ∈ members, EntryName.check member.name = .ok ()) ∧
        directory.entries.map (taskOf directory outputDirectory policy) = list := by
  have names : (∀ entry ∈ directory.entries, EntryName.check entry.name = .ok ()) ↔
      ∀ member ∈ members, EntryName.check member.name = .ok () := by
    rw [← List.forall_mem_map (f := Entry.name) (P := fun name => EntryName.check name = .ok ()),
      entries_names laid, List.forall_mem_map]
  rw [tasks_eq_ok, names]

theorem member_of_entry (entry : Entry) (inside : entry ∈ directory.entries) :
    ∃ member ∈ members, entry.name = member.name := by
  have named := List.mem_map_of_mem (f := Entry.name) inside
  rw [entries_names laid] at named
  obtain ⟨member, listed, same⟩ := List.mem_map.mp named
  exact ⟨member, listed, same.symm⟩

theorem place_written (outputDirectory : Bytes) (policy : KeyPolicy) (base : Location)
    (workspace : Workspace) (target : EmptyTarget outputDirectory base workspace)
    (leaves : ∀ member ∈ members, Path.Leaf member.name) (entry : Entry)
    (inside : entry ∈ directory.entries) :
    workspace.store.place (taskOf directory outputDirectory policy entry).destination =
      base ++ [entry.name] := by
  obtain ⟨member, listed, same⟩ := member_of_entry laid entry inside
  apply target.place_join
  rw [same]
  exact leaves member listed

/-- Members with proper names and destinations are extracted into an empty directory without fail, and
that leaves one file for each name. -/
theorem extractions_written (outputDirectory : Bytes) (base : Location) (workspace : Workspace)
    (target : EmptyTarget outputDirectory base workspace) (unlimited : workspace.store.Unlimited base)
    (nameable : ∀ member ∈ members, Store.Nameable member.name)
    (within : ∀ member ∈ members,
      (Path.join (baseOf outputDirectory) member.name).length ≤ Store.maxPath) :
    ∃ after later, extractions (containerOf members) directory
        (directory.entries.map (taskOf directory outputDirectory .byName))
        workspace.store workspace.log = (.ok (), after, later) ∧
      ∀ below ≠ [], after.node? (base ++ below) = unpacked members below := by
  have places := place_written laid outputDirectory .byName base workspace target
    fun member inside => (nameable member inside).toLeaf
  have quiet : ∀ task ∈ directory.entries.map (taskOf directory outputDirectory .byName),
      ¬ workspace.log.Reaches workspace.store (workspace.store.place task.destination) := by
    intro task inside
    obtain ⟨entry, listed, rfl⟩ := List.mem_map.mp inside
    rw [places entry listed]
    exact target.quiet _ (by simp)
  have fillable : ∀ task ∈ directory.entries.map (taskOf directory outputDirectory .byName),
      workspace.store.Fillable task.destination := by
    intro task inside
    obtain ⟨entry, listed, rfl⟩ := List.mem_map.mp inside
    obtain ⟨member, present, same⟩ := member_of_entry laid entry listed
    apply target.fillable_join unlimited
    · rw [same]
      exact nameable member present
    · rw [same]
      exact within member present
  obtain ⟨after, later, run, still⟩ := extractions_of_fillable (containerOf members) directory
    (directory.entries.map (taskOf directory outputDirectory .byName)) workspace.store workspace.log
    quiet fillable
  obtain ⟨frame, last⟩ := extractions_spec _ _ _ _ after _ later _ quiet run
  refine ⟨after, later, run, ?_⟩
  -- Below the directory only the destinations of members have changed.
  have untouched : ∀ below ≠ [], (∀ member ∈ members, below ≠ [member.name]) →
      after.node? (base ++ below) = none := by
    intro below down other
    rw [frame.outside, target.empty below down]
    rintro (⟨task, inside, here⟩ | reached)
    · obtain ⟨entry, listed, rfl⟩ := List.mem_map.mp inside
      obtain ⟨member, present, same⟩ := member_of_entry laid entry listed
      rw [places entry listed, List.append_cancel_left_eq, same] at here
      exact other member present here
    · exact target.quiet below down reached
  intro below down
  match below with
  | [] => exact absurd rfl down
  | first :: second :: rest => exact untouched _ down (by simp)
  | [name] =>
      cases found : lastNamed? members name with
      | none =>
          rw [unpacked, found]
          apply untouched _ down
          intro member listed same
          exact lastNamed?_eq_none members name found member listed (List.singleton_inj.mp same).symm
      | some member =>
          obtain ⟨front, entry, back, shape, rfl, others, contents⟩ :=
            entries_lastNamed laid name member found
          have here := places entry (by simp [shape])
          have listed : taskOf directory outputDirectory .byName entry ∈
              directory.entries.map (taskOf directory outputDirectory .byName) :=
            List.mem_map_of_mem (by simp [shape])
          have holds := last rfl _ (taskOf directory outputDirectory .byName entry) _
            (by rw [shape, List.map_append, List.map_cons]) (by
              intro task inside
              obtain ⟨other, behind, rfl⟩ := List.mem_map.mp inside
              rw [here, places other (by simp [shape, behind]), ne_eq, List.append_cancel_left_eq,
                List.singleton_inj]
              exact others other behind)
          have held := holds.node? (still _ (fillable _ listed) (quiet _ listed))
          rw [here] at held
          rw [unpacked, found, Option.map_some, ← contents]
          exact held

variable {path : Bytes} {options : ExtractOptions} {location base : Location} {start : Workspace}
variable (proper : ∀ member ∈ members, EntryName.check member.name = .ok () →
  Store.Nameable member.name)
variable (plain : options.lz4 = false) (keyed : options.policy = .byName)
variable (valid : Payload.ValidBuffer (Payload.chosenBuffer options.buffer))
variable (opens : start.store.openForReading path =
  .ok (location, .file (.ofBytes (containerOf members))))
variable (unread : ¬ start.log.Reaches start.store location)
variable (target : EmptyTarget options.outputDirectory base start)

include proper opens unread target in
theorem opened_written :
    ∃ archive opened, (openAt path false).runOn start = (.ok archive, opened) ∧
      archive.directory = directory ∧
      Opened path start opened archive location (.ofBytes (containerOf members)) ∧
      ∀ list, tasks directory options.outputDirectory options.policy = .ok list →
        Ready archive location (containerOf members) list opened := by
  have found := (Store.openForReading_eq_ok.mp opens).1
  obtain ⟨archive, opened, accepted, rfl⟩ := openAt_written laid path location start opens
  obtain ⟨_, _, opening⟩ := openAt_eq_ok path archive start opened accepted
  cases opening.found.symm.trans found
  refine ⟨archive, opened, accepted, rfl, opening, ?_⟩
  intro list listed
  have short := containerOf_short laid
  rw [← Contents.toBytes_ofBytes (containerOf members), Contents.length_toBytes] at short
  have archiveFile := (Store.find_eq_ok _ _ _ _ found).2.2.2
  obtain ⟨checked, shape⟩ := (tasks_written laid _ _ _).mp listed
  have places := place_written laid options.outputDirectory options.policy base start target
    fun member inside => (proper member inside (checked member inside)).toLeaf
  have ready := ready_of_opened path start opened archive location _ _ _ list opening short listed
    (by
      intro task member here
      rw [← shape] at member
      obtain ⟨entry, listed, rfl⟩ := List.mem_map.mp member
      rw [places entry listed] at here
      rw [← here, target.empty _ (by simp)] at archiveFile
      cases archiveFile)
    unread
    (by
      intro task member
      rw [← shape] at member
      obtain ⟨entry, listed, rfl⟩ := List.mem_map.mp member
      rw [places entry listed]
      exact target.quiet _ (by simp))
  rwa [Contents.toBytes_ofBytes] at ready

include proper opens unread target plain in
theorem extract_written_checked (after : Workspace)
    (extracted : (extract path options).runOn start = (.ok (), after)) :
    ∀ member ∈ members, EntryName.check member.name = .ok () ∧
      (Path.join (baseOf options.outputDirectory) member.name).length ≤ Store.maxPath := by
  obtain ⟨archive, opened, accepted, same, _, ready⟩ :=
    opened_written laid proper opens unread target
  subst same
  obtain ⟨list, made, listed, _, ran⟩ :=
    extract_eq_ok path options start opened after archive location _ plain accepted ready extracted
  have followed := extractions_checked _ _ list made opened.log (by rw [ran])
  obtain ⟨checked, rfl⟩ := (tasks_written laid _ _ _).mp listed
  intro member inside
  refine ⟨checked member inside, ?_⟩
  have named := List.mem_map_of_mem (f := Member.name) inside
  rw [← entries_names laid] at named
  obtain ⟨entry, present, sameName⟩ := List.mem_map.mp named
  have short := (Store.checkPath_eq_ok.mp (followed _ (List.mem_map_of_mem present))).2.2
  rw [taskOf, sameName] at short
  exact short

include proper opens unread target plain keyed valid in
theorem extract_written_unpacks (unlimited : start.store.Unlimited base)
    (fine : ∀ member ∈ members, EntryName.check member.name = .ok () ∧
      (Path.join (baseOf options.outputDirectory) member.name).length ≤ Store.maxPath) :
    ∃ after history, (extract path options).runOn start = (.ok (), after) ∧
      (∀ below ≠ [], after.store.node? (base ++ below) = unpacked members below) ∧
      after.tracker = start.tracker.map (fun tracker =>
        ((tracker.init directory.payloadSize).tellAll history).stop) ∧
      history.map Prod.fst = members.map Member.name := by
  obtain ⟨archive, opened, accepted, same, opening, ready⟩ :=
    opened_written laid proper opens unread target
  subst same
  have listed := (tasks_written laid options.outputDirectory options.policy _).mpr
    ⟨fun member inside => (fine member inside).1, rfl⟩
  obtain ⟨history, run, told⟩ := extract_run path options start opened archive location base
    (containerOf members) _ plain valid accepted listed (target.opened opening).found
    (ready _ listed)
  obtain ⟨store, log, ran, unpacks⟩ := extractions_written laid options.outputDirectory base opened
    (target.opened opening) (opening.changes.unlimited unlimited)
    (fun member inside => proper member inside (fine member inside).1)
    (fun member inside => (fine member inside).2)
  rw [keyed] at run told
  rw [ran] at run told
  refine ⟨_, history, run, unpacks, ?_, ?_⟩
  · rw [opening.tracker]
  · rw [told rfl, ← entries_names laid, List.map_map]
    rfl

end Written

theorem payloadSize_toUInt64 (members : List Member) (directory : Directory) (encoded : Bytes)
    (laid : Directory.LaidOut (members.map Member.outline) directory encoded) :
    directory.payloadSize = (contentBytes members).toUInt64 := by
  apply UInt64.toNat_inj.mp
  have size := payloadSize_eq members directory encoded laid
  rw [← size]
  simp

/-- What a compression has written is extracted into an empty directory again, at any later time, just
when every name is accepted and every destination has a path of at most 4095 bytes. The directory then
holds one file for each name, with the contents of the last input of that name, and the tracker was
told of the names in the order of the inputs. Neither directory nor disk may refuse a file there. -/
theorem compress_extract_round_trip (output : Bytes) (paths : List Bytes)
    (compression : CompressOptions) (options : ExtractOptions) (before between start : Workspace)
    (base : Location) (plain : compression.lz4 = false)
    (sizes : ∀ members, paths.mapM (memberAt? before.store) = some members →
      ∀ member ∈ members, member.contents.length < 0x8000000000000000)
    (apart : ∀ path ∈ paths, before.store.place path ≠ before.store.place output)
    (unreached : ¬ before.log.Reaches before.store (before.store.place output))
    (quiet : ∀ path ∈ paths, ¬ before.log.Reaches before.store (before.store.place path))
    (compressed : (compress output paths compression).runOn before = (.ok (), between))
    (kept : start.store.openForReading output = between.store.openForReading output)
    (unread : ¬ start.log.Reaches start.store (before.store.place output))
    (target : EmptyTarget options.outputDirectory base start) (unlimited : start.store.Unlimited base)
    (unwrapped : options.lz4 = false) (keyed : options.policy = .byName)
    (valid : Payload.ValidBuffer (Payload.chosenBuffer options.buffer)) :
    ∃ members, paths.mapM (memberAt? before.store) = some members ∧
      ((∃ after, (extract output options).runOn start = (.ok (), after)) ↔
        ∀ member ∈ members, EntryName.check member.name = .ok () ∧
          (Path.join (baseOf options.outputDirectory) member.name).length ≤ Store.maxPath) ∧
      ∀ after, (extract output options).runOn start = (.ok (), after) →
        (∀ below ≠ [], after.store.node? (base ++ below) = unpacked members below) ∧
        ∃ history, after.tracker = start.tracker.map (fun tracker =>
            ((tracker.init (contentBytes members).toUInt64).tellAll history).stop) ∧
          history.map Prod.fst = members.map Member.name := by
  obtain ⟨members, directory, encoded, done⟩ :=
    compress_spec output paths compression before between plain sizes apart unreached quiet compressed
  have laid := done.laid
  have opens := kept.trans done.written
  have proper : ∀ member ∈ members, EntryName.check member.name = .ok () →
      Store.Nameable member.name := by
    intro member inside accepted
    obtain ⟨path, read⟩ := path_of_member before.store paths members done.inputs member inside
    exact nameable_of_memberAt? before.store path member read accepted
  refine ⟨members, done.inputs, ⟨?_, ?_⟩, ?_⟩
  · rintro ⟨after, extracted⟩
    exact extract_written_checked laid proper unwrapped opens unread target after extracted
  · intro fine
    obtain ⟨after, _, extracted, _⟩ :=
      extract_written_unpacks laid proper unwrapped keyed valid opens unread target unlimited fine
    exact ⟨after, extracted⟩
  · intro after extracted
    have fine := extract_written_checked laid proper unwrapped opens unread target after extracted
    obtain ⟨same, history, again, unpacks, tracker, names⟩ :=
      extract_written_unpacks laid proper unwrapped keyed valid opens unread target unlimited fine
    rw [extracted] at again
    cases again
    rw [payloadSize_toUInt64 members directory encoded laid] at tracker
    exact ⟨unpacks, history, tracker, names⟩

def repeatedName : Workspace where
  store :=
    { Store.initial with
      nodes := Store.initial.nodes ++
        [([utf8 "work", utf8 "old"], .directory),
          ([utf8 "work", utf8 "old", utf8 "r\u00e9sum\u00e9"], .file (.ofBytes (utf8 "draft"))),
          ([utf8 "work", utf8 "r\u00e9sum\u00e9"], .file (.ofBytes (utf8 "text"))),
          ([utf8 "work", utf8 "run.s"], .file (.ofBytes [])),
          ([utf8 "work", utf8 "new"], .directory)] }
  tracker := some { enabled := true, clock := .ticking 0 1000000000 }

def repeatedInputs : List Bytes :=
  [utf8 "old/r\u00e9sum\u00e9", utf8 "run.s", utf8 "r\u00e9sum\u00e9"]

theorem repeatedName_emptyTarget : EmptyTarget (utf8 "new") [utf8 "work", utf8 "new"] repeatedName :=
  ⟨rfl, Store.node?_below _ _ (by decide +kernel), fun _ _ reached => nomatch reached.1⟩

/-- The later of two files of the same name is what comes out. -/
theorem compress_extract_round_trip_repeated_name :
    ∃ between after,
      (compress (utf8 "out") repeatedInputs { buffer := 256 }).runOn repeatedName = (.ok (), between) ∧
      (extract (utf8 "out") { outputDirectory := utf8 "new" }).runOn { between with log := {} } =
        (.ok (), after) ∧
      after.store.node? [utf8 "work", utf8 "new", utf8 "r\u00e9sum\u00e9"] =
        some (.file (.ofBytes (utf8 "text"))) ∧
      after.store.node? [utf8 "work", utf8 "new", utf8 "run.s"] = some (.file (.ofBytes [])) := by
  have works : ((compress (utf8 "out") repeatedInputs { buffer := 256 }).runOn
      repeatedName).1.toOption.isSome = true := by
    decide +kernel
  have inputs : repeatedInputs.mapM (memberAt? repeatedName.store) =
      some [⟨utf8 "r\u00e9sum\u00e9", utf8 "draft"⟩, ⟨utf8 "run.s", []⟩,
        ⟨utf8 "r\u00e9sum\u00e9", utf8 "text"⟩] := by
    decide +kernel
  have apart : ∀ path ∈ repeatedInputs,
      repeatedName.store.place path ≠ repeatedName.store.place (utf8 "out") := by
    decide +kernel
  have sizes : ∀ members, repeatedInputs.mapM (memberAt? repeatedName.store) = some members →
      ∀ member ∈ members, member.contents.length < 0x8000000000000000 := by
    intro members found
    rw [inputs] at found
    cases found
    decide +kernel
  have unreached : ∀ location, ¬ repeatedName.log.Reaches repeatedName.store location :=
    fun _ reached => nomatch reached.1
  obtain ⟨_, between, compressed⟩ := Action.exists_ok works
  obtain ⟨_, _, _, done⟩ := compress_spec _ _ _ repeatedName between rfl sizes apart (unreached _)
    (fun _ _ => unreached _) compressed
  have target : EmptyTarget (utf8 "new") [utf8 "work", utf8 "new"] { between with log := {} } := by
    have place : repeatedName.store.place (utf8 "out") = [utf8 "work", utf8 "out"] := by decide +kernel
    refine repeatedName_emptyTarget.again done.changes ?_ (fun _ _ reached => nomatch reached.1)
    rintro below _ (here | reached)
    · rw [place, List.cons_append, List.cons.injEq, List.cons_append, List.cons.injEq] at here
      exact absurd here.2.1 (by decide +kernel)
    · exact unreached _ reached
  obtain ⟨members, found, succeeds, unpacks⟩ := compress_extract_round_trip (utf8 "out") repeatedInputs
    { buffer := 256 } { outputDirectory := utf8 "new" } repeatedName between { between with log := {} }
    [utf8 "work", utf8 "new"] rfl sizes apart (unreached _) (fun _ _ => unreached _) compressed rfl
    (fun reached => nomatch reached.1) target
    (done.changes.unlimited (Store.initial_unlimited _ (by decide +kernel))) rfl rfl (by decide)
  rw [inputs] at found
  cases found
  have short : ∀ member ∈ [Member.mk (utf8 "r\u00e9sum\u00e9") (utf8 "draft"), ⟨utf8 "run.s", []⟩,
      ⟨utf8 "r\u00e9sum\u00e9", utf8 "text"⟩],
      (Path.join (baseOf (utf8 "new")) member.name).length ≤ Store.maxPath := by
    decide +kernel
  obtain ⟨after, extracted⟩ := succeeds.mpr (by
    intro member inside
    refine ⟨?_, short member inside⟩
    simp only [List.mem_cons, List.not_mem_nil, or_false] at inside
    rcases inside with rfl | rfl | rfl <;> rfl)
  obtain ⟨held, _⟩ := unpacks after extracted
  refine ⟨between, after, compressed, extracted, ?_, ?_⟩
  · exact held [utf8 "r\u00e9sum\u00e9"] (by simp)
  · exact held [utf8 "run.s"] (by simp)

def deepName : Bytes := List.replicate 250 0x64

/-- A path of 4015 bytes, which is followed, but leaves no room for a name of a hundred bytes. -/
def deepPath : Bytes := [Bytes.slash].intercalate (List.replicate 16 deepName)

def deepLocation : Location := utf8 "work" :: List.replicate 16 deepName

def longName : Bytes := List.replicate 100 0x6D

/-- A workspace with a file and sixteen directories inside each other, the last one empty. -/
def deepTree : Workspace where
  store :=
    { Store.initial with
      nodes := Store.initial.nodes ++ ([utf8 "work", longName], .file (.ofBytes (utf8 "hello"))) ::
        (List.range 16).map fun depth =>
          (utf8 "work" :: List.replicate (depth + 1) deepName, .directory) }

/-- The same with an empty directory that holds four bytes of the file, and no fifth one. -/
def fullTree : Workspace where
  store := (deepTree.store.put [utf8 "work", utf8 "out"] .directory).setTerms
    [utf8 "work", utf8 "out", longName] { room := some 4 }

theorem compressed_then_refused (before : Workspace) (out : Bytes) (directory : Location)
    (works : ((compress (utf8 "a.iga") [longName] {}).runOn before).1.toOption.isSome = true)
    (inputs : [longName].mapM (memberAt? before.store) = some [⟨longName, utf8 "hello"⟩])
    (apart : before.store.place longName ≠ before.store.place (utf8 "a.iga"))
    (quiet : before.log.verbose = false)
    (silent : ((compress (utf8 "a.iga") [longName] {}).runOn before).2.log.verbose = false)
    (target : EmptyTarget out directory before)
    (away : ∀ below ≠ [], directory ++ below ≠ before.store.place (utf8 "a.iga"))
    (fails : ((extract (utf8 "a.iga") { outputDirectory := out }).runOn
      ((compress (utf8 "a.iga") [longName] {}).runOn before).2).1.toOption.isSome = false) :
    ∃ between, (compress (utf8 "a.iga") [longName] {}).runOn before = (.ok (), between) ∧
      EmptyTarget out directory between ∧ between.store.terms = before.store.terms ∧
      ¬ ∃ after, (extract (utf8 "a.iga") { outputDirectory := out }).runOn between = (.ok (), after) := by
  have unreached : ∀ location, ¬ before.log.Reaches before.store location := by
    rintro location ⟨verbose, _⟩
    rw [quiet] at verbose
    cases verbose
  obtain ⟨_, between, compressed⟩ := Action.exists_ok works
  rw [compressed] at silent fails
  obtain ⟨_, _, _, done⟩ := compress_spec _ _ _ before between rfl
    (by
      intro members found
      rw [inputs] at found
      cases found
      decide +kernel)
    (by simpa using apart) (unreached _) (fun _ _ => unreached _) compressed
  refine ⟨between, compressed, target.again done.changes ?_ ?_, done.changes.terms, ?_⟩
  · rintro below down (here | reached)
    · exact away below down here
    · exact unreached _ reached
  · rintro below _ ⟨verbose, _⟩
    rw [silent] at verbose
    cases verbose
  · rintro ⟨after, extracted⟩
    rw [extracted] at fails
    cases fails

/-- Accepted names are not enough: a member that was compressed cannot be extracted into an empty
directory whose path is long, nor into one that has no room for it. -/
theorem extract_fails_without_room :
    EntryName.check longName = .ok () ∧
    (∃ between, (compress (utf8 "a.iga") [longName] {}).runOn deepTree = (.ok (), between) ∧
      [longName].mapM (memberAt? deepTree.store) = some [⟨longName, utf8 "hello"⟩] ∧
      deepTree.store.place longName ≠ deepTree.store.place (utf8 "a.iga") ∧
      EmptyTarget deepPath deepLocation between ∧ between.store.Unlimited deepLocation ∧
      ¬ ∃ after, (extract (utf8 "a.iga") { outputDirectory := deepPath }).runOn between =
        (.ok (), after)) ∧
    ∃ between, (compress (utf8 "a.iga") [longName] {}).runOn fullTree = (.ok (), between) ∧
      [longName].mapM (memberAt? fullTree.store) = some [⟨longName, utf8 "hello"⟩] ∧
      fullTree.store.place longName ≠ fullTree.store.place (utf8 "a.iga") ∧
      EmptyTarget (utf8 "out") [utf8 "work", utf8 "out"] between ∧
      (Path.join (baseOf (utf8 "out")) longName).length ≤ Store.maxPath ∧
      ¬ ∃ after, (extract (utf8 "a.iga") { outputDirectory := utf8 "out" }).runOn between =
        (.ok (), after) := by
  have inputs : [longName].mapM (memberAt? deepTree.store) = some [⟨longName, utf8 "hello"⟩] := by
    decide +kernel
  have inputsToo : [longName].mapM (memberAt? fullTree.store) = some [⟨longName, utf8 "hello"⟩] := by
    decide +kernel
  have apart : deepTree.store.place longName ≠ deepTree.store.place (utf8 "a.iga") := by decide +kernel
  have apartToo : fullTree.store.place longName ≠ fullTree.store.place (utf8 "a.iga") := by
    decide +kernel
  have place : deepTree.store.place (utf8 "a.iga") = [utf8 "work", utf8 "a.iga"] := by decide +kernel
  have placeToo : fullTree.store.place (utf8 "a.iga") = [utf8 "work", utf8 "a.iga"] := by decide +kernel
  have target : EmptyTarget deepPath deepLocation deepTree :=
    ⟨Store.find_of_isDirectory _ _ _ (by decide +kernel), Store.node?_below _ _ (by decide +kernel),
      fun _ _ reached => nomatch reached.1⟩
  have targetToo : EmptyTarget (utf8 "out") [utf8 "work", utf8 "out"] fullTree :=
    ⟨Store.find_of_isDirectory _ _ _ (by decide +kernel), Store.node?_below _ _ (by decide +kernel),
      fun _ _ reached => nomatch reached.1⟩
  obtain ⟨between, compressed, empty, terms, fails⟩ := compressed_then_refused deepTree deepPath
    deepLocation (by decide +kernel) inputs apart rfl (by decide +kernel) target
    (by
      intro below _ here
      have length := congrArg List.length (here.trans place)
      simp [deepLocation] at length)
    (by decide +kernel)
  obtain ⟨betweenToo, compressedToo, emptyToo, _, failsToo⟩ := compressed_then_refused fullTree
    (utf8 "out") [utf8 "work", utf8 "out"] (by decide +kernel) inputsToo apartToo rfl (by decide +kernel)
    targetToo
    (by
      intro below _ here
      rw [placeToo, List.cons_append, List.cons.injEq, List.cons_append, List.cons.injEq] at here
      exact absurd here.2.1 (by decide +kernel))
    (by decide +kernel)
  refine ⟨rfl, ⟨between, compressed, inputs, apart, empty, ?_, fails⟩, betweenToo, compressedToo,
    inputsToo, apartToo, emptyToo, by decide +kernel, failsToo⟩
  intro below down
  rw [terms]
  exact Store.initial_unlimited deepLocation (by decide +kernel) below down

end IgaArchive.Archive

import IgaArchive.Proofs.Archive.Acceptance
import IgaArchive.Proofs.Archive.Creation
import IgaArchive.Proofs.Archive.PartialExtraction
import IgaArchive.Proofs.Archive.PayloadRange
import IgaArchive.Proofs.Directory.Tiling
import IgaArchive.Proofs.Metering

/-!
The progress of a run is exact. What its tracker has counted in the end is what the files or the output have
taken of the payloads since the run began, whether the run succeeds or fails, and however often or seldom it
has reported on the way.
-/

namespace IgaArchive.Archive

section Extracting

variable (archive : Archive) (buffer : Int)

def FileSink.takes (location : Location) (sink : FileSink) (bytes : Bytes) : Nat :=
  (sink.workspace.store.writeAt location sink.position bytes).2.1

def prepare (task : Task) : Action Location := do
  Action.track fun tracker => tracker.entry task.entry.name
  let location ← Action.during (.create task.destination) (Action.alter (·.create task.destination))
  Action.detail task.description
  return location

def transferred (task : Task) (location : Location) (workspace : Workspace) : Nat :=
  Payload.accepted (fun sink : FileSink => archive.payload task.entry sink.workspace.store)
    (FileSink.write task.destination location) (FileSink.takes location) task.key buffer.toNat
    task.entry.size.toNat { workspace }

/-- How many bytes of a member its destination takes, none if it cannot be made. -/
def deposited (task : Task) (before : Workspace) : Nat :=
  match (prepare task).runOn before with
  | (.error _, _) => 0
  | (.ok location, between) => archive.transferred buffer task location between

theorem payload_length_le (entry : Entry) (store : Store) (position length : Nat) :
    (archive.payload entry store position length).length ≤ length := by
  have most := Nat.min_le_left length (entry.size.toNat - position)
  rw [payload, readAt]
  split
  · exact Nat.le_trans (Store.readAt_length_le _ _ _ _) most
  · rw [Contents.slice_eq, List.length_take]
    omega

theorem FileSink.write_adds (path : Bytes) (location : Location) (sink next : FileSink) (bytes : Bytes)
    (error : Option Fault) (written : FileSink.write path location sink bytes = (next, error)) :
    FileSink.takes location sink bytes ≤ bytes.length ∧
      (error = none → FileSink.takes location sink bytes = bytes.length) ∧
      Workspace.Adds (FileSink.takes location sink bytes) [] sink.workspace next.workspace := by
  obtain ⟨part, all⟩ := Store.writeAt_takes sink.workspace.store _ location sink.position _ bytes _ rfl
  cases written
  refine ⟨part, fun fine => all (Option.map_eq_none_iff.mp fine), ?_⟩
  exact .count { sink.workspace with
    store := (sink.workspace.store.writeAt location sink.position bytes).1 } _

theorem transferTo_adds (task : Task) (location : Location) (before after : Workspace)
    (result : Except Failure Unit) (positive : 0 < buffer)
    (ran : (archive.transferTo task location buffer).runOn before = (result, after)) :
    Workspace.Adds (archive.transferred buffer task location before) [] before after ∧
      archive.transferred buffer task location before ≤ task.entry.size.toNat ∧
      ∀ value, result = .ok value →
        archive.transferred buffer task location before = task.entry.size.toNat := by
  simp only [Action.runOn, transferTo] at ran
  cases moving : Payload.transfer (fun sink : FileSink => archive.payload task.entry sink.workspace.store)
      (FileSink.write task.destination location) task.key buffer.toNat task.entry.size.toNat
      { workspace := before } with
  | mk sink outcome =>
      obtain ⟨adds, bound, all⟩ := Payload.transfer_accepted _ _ (FileSink.takes location) task.key
        buffer.toNat task.entry.size.toNat (fun _ => True)
        (fun amount sink => Workspace.Adds amount [] before sink.workspace) (by omega)
        (fun sink => archive.payload_length_le task.entry sink.workspace.store)
        (by
          intro state bytes next error _ written
          obtain ⟨part, whole, adds⟩ := FileSink.write_adds _ _ _ _ _ _ written
          exact ⟨part, fun fine => ⟨whole fine, trivial⟩, fun _ told => told.trans adds⟩)
        { workspace := before } sink outcome trivial (.of_same rfl) moving
      rw [moving] at ran
      simp only at ran
      split at ran
      · rename_i fine
        cases ran
        exact ⟨adds, bound, fun _ _ => (all fine).1⟩
      · cases ran
        exact ⟨adds, bound, fun _ done => absurd done (by simp)⟩

theorem prepare_adds (task : Task) (before : Workspace) :
    Workspace.Adds 0 (task.entry.name ++ [Bytes.newline]) before ((prepare task).runOn before).2 := by
  have announced : Workspace.Adds 0 (task.entry.name ++ [Bytes.newline]) before
      (before.track fun tracker => tracker.entry task.entry.name) :=
    .track (fun tracker => .entry tracker _) before
  have rest : Action.TellsNothing (do
      let location ← Action.during (.create task.destination) (Action.alter (·.create task.destination))
      Action.detail task.description
      return location) :=
    .bind (.during _ (.alter _)) fun location => .bind (.detail _) fun _ => .pure location
  exact announced.followed (rest _)

theorem extractTask_eq_prepare (task : Task) :
    archive.extractTask buffer task = (do
      let location ← prepare task
      Action.during (.extract task.entry.name) (archive.transferTo task location buffer)
      Action.during (.close task.destination) (Action.ask (·.close task.destination location))) := by
  simp only [extractTask, prepare, bind_assoc, pure_bind]

/-- One member: its name is announced, and the tracker is told of the bytes that its destination takes. -/
theorem extractTask_keeps (positive : 0 < buffer) :
    Action.Keeps (fun (_ : Unit) task => archive.extractTask buffer task)
      (fun _ task before => archive.deposited buffer task before) (fun task => task.entry.size.toNat)
      (fun task => task.entry.name ++ [Bytes.newline]) (fun _ => True) := by
  intro _ task before after result _ ran
  simp only [extractTask_eq_prepare] at ran
  cases preparing : (prepare task).runOn before with
  | mk outcome between =>
      have announced := prepare_adds task before
      rw [preparing] at announced
      simp only [deposited, preparing]
      cases outcome with
      | error failure =>
          rw [Action.bind_of_error _ _ _ _ _ preparing] at ran
          cases ran
          exact ⟨announced, Nat.zero_le _, nofun⟩
      | ok location =>
          rw [Action.bind_of_ok _ _ _ _ _ preparing] at ran
          cases moving : (archive.transferTo task location buffer).runOn between with
          | mk outcome moved =>
              obtain ⟨adds, bound, all⟩ :=
                archive.transferTo_adds buffer task location between moved outcome positive moving
              have both := announced.trans adds
              rw [Nat.zero_add, List.append_nil] at both
              have named : (Action.during (.extract task.entry.name)
                  (archive.transferTo task location buffer)).runOn between =
                    (outcome.mapError (.during (.extract task.entry.name)), moved) := by
                rw [Action.during_run, moving]
              cases outcome with
              | error failure =>
                  rw [Action.bind_of_error _ _ _ _ _ named] at ran
                  cases ran
                  exact ⟨both, bound, nofun⟩
              | ok _ =>
                  rw [Action.bind_of_ok _ _ _ _ _ named] at ran
                  have closing := Action.TellsNothing.during (.close task.destination)
                    (.ask (·.close task.destination location)) moved
                  rw [ran] at closing
                  exact ⟨both.followed closing, bound, fun _ _ => ⟨all () rfl, trivial⟩⟩

theorem extractTasks_eq_foldlM (list : List Task) :
    archive.extractTasks buffer list = list.foldlM (fun _ task => archive.extractTask buffer task) () := by
  induction list with
  | nil => rfl
  | cons task list ih => rw [extractTasks, List.foldlM_cons, ih]

/-- How much each destination takes over an extraction, in the order in which the members are started. -/
def extractBook (list : List Task) (before : Workspace) : List (Entry × Nat) :=
  (Action.ledger (fun (_ : Unit) task => archive.extractTask buffer task)
    (fun _ task before => archive.deposited buffer task before) list () before).map
      (Prod.map Task.entry id)

end Extracting

section Compressing

def OutputSink.takes (sink : OutputSink) (bytes : Bytes) : Nat :=
  (sink.output.write sink.workspace.store bytes).2.2

def collected (buffer : Int) (output : Output) (source : Input × Entry) (workspace : Workspace) : Nat :=
  match workspace.store.openForReading source.1.path with
  | .error _ => 0
  | .ok (location, _) =>
    Payload.accepted (fun sink : OutputSink => sink.workspace.store.readAt location) OutputSink.write
      OutputSink.takes (Payload.key source.2.name .byName) buffer.toNat source.2.size.toNat
      { workspace, output }

theorem OutputSink.write_adds (sink next : OutputSink) (bytes : Bytes) (error : Option Fault)
    (intact : sink.output.Intact) (written : OutputSink.write sink bytes = (next, error)) :
    sink.takes bytes ≤ bytes.length ∧
      (error = none → sink.takes bytes = bytes.length ∧ next.output.Intact) ∧
      Workspace.Adds (sink.takes bytes) [] sink.workspace next.workspace := by
  obtain ⟨⟨part, whole⟩, kept⟩ := sink.output.write_takes sink.workspace.store bytes intact
  rw [OutputSink.write] at written
  cases written
  exact ⟨part, fun fine => ⟨whole fine, kept fine⟩,
    Workspace.Adds.count { sink.workspace with
      store := (sink.output.write sink.workspace.store bytes).2.1 } (sink.takes bytes)⟩

theorem appendPayload_keeps (buffer : Int) (positive : 0 < buffer) :
    Action.Keeps (fun output (source : Input × Entry) => appendPayload output buffer source.1 source.2)
      (collected buffer) (fun source => source.2.size.toNat) (fun _ => []) Output.Intact := by
  intro output source before after result intact ran
  simp only [appendPayload] at ran
  rw [collected]
  rcases Action.bind_cases ran with ⟨failure, rfl, opening⟩ | ⟨⟨location, node⟩, _, opening, ran⟩
  · obtain ⟨_, _, asking⟩ := Action.during_eq_error.mp opening
    obtain ⟨_, _, refused, rfl⟩ := Action.ask_eq_error.mp asking
    rw [refused]
    exact ⟨.of_same rfl, Nat.zero_le _, fun _ done => absurd done (by simp)⟩
  · obtain ⟨found, rfl⟩ := Action.ask_eq_ok.mp (Action.during_eq_ok.mp opening)
    rw [found]
    simp only [Action.runOn, Action.during] at ran
    cases moving : Payload.transfer (fun sink : OutputSink => sink.workspace.store.readAt location)
        OutputSink.write (Payload.key source.2.name .byName) buffer.toNat source.2.size.toNat
        { workspace := before, output } with
    | mk sink outcome =>
        obtain ⟨adds, bound, all⟩ := Payload.transfer_accepted _ _ OutputSink.takes _ buffer.toNat _
          (fun sink => sink.output.Intact)
          (fun amount sink => Workspace.Adds amount [] before sink.workspace) (by omega)
          (fun sink => sink.workspace.store.readAt_length_le location)
          (by
            intro state bytes next error well written
            obtain ⟨part, whole, adds⟩ := OutputSink.write_adds _ _ _ _ well written
            exact ⟨part, whole, fun _ told => told.trans adds⟩)
          { workspace := before, output } sink outcome intact (.of_same rfl) moving
        simp only [moving] at ran
        cases broken : outcome.error with
        | none =>
            simp only [broken] at ran
            cases ran
            refine ⟨adds, bound, ?_⟩
            intro next done
            cases done
            exact all broken
        | some error =>
            simp only [broken] at ran
            cases ran
            exact ⟨adds, bound, fun _ done => absurd done (by simp)⟩

theorem appendPayloads_eq_foldlM (buffer : Int) (sources : List (Input × Entry)) (output : Output) :
    appendPayloads buffer sources output =
      sources.foldlM (fun output source => appendPayload output buffer source.1 source.2) output := by
  induction sources generalizing output with
  | nil => rfl
  | cons source sources ih =>
      rw [appendPayloads, List.foldlM_cons]
      congr 1
      funext output
      exact ih output

def openOutput (path : Bytes) (directory : Directory) (lz4 : Bool) : Action Output := do
  let location ← Action.during .createOutput (Action.alter (·.create path))
  let head ← Action.ofExcept (directory.encode.mapError .layout)
  let output : Output := { path, location, frame := if lz4 then some {} else none }
  let output ← withOutput .writeDirectory output fun output store =>
    let (output, store, _) := output.write store head
    (output, store)
  Action.detail (path ++ utf8 ": " ++ Numeral.decimal directory.entries.length ++
    utf8 " entries, data start " ++ Numeral.signed directory.dataStart.toInt)
  return output

theorem writeArchive_eq (path : Bytes) (directory : Directory) (inputs : List Input) (lz4 : Bool)
    (buffer : Int) :
    writeArchive path directory inputs lz4 buffer = (do
      let output ← openOutput path directory lz4
      let output ← appendPayloads buffer (inputs.zip directory.entries) output
      closeOutput output) := by
  simp only [writeArchive, openOutput, bind_assoc, pure_bind]

theorem withOutput_tellsNothing (step : Step) (output : Output)
    (act : Output → Store → Output × Store) : Action.TellsNothing (withOutput step output act) := by
  intro before
  simp only [Action.runOn, withOutput]
  split <;> rfl

theorem openOutput_tellsNothing (path : Bytes) (directory : Directory) (lz4 : Bool) :
    Action.TellsNothing (openOutput path directory lz4) :=
  .bind (.during _ (.alter _)) fun _ => .bind (.ofExcept _) fun _ =>
    .bind (withOutput_tellsNothing _ _ _) fun output => .bind (.detail _) fun _ => .pure output

theorem closeOutput_tellsNothing (output : Output) : Action.TellsNothing (closeOutput output) :=
  .bind (withOutput_tellsNothing _ _ _) fun _ => .bind (withOutput_tellsNothing _ _ _) fun _ =>
    .during _ (.ask _)

theorem openOutput_intact (path : Bytes) (directory : Directory) (lz4 : Bool) (output : Output)
    (before after : Workspace) (ran : (openOutput path directory lz4).runOn before = (.ok output, after)) :
    output.Intact := by
  rw [openOutput] at ran
  obtain ⟨location, _, _, ran⟩ := Action.bind_eq_ok ran
  obtain ⟨head, between, _, ran⟩ := Action.bind_eq_ok ran
  obtain ⟨written, _, writing, ran⟩ := Action.bind_eq_ok ran
  obtain ⟨_, _, _, ran⟩ := Action.bind_eq_ok ran
  obtain ⟨rfl, _⟩ := Action.pure_eq_ok.mp ran
  obtain ⟨_, wrote, healthy, _⟩ := withOutput_eq_ok _ _ _ _ _ _ writing
  have fresh : Output.Intact { path, location, frame := if lz4 then some {} else none } := by
    refine ⟨rfl, ?_⟩
    intro writer framed
    cases lz4 with
    | false => cases framed
    | true =>
        cases framed
        exact ⟨[], Lz4.Writer.wrote_nothing⟩
  have kept := (Output.write_takes _ between.store head fresh).2
  rw [congrArg Prod.fst wrote] at kept
  exact kept healthy

section Writing

variable (path : Bytes) (directory : Directory) (inputs : List Input) (lz4 : Bool) (buffer : Int)

def writeLedger (before : Workspace) : List ((Input × Entry) × Nat) :=
  match (openOutput path directory lz4).runOn before with
  | (.error _, _) => []
  | (.ok output, between) =>
    Action.ledger (fun output source => appendPayload output buffer source.1 source.2) (collected buffer)
      (inputs.zip directory.entries) output between

theorem writeArchive_adds (positive : 0 < buffer) (before after : Workspace) (result : Except Failure Unit)
    (ran : (writeArchive path directory inputs lz4 buffer).runOn before = (result, after)) :
    Workspace.Adds (Action.total (writeLedger path directory inputs lz4 buffer before)) [] before after ∧
      Action.Booked (fun source => source.2.size.toNat) (inputs.zip directory.entries)
        (writeLedger path directory inputs lz4 buffer before) (result = .ok ()) := by
  have begun := openOutput_tellsNothing path directory lz4 before
  rw [writeArchive_eq] at ran
  simp only [writeLedger]
  cases beginning : (openOutput path directory lz4).runOn before with
  | mk outcome between =>
      rw [beginning] at begun
      cases outcome with
      | error failure =>
          rw [Action.bind_of_error _ _ _ _ _ beginning] at ran
          cases ran
          exact ⟨.of_same begun, .unstarted (by simp)⟩
      | ok output =>
          rw [Action.bind_of_ok _ _ _ _ _ beginning] at ran
          simp only [appendPayloads_eq_foldlM] at ran
          have intact := openOutput_intact path directory lz4 output before between beginning
          cases appending : ((inputs.zip directory.entries).foldlM
              (fun output source => appendPayload output buffer source.1 source.2) output).runOn between with
          | mk outcome last =>
              obtain ⟨adds, booked⟩ := Action.foldlM_ledger _ _
                (appendPayload_keeps buffer positive) _ output between last outcome intact appending
              have told := (Workspace.Adds.of_same begun).trans adds
              rw [Nat.zero_add, List.nil_append, List.flatMap_eq_nil_iff.mpr fun _ _ => rfl] at told
              cases outcome with
              | error failure =>
                  rw [Action.bind_of_error _ _ _ _ _ appending] at ran
                  cases ran
                  exact ⟨told, booked.imp fun done => absurd done (by simp)⟩
              | ok written =>
                  rw [Action.bind_of_ok _ _ _ _ _ appending] at ran
                  have ended := closeOutput_tellsNothing written last
                  rw [ran] at ended
                  exact ⟨told.followed ended, booked.imp fun _ => ⟨written, rfl⟩⟩

/-- How much the output takes of the payload of each entry over a compression. -/
def compressBook (before : Workspace) : List (Entry × Nat) :=
  (writeLedger path directory inputs lz4 buffer before).map (Prod.map Prod.snd id)

end Writing

end Compressing

/-- The books of a run are right. With an amount for each entry that was started, its tracker has counted
their sum, whatever it had counted before; if the run succeeds that is the payload size. A tracker that
reports no progress has printed just the text. -/
structure Accounted (directory : Directory) (book : List (Entry × Nat)) (text : Bytes)
    (result : Except Failure Unit) (tracker later : Tracker) : Prop where
  booked : Action.Booked (fun entry => entry.size.toNat) directory.entries book (result = .ok ())
  processed : later.processed.toNat = Action.total book
  complete : result = .ok () → later.processed = directory.payloadSize ∧
    directory.payloadSize.toNat = Directory.payloadTotal directory.entries
  printed : tracker.enabled = false → later.printed = tracker.printed ++ text

theorem total_le_payloadTotal (book : List (Entry × Nat))
    (bounded : ∀ noted ∈ book, noted.2 ≤ noted.1.size.toNat) :
    Action.total book ≤ Directory.payloadTotal (book.map Prod.fst) := by
  induction book with
  | nil => exact Nat.zero_le _
  | cons noted book ih =>
      obtain ⟨here, later⟩ := List.forall_mem_cons.mp bounded
      rw [Action.total, List.map_cons, Directory.payloadTotal_cons]
      exact Nat.add_le_add here (ih later)

theorem total_sizes (entries : List Entry) :
    Action.total (entries.map fun entry => (entry, entry.size.toNat)) = Directory.payloadTotal entries := by
  induction entries with
  | nil => rfl
  | cons entry entries ih => rw [List.map_cons, Action.total, ih, Directory.payloadTotal_cons]

theorem Accounted.of_adds {directory : Directory} {book : List (Entry × Nat)} {text : Bytes}
    {result : Except Failure Unit} {tracker : Tracker} {before ended : Workspace}
    (sized : directory.payloadSize.toNat = Directory.payloadTotal directory.entries)
    (tracked : before.tracker = some tracker)
    (adds : Workspace.Adds (Action.total book) text
      (before.track fun tracker => tracker.init directory.payloadSize) ended)
    (booked : Action.Booked (fun entry => entry.size.toNat) directory.entries book (result = .ok ())) :
    ∃ later, (ended.track Tracker.stop).tracker = some later ∧
      Accounted directory book text result tracker later := by
  have stopped := adds.trans (.track .stop ended)
  rw [Nat.add_zero, List.append_nil] at stopped
  obtain ⟨later, ends, told⟩ := stopped (tracker.init directory.payloadSize)
    (by rw [Workspace.track, tracked]; rfl)
  -- The sizes together are less than the counter can hold, so the sum does not wrap around.
  have small : Action.total book ≤ directory.payloadSize.toNat := by
    obtain ⟨rest, shape⟩ := booked.front
    have sum := total_le_payloadTotal book booked.bounded
    rw [sized, ← shape, Directory.payloadTotal_append]
    omega
  have counted : later.processed.toNat = Action.total book := by
    have most := directory.payloadSize.toNat_lt
    rw [told.processed, Tracker.init, UInt64.zero_add]
    simp only [Nat.toUInt64_eq, UInt64.toNat_ofNat']
    omega
  refine ⟨later, ends, booked, counted, ?_, told.printed⟩
  intro succeeded
  refine ⟨?_, sized⟩
  apply UInt64.toNat_inj.mp
  rw [counted, booked.whole succeeded, total_sizes, sized]

theorem extract_accounted (path : Bytes) (options : ExtractOptions) (before opened started after : Workspace)
    (archive : Archive) (list : List Task) (tracker : Tracker) (result : Except Failure Unit)
    (vetted : (vet path options).runOn before = (.ok (archive, list), opened))
    (made : (makeOutput options).runOn opened = (.ok (), started))
    (tracked : before.tracker = some tracker)
    (ran : (extract path options).runOn before = (result, after)) :
    let book := archive.extractBook (Payload.chosenBuffer options.buffer) list
      (started.track fun tracker => tracker.init archive.directory.payloadSize)
    ∃ later, after.tracker = some later ∧
      Accounted archive.directory book (book.flatMap fun noted => noted.1.name ++ [Bytes.newline]) result
        tracker later := by
  obtain ⟨valid, accepted, listed⟩ := vet_eq_ok path options before opened archive list vetted
  obtain ⟨_, _, _, open_⟩ := openAt_opens path options.lz4 archive before opened accepted
  obtain ⟨_, _, _, _, _, _, source⟩ := Directory.read_eq_ok _ _ open_.read
  have entries : list.map Task.entry = archive.directory.entries := by
    rw [← ((tasks_eq_ok _ _ _ _).mp listed).2, List.map_map]
    exact List.map_id _
  have same := (makeOutput_tracker options opened started _ made).trans open_.tracker
  rw [extract_eq_vet, Action.bind_of_ok _ _ _ _ _ vetted, Action.bind_of_ok _ _ _ _ _ made,
    Action.tracked_run, extractTasks_eq_foldlM] at ran
  cases extracting : (list.foldlM (fun (_ : Unit) task =>
      archive.extractTask (Payload.chosenBuffer options.buffer) task) ()).runOn
      (started.track fun tracker => tracker.init archive.directory.payloadSize) with
  | mk outcome ended =>
      obtain ⟨adds, booked⟩ := Action.foldlM_ledger _ _
        (archive.extractTask_keeps (Payload.chosenBuffer options.buffer) valid.1) list () _ ended outcome
        trivial extracting
      have noted := (booked.imp fun done => ⟨(), done⟩).map Task.entry fun entry => entry.size.toNat
      rw [extracting] at ran
      rw [entries] at noted
      cases ran
      simp only [extractBook, List.flatMap_map]
      exact Accounted.of_adds source.payloadSize_toNat (same.trans tracked)
        (by rw [Action.total_map]; exact adds) noted

theorem compress_accounted (output : Bytes) (paths : List Bytes) (options : CompressOptions)
    (before measured after : Workspace) (inputs : List Input) (directory : Directory) (tracker : Tracker)
    (result : Except Failure Unit)
    (valid : Payload.ValidBuffer (Payload.chosenBuffer options.buffer))
    (measuring : (paths.mapM measure).runOn before = (.ok inputs, measured))
    (planned : Directory.layout (inputs.map (·.name)) (inputs.map (·.size)) = .ok directory)
    (tracked : before.tracker = some tracker)
    (ran : (compress output paths options).runOn before = (result, after)) :
    ∃ later, after.tracker = some later ∧
      Accounted directory
        (compressBook output directory inputs options.lz4 (Payload.chosenBuffer options.buffer)
          (before.track fun tracker => tracker.init directory.payloadSize))
        [] result tracker later := by
  obtain ⟨rfl, _⟩ := mapM_measure_eq_ok paths inputs before measured measuring
  obtain ⟨_, encoded, laid⟩ := Directory.layout_eq_ok _ _ directory planned
  have sized := Directory.payloadSize_toNat directory (Directory.laidOut_follows _ directory encoded laid)
  have entries : (inputs.zip directory.entries).map Prod.snd = directory.entries := by
    have names := congrArg List.length (Directory.consecutive_names 0 0
      (((inputs.map (·.name)).zip (inputs.map (·.size))).map Directory.measured))
    rw [← laid.entries] at names
    apply List.map_snd_zip
    simpa using Nat.le_of_eq names
  have laying : (Action.ofExcept ((Directory.layout (inputs.map (·.name))
      (inputs.map (·.size))).mapError Failure.layout)).runOn before = (.ok directory, before) :=
    Action.ofExcept_eq_ok.mpr ⟨Result.mapError_eq_ok.mpr planned, rfl⟩
  rw [compress, Action.bind_of_ok _ _ _ _ _ (Action.checkBuffer_run valid before),
    Action.bind_of_ok _ _ _ _ _ measuring, Action.bind_of_ok _ _ _ _ _ laying, Action.tracked_run] at ran
  cases writing : (writeArchive output directory inputs options.lz4
      (Payload.chosenBuffer options.buffer)).runOn
      (before.track fun tracker => tracker.init directory.payloadSize) with
  | mk outcome ended =>
      obtain ⟨adds, booked⟩ := writeArchive_adds output directory inputs options.lz4 _ valid.1 _ ended
        outcome writing
      have noted := booked.map Prod.snd fun (entry : Entry) => entry.size.toNat
      rw [writing] at ran
      rw [entries] at noted
      cases ran
      exact Accounted.of_adds sized tracked (by rw [compressBook, Action.total_map]; exact adds) noted

/-- A run that gets as far as its transfers, with the directory it goes by, the amounts that were taken of the
payloads, and what it prints besides its progress: an extraction the names of the entries it starts, a
compression nothing. -/
inductive Transfers (before : Workspace) : Directory → List (Entry × Nat) → Bytes → Except Failure Unit →
    Workspace → Prop
  | extract (path : Bytes) (options : ExtractOptions) (archive : Archive) (list : List Task)
      (opened started after : Workspace) (book : List (Entry × Nat)) (result : Except Failure Unit)
      (vetted : (vet path options).runOn before = (.ok (archive, list), opened))
      (made : (makeOutput options).runOn opened = (.ok (), started))
      (booked : book = archive.extractBook (Payload.chosenBuffer options.buffer) list
        (started.track fun tracker => tracker.init archive.directory.payloadSize))
      (ran : (extract path options).runOn before = (result, after)) :
      Transfers before archive.directory book
        (book.flatMap fun noted => noted.1.name ++ [Bytes.newline]) result after
  | compress (output : Bytes) (paths : List Bytes) (options : CompressOptions) (inputs : List Input)
      (directory : Directory) (measured after : Workspace) (book : List (Entry × Nat))
      (result : Except Failure Unit)
      (valid : Payload.ValidBuffer (Payload.chosenBuffer options.buffer))
      (measuring : (paths.mapM measure).runOn before = (.ok inputs, measured))
      (planned : Directory.layout (inputs.map (·.name)) (inputs.map (·.size)) = .ok directory)
      (booked : book = compressBook output directory inputs options.lz4
        (Payload.chosenBuffer options.buffer)
        (before.track fun tracker => tracker.init directory.payloadSize))
      (ran : (compress output paths options).runOn before = (result, after)) :
      Transfers before directory book [] result after

/-- A workspace where the second member has no room, with a tracker that has counted before. -/
def countedBefore : Workspace :=
  { secondOutOfRoom with tracker := some { enabled := false, clock := .still 0, processed := 7 } }

def textAndScriptDirectory : Directory where
  header := .standard
  entries := [⟨0, utf8 "r\u00e9sum\u00e9", 0, 4⟩, ⟨8, utf8 "run.s", 4, 0⟩, ⟨13, utf8 "run.s", 4, 0⟩]
  dataStart := 49

end IgaArchive.Archive

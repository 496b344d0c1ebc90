import IgaArchive.Proofs.Archive.Plan

/-!
Creating an archive comes to its end, in a frame or not, once its inputs are measured and laid out and its
output is made as a regular file with room that is none of them. Such a file takes whatever is sent to it,
and the inputs still have all the bytes they were measured to have.
-/

namespace IgaArchive.Archive.Output

/-- An output that can go on: no write has failed, and a regular file has room for any more. -/
structure Able (output : Output) (store : Store) : Prop where
  healthy : output.failed = none
  file : ∃ contents, store.node? output.location = some (.file contents)
  room : (store.terms output.location).room = none

/-- A step after which an output can go on. -/
structure Proceeds (before next : Output) (store after : Store) : Prop where
  changes : Store.ChangesOnly (· = before.location) store after
  located : next.location = before.location
  able : Able next after

theorem Proceeds.refl {output : Output} {store : Store} (able : Able output store) :
    Proceeds output output store store :=
  ⟨.refl _ _, rfl, able⟩

theorem Proceeds.trans {before middle next : Output} {store between after : Store}
    (earlier : Proceeds before middle store between) (later : Proceeds middle next between after) :
    Proceeds before next store after := by
  obtain ⟨changes, located, able⟩ := later
  rw [earlier.located] at changes located
  exact ⟨earlier.changes.trans changes, located, able⟩

theorem Proceeds.holding {before next : Output} {store after : Store}
    (proceeds : Proceeds before next store after) (buffered : Bytes) (frame : Option Lz4.Writer) :
    Proceeds before { next with buffered, frame } store after :=
  ⟨proceeds.changes, proceeds.located, proceeds.able.healthy, proceeds.able.file, proceeds.able.room⟩

section Able

variable (output : Output) (store : Store) (able : Able output store)
include able

theorem send_proceeds (bytes : Bytes) :
    Proceeds output (output.send store bytes).1 store (output.send store bytes).2.1 := by
  obtain ⟨healthy, ⟨contents, present⟩, room⟩ := able
  have below : output.location ≠ [] := by
    intro root
    rw [root] at present
    cases present
  have changes := Store.writeAt_changesOnly store output.location output.position bytes
  refine ⟨changes, rfl, ?_, ?_, ?_⟩
  · simp [send, Store.writeAt, present, room, Store.fitting]
  · simp only [send, Store.writeAt, present]
    split
    · exact ⟨contents, present⟩
    · exact ⟨_, by rw [Store.node?_put _ _ _ _ below, if_pos rfl]⟩
  · rw [← changes.terms] at room
    exact room

theorem flush_proceeds :
    Proceeds output (output.flush store).1 store (output.flush store).2 := by
  rw [flush]
  split
  · exact .refl able
  · exact (send_proceeds output store able output.buffered).holding _ _

theorem putEmpty_proceeds (bytes : Bytes) :
    Proceeds output (output.putEmpty store bytes).1 store (output.putEmpty store bytes).2.1 := by
  rw [putEmpty]
  split
  · exact (Proceeds.refl able).holding bytes _
  · exact send_proceeds output store able bytes

theorem put_proceeds (bytes : Bytes) :
    Proceeds output (output.put store bytes).1 store (output.put store bytes).2.1 := by
  rw [put]
  dsimp only
  rw [if_neg (by simp [able.healthy])]
  split
  · exact (Proceeds.refl able).holding _ _
  · split
    · exact putEmpty_proceeds output store able bytes
    · generalize bufferRoom - output.buffered.length = free
      have filled := (Proceeds.refl able).holding (output.buffered ++ bytes.take free) output.frame
      have flushed := filled.trans (flush_proceeds _ store filled.able)
      rw [if_neg (by simp [flushed.able.healthy])]
      exact flushed.trans (putEmpty_proceeds _ _ flushed.able (bytes.drop free))

theorem putAll_proceeds (parts : List Bytes) :
    Proceeds output (output.putAll store parts).1 store (output.putAll store parts).2 := by
  induction parts generalizing output store with
  | nil => exact .refl able
  | cons part parts ih =>
      have first := put_proceeds output store able part
      simp only [putAll, first.able.healthy, Option.isSome_none, Bool.false_eq_true, if_false]
      exact first.trans (ih _ _ first.able)

theorem write_proceeds (bytes : Bytes) :
    Proceeds output (output.write store bytes).1 store (output.write store bytes).2.1 := by
  rw [write]
  split
  · exact put_proceeds output store able bytes
  · rename_i writer _
    have framed := (Proceeds.refl able).holding output.buffered (some (writer.write bytes).2)
    exact framed.trans (putAll_proceeds _ store framed.able _)

theorem closeFrame_proceeds :
    Proceeds output (output.closeFrame store).1 store (output.closeFrame store).2 := by
  rw [closeFrame]
  split
  · exact .refl able
  · exact putAll_proceeds output store able _

end Able

end IgaArchive.Archive.Output

namespace IgaArchive.Archive

theorem withOutput_completes (step : Step) (output : Output) (act : Output → Store → Output × Store)
    (before : Workspace)
    (proceeds : output.Proceeds (act output before.store).1 before.store (act output before.store).2) :
    ∃ next store, (withOutput step output act).runOn before = (.ok next, { before with store }) ∧
      output.Proceeds next before.store store := by
  refine ⟨_, _, ?_, proceeds⟩
  simp only [Action.runOn, withOutput, proceeds.able.healthy]

/-- An input with all the bytes of its member to be read, away from a location. -/
def Awaits (store : Store) (location : Location) (source : Bytes × Member) : Prop :=
  store.openForReading source.1 = .ok (store.place source.1, .file (.ofBytes source.2.contents)) ∧
    store.place source.1 ≠ location

theorem Awaits.again {may : Location → Prop} {before after : Store} {location : Location}
    {source : Bytes × Member} (awaits : Awaits before location source)
    (changes : Store.ChangesOnly may before after) (spared : ¬ may (before.place source.1)) :
    Awaits after location source := by
  obtain ⟨opens, apart⟩ := awaits
  obtain ⟨found, readable⟩ := Store.openForReading_eq_ok.mp opens
  have present := (Store.find_eq_ok _ _ _ _ found).2.2.2
  rw [Awaits, changes.place_eq, Store.openForReading_eq_ok, changes.terms]
  refine ⟨⟨Store.find_again changes _ _ _ found ?_, readable⟩, apart⟩
  rw [changes.outside _ spared, present]

theorem Awaits.readAt_length {store : Store} {location : Location} {source : Bytes × Member}
    (awaits : Awaits store location source) (position length : Nat)
    (inside : position + length ≤ source.2.contents.length) :
    (store.readAt (store.place source.1) position length).length = length := by
  have present := (Store.find_eq_ok _ _ _ _ (Store.openForReading_eq_ok.mp awaits.1).1).2.2.2
  rw [Store.readAt, present]
  simp only [Contents.slice_eq, Contents.toBytes_ofBytes, List.length_take, List.length_drop]
  omega

theorem appendPayload_completes (output : Output) (buffer : Int) (source : Bytes × Member)
    (entry : Entry) (before : Workspace) (positive : 0 < buffer) (able : output.Able before.store)
    (awaits : Awaits before.store output.location source)
    (sized : entry.size.toNat ≤ source.2.contents.length) :
    ∃ next after, (appendPayload output buffer (inputOf source) entry).runOn before =
      (.ok next, after) ∧ output.Proceeds next before.store after.store := by
  have opened := Action.openForReading_run .openInput (inputOf source).path before _ _ awaits.1
  have outcome := Payload.transferFrom_outcome
    (fun sink : OutputSink => sink.workspace.store.readAt (before.store.place source.1))
    OutputSink.write (Payload.key entry.name .byName) buffer.toNat entry.size.toNat
    (fun _ sink => output.Proceeds sink.output before.store sink.workspace.store) (by omega)
    (by
      intro position sink next proceeds _ _ written
      have step := Output.write_proceeds sink.output sink.workspace.store proceeds.able
        (Payload.transform (Payload.key entry.name .byName) (Int64.ofNat position)
          (sink.workspace.store.readAt (before.store.place source.1) position
            (min buffer.toNat (entry.size.toNat - position))))
      simp only [OutputSink.write] at written
      obtain ⟨rfl, _⟩ := Prod.mk.inj written
      exact proceeds.trans step)
    0 { workspace := before, output } (.refl able) (Nat.zero_le _)
  rw [appendPayload, Action.bind_of_ok _ _ _ _ _ opened, Action.during_run]
  simp only [Action.runOn, Payload.transfer]
  rcases outcome with ⟨final, run, proceeds⟩ | ⟨reached, final, proceeds, more, short, _⟩ |
    ⟨reached, sink, next, fault, proceeds, _, _, refused, _⟩
  · rw [run]
    exact ⟨final.output, final.workspace, rfl, proceeds⟩
  · have standing := awaits.again proceeds.changes awaits.2
    have whole := standing.readAt_length reached (min buffer.toNat (entry.size.toNat - reached))
      (by omega)
    rw [proceeds.changes.place_eq] at whole
    omega
  · have step := Output.write_proceeds sink.output sink.workspace.store proceeds.able
      (Payload.transform (Payload.key entry.name .byName) (Int64.ofNat reached)
        (sink.workspace.store.readAt (before.store.place source.1) reached
          (min buffer.toNat (entry.size.toNat - reached))))
    simp only [OutputSink.write, step.able.healthy] at refused
    cases refused

theorem appendPayloads_completes (pairs : List ((Bytes × Member) × Entry)) (output : Output)
    (buffer : Int) (before : Workspace) (positive : 0 < buffer) (able : output.Able before.store)
    (awaits : ∀ pair ∈ pairs, Awaits before.store output.location pair.1)
    (sized : ∀ pair ∈ pairs, pair.2.size.toNat ≤ pair.1.2.contents.length) :
    ∃ next after, (appendPayloads buffer (pairs.map (Prod.map inputOf id)) output).runOn before =
      (.ok next, after) ∧ output.Proceeds next before.store after.store := by
  induction pairs generalizing output before with
  | nil => exact ⟨output, before, rfl, .refl able⟩
  | cons pair pairs ih =>
      obtain ⟨next, between, first, proceeds⟩ := appendPayload_completes output buffer pair.1 pair.2
        before positive able (awaits pair (by simp)) (sized pair (by simp))
      have standing : ∀ other ∈ pairs, Awaits between.store next.location other.1 := by
        intro other inside
        have waiting := awaits other (List.mem_cons_of_mem _ inside)
        rw [proceeds.located]
        exact waiting.again proceeds.changes waiting.2
      obtain ⟨last, after, rest, later⟩ := ih next between proceeds.able standing
        (fun other inside => sized other (List.mem_cons_of_mem _ inside))
      refine ⟨last, after, ?_, proceeds.trans later⟩
      exact (Action.bind_of_ok _ _ _ _ _ first).trans rest

theorem closeOutput_completes (output : Output) (before : Workspace) (able : output.Able before.store)
    (closes : (before.store.terms output.location).closing = none) :
    ∃ after, (closeOutput output).runOn before = (.ok (), after) := by
  obtain ⟨unframed, store, closing, later⟩ := withOutput_completes .closeFrame output Output.closeFrame
    before (Output.closeFrame_proceeds output before.store able)
  obtain ⟨flushed, last, flushing, ended⟩ := withOutput_completes .flushOutput unframed Output.flush
    { before with store } (Output.flush_proceeds unframed store later.able)
  have whole := later.trans ended
  have closed : last.close flushed.path flushed.location = .ok () := by
    simp only [Store.close, whole.located, whole.changes.terms, closes]
  refine ⟨{ before with store := last }, ?_⟩
  rw [closeOutput, Action.bind_of_ok _ _ _ _ _ closing, Action.bind_of_ok _ _ _ _ _ flushing]
  exact Action.during_eq_ok.mpr (Action.ask_eq_ok.mpr ⟨closed, rfl⟩)

theorem filling_completes (pairs : List ((Bytes × Member) × Entry)) (output : Output) (buffer : Int)
    (before : Workspace) (positive : 0 < buffer) (able : output.Able before.store)
    (closes : (before.store.terms output.location).closing = none)
    (awaits : ∀ pair ∈ pairs, Awaits before.store output.location pair.1)
    (sized : ∀ pair ∈ pairs, pair.2.size.toNat ≤ pair.1.2.contents.length) :
    ∃ after, (do
      let output ← appendPayloads buffer (pairs.map (Prod.map inputOf id)) output
      closeOutput output : Action Unit).runOn before = (.ok (), after) := by
  obtain ⟨next, between, appended, proceeds⟩ :=
    appendPayloads_completes pairs output buffer before positive able awaits sized
  obtain ⟨after, closed⟩ := closeOutput_completes next between proceeds.able (by
    rw [proceeds.located, proceeds.changes.terms, closes])
  exact ⟨after, (Action.bind_of_ok _ _ _ _ _ appended).trans closed⟩

theorem headed_completes (message : Bytes) (pairs : List ((Bytes × Member) × Entry)) (output : Output)
    (buffer : Int) (before : Workspace) (positive : 0 < buffer) (able : output.Able before.store)
    (closes : (before.store.terms output.location).closing = none)
    (unreached : ¬ before.log.Reaches before.store output.location)
    (awaits : ∀ pair ∈ pairs, Awaits before.store output.location pair.1)
    (quiet : ∀ pair ∈ pairs, ¬ before.log.Reaches before.store (before.store.place pair.1.1))
    (sized : ∀ pair ∈ pairs, pair.2.size.toNat ≤ pair.1.2.contents.length) :
    ∃ after, (do
      Action.detail message
      let output ← appendPayloads buffer (pairs.map (Prod.map inputOf id)) output
      closeOutput output : Action Unit).runOn before = (.ok (), after) := by
  have noting := (Log.detail_spec before.log before.store message).1
  obtain ⟨contents, present⟩ := able.file
  rw [← noting.outside _ unreached] at present
  rw [Action.bind_of_ok _ _ _ _ _ (Action.detail_run message before)]
  rw [← noting.terms] at closes
  have ready : output.Able (before.log.detail before.store message).1 :=
    ⟨able.healthy, ⟨contents, present⟩, by rw [noting.terms, able.room]⟩
  apply filling_completes pairs output buffer _ positive ready closes _ sized
  intro pair inside
  exact (awaits pair inside).again noting (quiet pair inside)

theorem measure_completes (path : Bytes) (member : Member) (before : Workspace)
    (found : memberAt? before.store path = some member) :
    (measure path).runOn before = (.ok (inputOf (path, member)), before) := by
  obtain ⟨named, present⟩ := memberAt?_eq_some before.store path member found
  have naming : (Action.ofExcept (memberName path)).runOn before = (.ok member.name, before) := by
    rw [memberName, named]
    rfl
  have asking : (Action.during .statInput (Action.ask (·.stat path))).runOn before =
      (.ok (.file (.ofBytes member.contents)), before) := by
    apply Action.during_eq_ok.mpr
    apply Action.ask_eq_ok.mpr
    simp [Store.stat, Store.faulting, present, Except.map]
  rw [measure, Action.bind_of_ok _ _ _ _ _ naming, Action.bind_of_ok _ _ _ _ _ asking]
  have size : (Contents.ofBytes member.contents).size = member.contents.length := by
    rw [← Contents.length_toBytes, Contents.toBytes_ofBytes]
  simp only [size]
  rfl

theorem mapM_measure_completes (paths : List Bytes) (members : List Member) (before : Workspace)
    (found : paths.mapM (memberAt? before.store) = some members) :
    (paths.mapM measure).runOn before = (.ok ((paths.zip members).map inputOf), before) := by
  induction paths generalizing members with
  | nil =>
      cases found
      rfl
  | cons path paths ih =>
      obtain ⟨member, rest, first, later, rfl⟩ := mapM_memberAt?_cons found
      have measured := measure_completes path member before first
      rw [List.mapM_cons, Action.bind_of_ok _ _ _ _ _ measured,
        Action.bind_of_ok _ _ _ _ _ (ih rest later)]
      rfl

/-- What is to be there before an archive is made from some paths. -/
structure Prospect (output : Bytes) (paths : List Bytes) (members : List Member)
    (directory : Directory) (location : Location) (created : Store) (before : Workspace) : Prop where
  inputs : paths.mapM (memberAt? before.store) = some members
  planned : Directory.layout (members.map Member.name)
    (members.map fun member => Int64.ofNat member.contents.length) = .ok directory
  creating : before.store.create output = .ok (location, created)
  regular : before.store.node? location ≠ some .fullDevice
  unlimited : before.store.terms location = {}
  readable : ∀ path ∈ paths, (before.store.terms (before.store.place path)).readable = true
  apart : ∀ path ∈ paths, before.store.place path ≠ location
  unreached : ¬ before.log.Reaches before.store location
  quiet : ∀ path ∈ paths, ¬ before.log.Reaches before.store (before.store.place path)

section Prospect

variable {output : Bytes} {paths : List Bytes} {members : List Member} {directory : Directory}
variable {location : Location} {created : Store} {before : Workspace}
variable (prospect : Prospect output paths members directory location created before)
include prospect

theorem Prospect.making : Store.ChangesOnly (· = location) before.store created := by
  obtain ⟨place, making⟩ := Store.create_changesOnly _ _ _ _ prospect.creating
  rw [place]
  exact making

theorem Prospect.awaits :
    ∀ source ∈ paths.zip members, Awaits before.store location source := by
  intro source inside
  have found := memberAt?_of_mem_zip before.store paths members prospect.inputs source inside
  have listed := (List.of_mem_zip inside).1
  refine ⟨Store.openForReading_eq_ok.mpr ⟨?_, prospect.readable source.1 listed⟩,
    prospect.apart source.1 listed⟩
  exact (memberAt?_eq_some before.store source.1 source.2 found).2

theorem Prospect.able (lz4 : Bool) :
    Output.Able { path := output, location, frame := if lz4 then some {} else none } created := by
  refine ⟨rfl, ?_, by simp only [prospect.making.terms, prospect.unlimited]⟩
  have same := Store.create_sameDevices _ _ _ _ prospect.creating location
  rcases Store.create_fresh _ _ _ _ prospect.creating with empty | device
  · exact ⟨_, empty⟩
  · exact absurd (same.mp device) prospect.regular

theorem Prospect.writes (lz4 : Bool) (buffer : Int) (positive : 0 < buffer) :
    ∃ after, (writeArchive output directory ((paths.zip members).map inputOf) lz4 buffer).runOn before =
      (.ok (), after) := by
  obtain ⟨_, encoded, laid⟩ := Directory.layout_eq_ok _ _ directory prospect.planned
  have plan : Plan before.store paths members directory encoded :=
    ⟨prospect.inputs, prospect.planned, laid.written⟩
  have creating : (Action.during .createOutput (Action.alter (·.create output))).runOn before =
      (.ok location, { before with store := created }) :=
    Action.during_eq_ok.mpr (Action.alter_eq_ok.mpr ⟨created, prospect.creating, rfl⟩)
  have encoding : (Action.ofExcept (directory.encode.mapError Failure.layout)).runOn
      { before with store := created } = (.ok encoded, { before with store := created }) :=
    Action.ofExcept_eq_ok.mpr ⟨Result.mapError_eq_ok.mpr laid.written, rfl⟩
  obtain ⟨headed, store, heading, proceeds⟩ := withOutput_completes .writeDirectory _
    (fun output store => ((output.write store encoded).1, (output.write store encoded).2.1))
    { before with store := created }
    (Output.write_proceeds _ created (prospect.able lz4) encoded)
  have located : headed.location = location := proceeds.located
  have soFar := prospect.making.trans proceeds.changes
  obtain ⟨after, filled⟩ := headed_completes (output ++ utf8 ": " ++
      Numeral.decimal directory.entries.length ++ utf8 " entries, data start " ++
      Numeral.signed directory.dataStart.toInt)
    ((paths.zip members).zip directory.entries) headed buffer { before with store } positive
    proceeds.able
    (by rw [located, soFar.terms, prospect.unlimited])
    (by
      rw [located, Log.reaches_congr soFar]
      exact prospect.unreached)
    (by
      intro pair inside
      have waiting := prospect.awaits pair.1 (List.of_mem_zip inside).1
      rw [located]
      exact waiting.again soFar waiting.2)
    (by
      intro pair inside
      rw [soFar.place_eq, Log.reaches_congr soFar]
      exact prospect.quiet pair.1.1 (List.of_mem_zip (List.of_mem_zip inside).1).1)
    plan.sized.2
  refine ⟨after, ?_⟩
  rw [writeArchive, Action.bind_of_ok _ _ _ _ _ creating, Action.bind_of_ok _ _ _ _ _ encoding,
    List.zip_map_left]
  exact (Action.bind_of_ok _ _ _ _ _ heading).trans filled

/-- An archive is made from inputs that are there and fit into a directory, wherever a regular file can be
made that is none of them. -/
theorem Prospect.completes (options : CompressOptions)
    (valid : Payload.ValidBuffer (Payload.chosenBuffer options.buffer)) :
    ∃ after, (compress output paths options).runOn before = (.ok (), after) := by
  have tracked : Prospect output paths members directory location created
      (before.track fun tracker => tracker.init directory.payloadSize) :=
    ⟨prospect.inputs, prospect.planned, prospect.creating, prospect.regular, prospect.unlimited,
      prospect.readable, prospect.apart, prospect.unreached, prospect.quiet⟩
  obtain ⟨ended, written⟩ := tracked.writes options.lz4 _ valid.1
  have planning := prospect.planned
  rw [← layout_measured paths members (map_snd_zip _ paths members prospect.inputs)] at planning
  refine ⟨ended.track Tracker.stop, ?_⟩
  rw [compress, Action.bind_of_ok _ _ _ _ _ (Action.checkBuffer_run valid before),
    Action.bind_of_ok _ _ _ _ _ (mapM_measure_completes paths members before prospect.inputs),
    Action.bind_of_ok _ _ _ _ _ (Action.ofExcept_eq_ok.mpr
      ⟨Result.mapError_eq_ok.mpr planning, Eq.refl before⟩),
    Action.tracked_run, written]

end Prospect

end IgaArchive.Archive

import IgaArchive.Proofs.Action
import IgaArchive.Proofs.Archive.Drawing

/-!
Creating an archive writes the container of its inputs, byte for byte, whatever the transfer buffer,
the flushes of the output and the tracker; no other file changes. An input that is the output itself is
the one exception: the front of the file that comes out is stored in its place.
-/

namespace IgaArchive.Archive

/-- The member that an input path stands for, if it leads to a regular file. -/
def memberAt? (store : Store) (path : Bytes) : Option Member :=
  match Path.fileName? path, store.find path with
  | some name, .ok (_, .file contents) => some ⟨name, contents.toBytes⟩
  | _, _ => none

theorem memberAt?_eq_some (store : Store) (path : Bytes) (member : Member)
    (found : memberAt? store path = some member) :
    Path.fileName? path = some member.name ∧
      store.find path = .ok (store.place path, .file (.ofBytes member.contents)) := by
  rw [memberAt?] at found
  split at found
  · rename_i name location contents named present
    cases found
    have place := (Store.find_eq_ok store path location _ present).2.2.1
    rw [named, present, place, Contents.ofBytes_toBytes]
    exact ⟨rfl, rfl⟩
  · cases found

def inputOf (source : Bytes × Member) : Input :=
  { name := source.2.name, path := source.1, size := Int64.ofNat source.2.contents.length }

theorem measure_eq_ok (path : Bytes) (input : Input) (before after : Workspace)
    (measured : (measure path).runOn before = (.ok input, after)) :
    before = after ∧ ∃ member, memberAt? before.store path = some member ∧
      input = inputOf (path, member) := by
  rw [measure] at measured
  obtain ⟨name, _, naming, rest⟩ := Action.bind_eq_ok measured
  obtain ⟨named, rfl⟩ := Action.ofExcept_eq_ok.mp naming
  obtain ⟨node, _, asking, last⟩ := Action.bind_eq_ok rest
  obtain ⟨present, rfl⟩ := Action.ask_eq_ok.mp (Action.during_eq_ok.mp asking)
  have fileName : Path.fileName? path = some name := by
    rw [memberName] at named
    split at named <;> cases named
    assumption
  have found := Result.mapError_eq_ok.mp present
  cases looked : before.store.find path with
  | error errno =>
      rw [looked] at found
      cases found
  | ok target =>
      obtain ⟨location, there⟩ := target
      rw [looked] at found
      cases found
      cases there with
      | file contents =>
          obtain ⟨rfl, rfl⟩ := Action.pure_eq_ok.mp last
          refine ⟨rfl, ⟨name, contents.toBytes⟩, by simp [memberAt?, fileName, looked], ?_⟩
          simp [inputOf, Contents.length_toBytes]
      | directory => cases last
      | fullDevice => cases last

theorem mapM_measure_eq_ok (paths : List Bytes) (inputs : List Input) (before after : Workspace)
    (measured : (paths.mapM measure).runOn before = (.ok inputs, after)) :
    before = after ∧ ∃ members, paths.mapM (memberAt? before.store) = some members ∧
      inputs = (paths.zip members).map inputOf := by
  induction paths generalizing inputs before after with
  | nil =>
      obtain ⟨rfl, rfl⟩ := Action.pure_eq_ok.mp measured
      exact ⟨rfl, [], rfl, rfl⟩
  | cons path paths ih =>
      rw [List.mapM_cons] at measured
      obtain ⟨input, _, first, rest⟩ := Action.bind_eq_ok measured
      obtain ⟨rfl, member, found, rfl⟩ := measure_eq_ok path input before _ first
      obtain ⟨later, _, remaining, last⟩ := Action.bind_eq_ok rest
      obtain ⟨rfl, members, others, rfl⟩ := ih later before _ remaining
      obtain ⟨rfl, rfl⟩ := Action.pure_eq_ok.mp last
      exact ⟨rfl, member :: members, by simp [found, others], rfl⟩

theorem mapM_memberAt?_cons {store : Store} {path : Bytes} {paths : List Bytes} {members : List Member}
    (found : (path :: paths).mapM (memberAt? store) = some members) :
    ∃ member rest, memberAt? store path = some member ∧ paths.mapM (memberAt? store) = some rest ∧
      members = member :: rest := by
  simp only [List.mapM_cons, Option.bind_eq_bind, Option.bind_eq_some_iff] at found
  obtain ⟨member, first, rest, later, same⟩ := found
  exact ⟨member, rest, first, later, (Option.some.inj same).symm⟩

theorem mapM_memberAt?_length (store : Store) (paths : List Bytes) (members : List Member)
    (found : paths.mapM (memberAt? store) = some members) : members.length = paths.length := by
  induction paths generalizing members with
  | nil =>
      cases found
      rfl
  | cons path paths ih =>
      obtain ⟨member, rest, first, later, rfl⟩ := mapM_memberAt?_cons found
      simp [ih rest later]

theorem memberAt?_of_mem_zip (store : Store) (paths : List Bytes) (members : List Member)
    (found : paths.mapM (memberAt? store) = some members) (source : Bytes × Member)
    (inside : source ∈ paths.zip members) : memberAt? store source.1 = some source.2 := by
  induction paths generalizing members with
  | nil => cases inside
  | cons path paths ih =>
      obtain ⟨member, rest, first, later, rfl⟩ := mapM_memberAt?_cons found
      rcases List.mem_cons.mp inside with here | inside
      · rw [here]
        exact first
      · exact ih rest later inside

theorem withOutput_eq_ok (step : Step) (output next : Output)
    (act : Output → Store → Output × Store) (before after : Workspace)
    (acted : (withOutput step output act).runOn before = (.ok next, after)) :
    ∃ store, act output before.store = (next, store) ∧ next.failed = none ∧
      { before with store } = after := by
  simp only [Action.runOn, withOutput] at acted
  cases acting : act output before.store with
  | mk last store =>
      rw [acting] at acted
      simp only at acted
      split at acted
      · rename_i healthy
        cases acted
        exact ⟨store, rfl, healthy, rfl⟩
      · cases acted

theorem appendPayload_draws (output next : Output) (buffer : Int) (path : Bytes) (member : Member)
    (entry : Entry) (container stream : Bytes) (before after : Workspace) (positive : 0 < buffer)
    (conveys : Output.Conveys container stream output before.store)
    (stands : Stands before.store output.location (before.store.place path) member.contents)
    (appended : (appendPayload output buffer (inputOf (path, member)) entry).runOn before =
      (.ok next, after)) :
    OutputSink.Drew { workspace := before, output } container stream (before.store.place path)
      member.contents (Payload.key entry.name .byName) entry.size.toNat
      { workspace := after, output := next } := by
  rw [appendPayload] at appended
  obtain ⟨target, _, opening, rest⟩ := Action.bind_eq_ok appended
  obtain ⟨opened, rfl⟩ := Action.ask_eq_ok.mp (Action.during_eq_ok.mp opening)
  obtain ⟨location, node⟩ := target
  obtain ⟨_, _, place, _⟩ :=
    Store.find_eq_ok before.store path location node (Store.openForReading_eq_ok.mp opened).1
  have moved := Action.during_eq_ok.mp rest
  have start : OutputSink.Drew { workspace := before, output } container stream location member.contents
      (Payload.key entry.name .byName) 0 { workspace := before, output } := by
    refine ⟨[], stream, rfl, List.prefix_refl _, List.nil_prefix, ?_⟩
    have nothing : container ++ Payload.transform (Payload.key entry.name .byName) 0 [] = container :=
      List.append_nil _
    rw [nothing]
    exact .refl conveys
  have outcome := Payload.transferFrom_outcome
    (fun sink : OutputSink => sink.workspace.store.readAt location) OutputSink.write
    (Payload.key entry.name .byName) buffer.toNat entry.size.toNat
    (OutputSink.Drew { workspace := before, output } container stream location member.contents
      (Payload.key entry.name .byName)) (by omega)
    (by
      intro position sink next drew _ enough written
      exact OutputSink.write_drew _ sink next container stream location _ _ position _ (place ▸ stands)
        drew enough written)
    0 { workspace := before, output } start (Nat.zero_le _)
  simp only [Action.runOn, Payload.transfer] at moved
  rcases outcome with ⟨final, run, drew⟩ | ⟨_, _, _, _, _, run⟩ | ⟨_, _, _, _, _, _, _, _, run⟩
  · rw [run] at moved
    obtain ⟨same, rfl⟩ := Prod.mk.inj moved
    cases same
    exact place ▸ drew
  · rw [run] at moved
    cases moved
  · rw [run] at moved
    cases moved

/-- The payloads that a run of inputs comes to. They are fixed once they are read, so every file that
goes on with the stream tells what was stored. -/
structure Stores (sources : List (Bytes × Member)) (store : Store) (location : Location)
    (later : Bytes) (stored : List Member) : Prop where
  outlines : stored.map Member.outline = (sources.map Prod.snd).map Member.outline
  contents : ∀ file, later <+: file → stored = sources.map (storedAs store location file)

theorem appendPayloads_draws (sources : List (Bytes × Member)) (nameOffset offset : Nat)
    (output next : Output) (buffer : Int) (container stream : Bytes) (before after : Workspace)
    (positive : 0 < buffer)
    (small : ∀ source ∈ sources, source.2.contents.length ≤ Directory.maxField)
    (conveys : Output.Conveys container stream output before.store)
    (stands : ∀ source ∈ sources,
      Stands before.store output.location (before.store.place source.1) source.2.contents)
    (appended : (appendPayloads buffer ((sources.map inputOf).zip
        (Directory.consecutive nameOffset offset ((sources.map Prod.snd).map Member.outline)))
        output).runOn before = (.ok next, after)) :
    ∃ stored later, stream <+: later ∧ Stores sources before.store output.location later stored ∧
      Output.Moves (container ++ stored.flatMap sealed) later output next before.store after.store := by
  induction sources generalizing nameOffset offset output container stream before with
  | nil =>
      obtain ⟨rfl, rfl⟩ := Action.pure_eq_ok.mp appended
      refine ⟨[], stream, List.prefix_refl _, ⟨rfl, fun _ _ => rfl⟩, ?_⟩
      rw [List.flatMap_nil, List.append_nil]
      exact .refl conveys
  | cons source sources ih =>
      obtain ⟨path, member⟩ := source
      simp only [List.map_cons, Member.outline, Directory.consecutive, List.zip_cons_cons,
        appendPayloads] at appended
      obtain ⟨middle, between, first, rest⟩ := Action.bind_eq_ok appended
      have size := small (path, member) (by simp)
      obtain ⟨data, reached, length, longer, drawn, moves⟩ := appendPayload_draws output middle buffer
        path member _ container stream before between positive conveys (stands (path, member) (by simp))
        first
      have whole : data.length = member.contents.length := by
        rw [length]
        simp [Directory.maxField] at size ⊢
        omega
      have sealing := transform_eq_sealed ⟨member.name, data⟩
      dsimp only at moves sealing
      rw [sealing] at moves
      have standing : ∀ source ∈ sources, Stands between.store middle.location
          (between.store.place source.1) source.2.contents := by
        intro source inside
        rw [moves.changes.place_eq, moves.located]
        exact (stands source (List.mem_cons_of_mem _ inside)).again moves.changes moves.devices
      obtain ⟨stored, later, further, stores, run⟩ := ih _ _ middle _ reached between
        (fun source inside => small source (List.mem_cons_of_mem _ inside)) moves.conveys standing rest
      refine ⟨⟨member.name, data⟩ :: stored, later, longer.trans further, ⟨?_, ?_⟩, ?_⟩
      · rw [List.map_cons, List.map_cons, List.map_cons, stores.outlines, Member.outline,
          Member.outline, whole]
      · -- This front was drawn from an earlier stream, which every such file goes on with.
        intro file front
        have others := stores.contents file front
        rw [moves.located, storedAs_again moves.changes] at others
        rw [List.map_cons, ← others, (drawn.mono (further.trans front)).storedAs whole]
      · rw [List.flatMap_cons, ← List.append_assoc]
        exact moves.trans run

theorem create_received (store after : Store) (path : Bytes) (location : Location)
    (created : store.create path = .ok (location, after)) :
    Output.Received after location [] := by
  rcases Store.create_fresh store after path location created with empty | device
  · exact Or.inl (by rw [empty, Contents.empty_eq_ofBytes])
  · exact Or.inr ⟨device, rfl⟩

theorem withOutput_write_moves (step : Step) (output next : Output) (container stream bytes : Bytes)
    (before after : Workspace) (conveys : Output.Conveys container stream output before.store)
    (acted : (withOutput step output fun output store =>
      let (output, store, _) := output.write store bytes
      (output, store)).runOn before = (.ok next, after)) :
    ∃ more, Output.Moves (container ++ bytes) (stream ++ more) output next before.store after.store ∧
      after.log = before.log := by
  obtain ⟨store, writes, healthy, rfl⟩ := withOutput_eq_ok _ _ _ _ _ _ acted
  cases writing : output.write before.store bytes with
  | mk last rest =>
      obtain ⟨reached, taken⟩ := rest
      rw [writing] at writes
      cases writes
      obtain ⟨more, moves⟩ :=
        Output.write_moves container stream bytes output _ _ _ taken conveys writing healthy
      exact ⟨more, moves, rfl⟩

theorem ending_encases (output : Output) (container stream : Bytes) (before after : Workspace)
    (conveys : Output.Conveys container stream output before.store) (some : container ≠ [])
    (ended : (closeOutput output).runOn before = (.ok (), after)) :
    ∃ file, stream <+: file ∧ Encases output.frame.isSome file container ∧
      after.store.node? output.location = .some (.file (.ofBytes file)) ∧
      Store.ChangesOnly (· = output.location) before.store after.store := by
  rw [closeOutput] at ended
  obtain ⟨closed, _, closing, rest⟩ := Action.bind_eq_ok ended
  obtain ⟨store, closes, fine, rfl⟩ := withOutput_eq_ok _ _ _ _ _ _ closing
  obtain ⟨flushed, _, flushing, last⟩ := Action.bind_eq_ok rest
  obtain ⟨final, flushes, healthy, rfl⟩ := withOutput_eq_ok _ _ _ _ _ _ flushing
  obtain ⟨_, rfl⟩ := Action.ask_eq_ok.mp (Action.during_eq_ok.mp last)
  obtain ⟨more, delivers, encases⟩ :=
    Output.closeFrame_spec container stream output closed before.store store conveys some closes fine
  obtain ⟨file, changes⟩ := Output.flush_finishes _ closed flushed store final
    (delivers.carries fine) (encases.wraps.nonempty some) flushes healthy
  have located : closed.location = output.location := delivers.located
  rw [located] at file changes
  exact ⟨stream ++ more, List.prefix_append _ _, encases, file, delivers.changes.trans changes⟩

/-- A file that holds the container of what is stored of some inputs, under their names and sizes. -/
structure Archived (sources : List (Bytes × Member)) (store : Store) (location : Location)
    (wrapped : Bool) (file : Bytes) : Prop where
  outlines : (sources.map (storedAs store location file)).map Member.outline =
    (sources.map Prod.snd).map Member.outline
  encases : Encases wrapped file (containerOf (sources.map (storedAs store location file)))

theorem Archived.wraps {sources : List (Bytes × Member)} {store : Store} {location : Location}
    {wrapped : Bool} {file : Bytes} (archived : Archived sources store location wrapped file) :
    Wraps wrapped file (containerOf (sources.map (storedAs store location file))) :=
  archived.encases.wraps

theorem Archived.again {sources : List (Bytes × Member)} {may : Location → Prop} {before after : Store}
    {location : Location} {wrapped : Bool} {file : Bytes}
    (archived : Archived sources after location wrapped file)
    (changes : Store.ChangesOnly may before after) :
    Archived sources before location wrapped file := by
  have same := storedAs_again changes location file
  exact ⟨same ▸ archived.outlines, same ▸ archived.encases⟩

theorem containerOf_ne_nil (members : List Member) : containerOf members ≠ [] := by
  intro empty
  have length := congrArg List.length empty
  simp [containerOf, Header.encode_length, Header.size] at length

theorem filling_archives (sources : List (Bytes × Member)) (directory : Directory) (encoded : Bytes)
    (output : Output) (buffer : Int) (stream : Bytes) (before after : Workspace) (positive : 0 < buffer)
    (laid : Directory.LaidOut ((sources.map Prod.snd).map Member.outline) directory encoded)
    (conveys : Output.Conveys encoded stream output before.store)
    (stands : ∀ source ∈ sources,
      Stands before.store output.location (before.store.place source.1) source.2.contents)
    (filled : (do
      let output ← appendPayloads buffer ((sources.map inputOf).zip directory.entries) output
      closeOutput output : Action Unit).runOn before = (.ok (), after)) :
    ∃ file, Archived sources before.store output.location output.frame.isSome file ∧
      after.store.node? output.location = some (.file (.ofBytes file)) ∧
      Store.ChangesOnly (· = output.location) before.store after.store := by
  have fits := representable_of_laidOut _ directory encoded laid
  obtain ⟨last, between, appending, ending⟩ := Action.bind_eq_ok filled
  rw [laid.entries] at appending
  obtain ⟨stored, later, _, stores, moves⟩ := appendPayloads_draws sources 0 0 output last buffer encoded
    stream before between positive
    (fun source inside => fits.sizes source.2 (List.mem_map_of_mem inside)) conveys stands appending
  rw [← containerOf_eq stored directory encoded (stores.outlines ▸ laid)] at moves
  obtain ⟨file, front, encases, present, changes⟩ :=
    ending_encases last _ later between after moves.conveys (containerOf_ne_nil stored) ending
  rw [moves.located] at present changes
  rw [moves.framed] at encases
  have contents := stores.contents file front
  exact ⟨file, ⟨contents ▸ stores.outlines, contents ▸ encases⟩, present, moves.changes.trans changes⟩

theorem stands_of_present {store after : Store} {log : Log} {path : Bytes} {source : Bytes × Member}
    (changes : Store.ChangesOnly (log.TouchesWith store path) store after)
    (devices : after.node? (store.place path) = some .fullDevice →
      store.node? (store.place path) = some .fullDevice)
    (present : store.node? (store.place source.1) = some (.file (.ofBytes source.2.contents)))
    (quiet : ¬ log.Reaches store (store.place source.1)) :
    Stands after (store.place path) (after.place source.1) source.2.contents := by
  rw [changes.place_eq, Stands]
  split
  · rename_i same
    intro device
    rw [same, devices device] at present
    cases present
  · rename_i apart
    rw [changes.outside]
    · exact present
    · intro touched
      exact touched.elim apart quiet

theorem writeArchive_archives (path : Bytes) (directory : Directory) (encoded : Bytes)
    (sources : List (Bytes × Member)) (lz4 : Bool) (buffer : Int) (before after : Workspace)
    (positive : 0 < buffer)
    (laid : Directory.LaidOut ((sources.map Prod.snd).map Member.outline) directory encoded)
    (present : ∀ source ∈ sources, before.store.node? (before.store.place source.1) =
      some (.file (.ofBytes source.2.contents)))
    (unreached : ¬ before.log.Reaches before.store (before.store.place path))
    (quiet : ∀ source ∈ sources, ¬ before.log.Reaches before.store (before.store.place source.1))
    (written : (writeArchive path directory (sources.map inputOf) lz4 buffer).runOn before =
      (.ok (), after)) :
    ∃ file, Archived sources before.store (before.store.place path) lz4 file ∧
      after.store.openForReading path = .ok (before.store.place path, .file (.ofBytes file)) ∧
      Store.ChangesOnly (before.log.TouchesWith before.store path) before.store after.store := by
  rw [writeArchive] at written
  obtain ⟨location, _, creating, afterCreate⟩ := Action.bind_eq_ok written
  obtain ⟨created, creation, rfl⟩ := Action.alter_eq_ok.mp (Action.during_eq_ok.mp creating)
  obtain ⟨place, making⟩ := Store.create_changesOnly before.store created path location creation
  obtain ⟨head, _, encoding, afterEncode⟩ := Action.bind_eq_ok afterCreate
  obtain ⟨sameHead, rfl⟩ := Action.ofExcept_eq_ok.mp encoding
  rw [Result.mapError_eq_ok, laid.written] at sameHead
  cases sameHead
  obtain ⟨first, headed, heading, afterHead⟩ := Action.bind_eq_ok afterEncode
  obtain ⟨stream, moves, sameLog⟩ := withOutput_write_moves _ _ _ [] [] encoded _ _
    (Output.Conveys.start path location lz4 created
      (create_received before.store created path location creation)) heading
  obtain ⟨_, detailed, logging, afterDetail⟩ := Action.bind_eq_ok afterHead
  obtain ⟨_, detailing, _⟩ := Action.detail_eq_ok logging
  have located : first.location = before.store.place path := moves.located.trans place
  have wrapped : first.frame.isSome = lz4 := by
    rw [moves.framed]
    cases lz4 <;> rfl
  -- Up to the log line nothing but the output has changed; the log touches neither it nor an input.
  have start : Store.ChangesOnly (· = before.store.place path) before.store headed.store := by
    have later := moves.changes
    rw [place] at later
    exact making.trans later
  have devices : Store.SameDevices before.store headed.store :=
    (Store.create_sameDevices before.store created path location creation).trans moves.devices
  have logReach : ∀ other, headed.log.Reaches headed.store other ↔
      before.log.Reaches before.store other := by
    intro other
    rw [Log.reaches_congr start, sameLog]
  have soFar : Store.ChangesOnly (before.log.TouchesWith before.store path) before.store
      detailed.store := by
    refine (start.mono fun _ here => Or.inl here).trans (detailing.mono ?_)
    intro other reached
    exact Or.inr ((logReach other).mp reached)
  have kept : detailed.store.node? (before.store.place path) =
      headed.store.node? (before.store.place path) := by
    apply detailing.outside
    rw [logReach]
    exact unreached
  obtain ⟨file, archived, arrived, filling⟩ := filling_archives sources directory encoded first buffer
    stream detailed after positive laid (moves.conveys.again (by rw [located, kept]))
    (by
      intro source inside
      rw [located]
      refine stands_of_present soFar ?_ (present source inside) (quiet source inside)
      rw [kept]
      exact (devices _).mp)
    afterDetail
  rw [located] at archived arrived filling
  rw [wrapped] at archived
  have changes := soFar.trans (filling.mono fun _ here => Or.inl here)
  rw [← place] at arrived
  have opens : after.store.openForReading path = .ok (location, .file (.ofBytes file)) :=
    Store.open_created creation changes arrived nofun
  rw [place] at opens
  exact ⟨file, archived.again soFar, opens, changes⟩

theorem map_snd_zip (store : Store) (paths : List Bytes) (members : List Member)
    (found : paths.mapM (memberAt? store) = some members) :
    (paths.zip members).map Prod.snd = members := by
  have length := mapM_memberAt?_length store paths members found
  exact List.map_snd_zip (by omega)

/-- The layout takes names and sizes as they are, since no file is too large for its size. -/
theorem measured_inputs (sources : List (Bytes × Member))
    (sizes : ∀ source ∈ sources, source.2.contents.length < 0x8000000000000000) :
    (((sources.map inputOf).map Input.name).zip ((sources.map inputOf).map Input.size)).map
        Directory.measured =
      (sources.map Prod.snd).map Member.outline := by
  induction sources with
  | nil => rfl
  | cons source sources ih =>
      have size := sizes source (by simp)
      have rest := ih fun other inside => sizes other (List.mem_cons_of_mem _ inside)
      simp only [List.map_cons, List.zip_cons_cons, rest, inputOf, Directory.measured, Member.outline]
      rw [Int64.toNatClampNeg, Int64.toInt_ofNat_of_lt size]
      rfl

theorem layout_measured (paths : List Bytes) (members : List Member)
    (sources : (paths.zip members).map Prod.snd = members) :
    Directory.layout (((paths.zip members).map inputOf).map Input.name)
        (((paths.zip members).map inputOf).map Input.size) =
      Directory.layout (members.map Member.name)
        (members.map fun member => Int64.ofNat member.contents.length) := by
  have names : ((paths.zip members).map inputOf).map Input.name = members.map Member.name := by
    conv => rhs; rw [← sources]
    simp [inputOf]
  have sizes : ((paths.zip members).map inputOf).map Input.size =
      members.map fun member => Int64.ofNat member.contents.length := by
    conv => rhs; rw [← sources]
    simp [inputOf]
  rw [names, sizes]

/-- What a successful compression has done, whatever its inputs are. -/
structure Stored (output : Bytes) (paths : List Bytes) (wrapped : Bool) (before after : Workspace)
    (members : List Member) (directory : Directory) (encoded file : Bytes) : Prop where
  inputs : paths.mapM (memberAt? before.store) = some members
  planned : Directory.layout (members.map Member.name)
    (members.map fun member => Int64.ofNat member.contents.length) = .ok directory
  laid : Directory.LaidOut (members.map Member.outline) directory encoded
  archived : Archived (paths.zip members) before.store (before.store.place output) wrapped file
  written : after.store.openForReading output = .ok (before.store.place output, .file (.ofBytes file))
  changes : Store.ChangesOnly (before.log.TouchesWith before.store output) before.store after.store

theorem compress_stored (output : Bytes) (paths : List Bytes) (options : CompressOptions)
    (before after : Workspace)
    (sizes : ∀ members, paths.mapM (memberAt? before.store) = some members →
      ∀ member ∈ members, member.contents.length < 0x8000000000000000)
    (unreached : ¬ before.log.Reaches before.store (before.store.place output))
    (quiet : ∀ path ∈ paths, ¬ before.log.Reaches before.store (before.store.place path))
    (compressed : (compress output paths options).runOn before = (.ok (), after)) :
    ∃ members directory encoded file,
      Stored output paths options.lz4 before after members directory encoded file := by
  rw [compress] at compressed
  obtain ⟨_, _, checking, afterCheck⟩ := Action.bind_eq_ok compressed
  obtain ⟨checked, rfl⟩ := Action.ofExcept_eq_ok.mp checking
  obtain ⟨inputs, _, measuring, afterMeasure⟩ := Action.bind_eq_ok afterCheck
  obtain ⟨rfl, members, found, rfl⟩ := mapM_measure_eq_ok paths inputs before _ measuring
  obtain ⟨directory, _, planning, tracking⟩ := Action.bind_eq_ok afterMeasure
  obtain ⟨planned, rfl⟩ := Action.ofExcept_eq_ok.mp planning
  rw [Result.mapError_eq_ok] at planned
  obtain ⟨ended, written, rfl⟩ := Action.tracked_eq_ok tracking
  have sources := memberAt?_of_mem_zip before.store paths members found
  obtain ⟨_, encoded, laid⟩ := Directory.layout_eq_ok _ _ directory planned
  rw [measured_inputs (paths.zip members) fun source inside =>
    sizes members found source.2 (List.of_mem_zip inside).2] at laid
  obtain ⟨file, archived, arrived, changes⟩ := writeArchive_archives output directory encoded
    (paths.zip members) options.lz4 _ (before.track fun tracker => tracker.init directory.payloadSize)
    ended (Payload.checkBuffer_eq_ok.mp checked).1 laid
    (fun source inside => (Store.find_eq_ok _ _ _ _
      (memberAt?_eq_some _ _ _ (sources source inside)).2).2.2.2) unreached
    (fun source inside => quiet source.1 (List.of_mem_zip inside).1) written
  have all := map_snd_zip before.store paths members found
  rw [all] at laid
  refine ⟨members, directory, encoded, file, found, ?_, laid, archived, arrived, changes⟩
  rw [← layout_measured paths members all]
  exact planned

structure Compressed (output : Bytes) (paths : List Bytes) (before after : Workspace)
    (members : List Member) (directory : Directory) (encoded : Bytes) : Prop where
  inputs : paths.mapM (memberAt? before.store) = some members
  planned : Directory.layout (members.map Member.name)
    (members.map fun member => Int64.ofNat member.contents.length) = .ok directory
  laid : Directory.LaidOut (members.map Member.outline) directory encoded
  written : after.store.openForReading output =
    .ok (before.store.place output, .file (.ofBytes (containerOf members)))
  changes : Store.ChangesOnly (before.log.TouchesWith before.store output) before.store after.store

theorem compress_spec (output : Bytes) (paths : List Bytes) (options : CompressOptions)
    (before after : Workspace) (plain : options.lz4 = false)
    (sizes : ∀ members, paths.mapM (memberAt? before.store) = some members →
      ∀ member ∈ members, member.contents.length < 0x8000000000000000)
    (apart : ∀ path ∈ paths, before.store.place path ≠ before.store.place output)
    (unreached : ¬ before.log.Reaches before.store (before.store.place output))
    (quiet : ∀ path ∈ paths, ¬ before.log.Reaches before.store (before.store.place path))
    (compressed : (compress output paths options).runOn before = (.ok (), after)) :
    ∃ members directory encoded, Compressed output paths before after members directory encoded := by
  obtain ⟨members, directory, encoded, file, stored⟩ :=
    compress_stored output paths options before after sizes unreached quiet compressed
  have kept : (paths.zip members).map (storedAs before.store (before.store.place output) file) =
      members := by
    conv => rhs; rw [← map_snd_zip before.store paths members stored.inputs]
    apply List.map_congr_left
    intro source inside
    rw [storedAs, if_neg (apart source.1 (List.of_mem_zip inside).1)]
  have wraps := stored.archived.wraps
  rw [kept, plain] at wraps
  have written := stored.written
  rw [show file = containerOf members from wraps] at written
  exact ⟨members, directory, encoded, stored.inputs, stored.planned, stored.laid, written,
    stored.changes⟩

/-- A successful compression writes exactly the container of its inputs, for every buffer and every
tracker, and changes no other file. Sizes of files are 64-bit numbers; a log that is kept in a file may
touch that file as well. -/
theorem compress_writes_container (output : Bytes) (paths : List Bytes) (options : CompressOptions)
    (before after : Workspace) (plain : options.lz4 = false)
    (sizes : ∀ members, paths.mapM (memberAt? before.store) = some members →
      ∀ member ∈ members, member.contents.length < 0x8000000000000000)
    (apart : ∀ path ∈ paths, before.store.place path ≠ before.store.place output)
    (unreached : ¬ before.log.Reaches before.store (before.store.place output))
    (quiet : ∀ path ∈ paths, ¬ before.log.Reaches before.store (before.store.place path))
    (compressed : (compress output paths options).runOn before = (.ok (), after)) :
    ∃ members directory, paths.mapM (memberAt? before.store) = some members ∧
      after.store.find output =
        .ok (before.store.place output, .file (.ofBytes (containerOf members))) ∧
      Representable members ∧
      Directory.layout (members.map Member.name)
        (members.map fun member => Int64.ofNat member.contents.length) = .ok directory ∧
      ((containerOf members).length : Int) =
        directory.dataStart.toInt + directory.payloadSize.toNat ∧
      Store.ChangesOnly (before.log.TouchesWith before.store output) before.store after.store := by
  obtain ⟨members, directory, encoded, done⟩ :=
    compress_spec output paths options before after plain sizes apart unreached quiet compressed
  exact ⟨members, directory, done.inputs, (Store.openForReading_eq_ok.mp done.written).1,
    representable_of_laidOut members directory encoded done.laid, done.planned,
    containerOf_length members directory encoded done.laid, done.changes⟩

def textAndScript : Workspace where
  store := (Store.initial.put [utf8 "work", utf8 "r\u00e9sum\u00e9"] (.file (.ofBytes (utf8 "text")))).put
    [utf8 "work", utf8 "run.s"] (.file (.ofBytes []))
  tracker := some { enabled := true, clock := .ticking 0 1000000000 }

theorem compress_writes_container_smallest_buffer :
    ∃ after members, (compress (utf8 "out") [utf8 "r\u00e9sum\u00e9", utf8 "run.s", utf8 "run.s"]
        { buffer := 256 }).runOn textAndScript = (.ok (), after) ∧
      members = [⟨utf8 "r\u00e9sum\u00e9", utf8 "text"⟩, ⟨utf8 "run.s", []⟩, ⟨utf8 "run.s", []⟩] ∧
      after.store.find (utf8 "out") =
        .ok ([utf8 "work", utf8 "out"], .file (.ofBytes (containerOf members))) := by
  have works : ((compress (utf8 "out") [utf8 "r\u00e9sum\u00e9", utf8 "run.s", utf8 "run.s"]
      { buffer := 256 }).runOn textAndScript).1.toOption.isSome = true := by
    decide +kernel
  have inputs : [utf8 "r\u00e9sum\u00e9", utf8 "run.s", utf8 "run.s"].mapM (memberAt? textAndScript.store) =
      some [⟨utf8 "r\u00e9sum\u00e9", utf8 "text"⟩, ⟨utf8 "run.s", []⟩, ⟨utf8 "run.s", []⟩] := by
    decide +kernel
  obtain ⟨_, after, run⟩ := Action.exists_ok works
  obtain ⟨members, _, found, written, _⟩ := compress_writes_container _ _ _ textAndScript after rfl
    (by
      intro members found
      rw [inputs] at found
      cases found
      decide +kernel)
    (by decide +kernel) (fun reached => nomatch reached.1) (fun _ _ reached => nomatch reached.1) run
  rw [inputs] at found
  cases found
  exact ⟨after, _, run, rfl, written⟩

end IgaArchive.Archive

import IgaArchive.Proofs.Archive.Creation
import IgaArchive.Proofs.Directory.Extent

/-!
Writing an archive whatever its inputs turn out to hold. An input may be the output itself, or may have
changed since it was measured; still every payload takes up the bytes of its entry. A read or write that
fails on the way leaves the file short of them; opening an input or closing the output may fail with all
bytes in the file.
-/

namespace IgaArchive.Archive

/-- Why writing may end before the archive is whole: an input is shorter now than when it was measured,
or the output does not take what is written. -/
inductive Interruption (sources : List (Bytes × Member)) (store : Store) : Failure → Prop
  | shortened (path : Bytes) (member : Member) (measured : (path, member) ∈ sources)
      (contents : Contents) (found : store.find path = .ok (store.place path, .file contents))
      (shorter : contents.size < member.contents.length) :
      Interruption sources store (.during (.compress path) (.during .readPayload .unexpectedEnd))
  | payload (path : Bytes) (member : Member) (measured : (path, member) ∈ sources) (fault : Fault) :
      Interruption sources store (.during (.compress path) (.during .writePayload (.store fault)))
  | directory (fault : Fault) :
      Interruption sources store (.during .writeDirectory (.store fault))
  | flush (fault : Fault) :
      Interruption sources store (.during .flushOutput (.store fault))

/-- What may fail beside the bytes that are moved: an input that was measured is not opened, or the output
is not closed. -/
inductive HandleFailure (sources : List (Bytes × Member)) : Failure → Prop
  | unopened (path : Bytes) (member : Member) (measured : (path, member) ∈ sources) (errno : Errno) :
      HandleFailure sources (.during .openInput (.store ⟨"open", path, errno⟩))
  | unclosed (fault : Fault) : HandleFailure sources (.during .closeOutput (.store fault))

/-- How a failure leaves a file that was to receive a stream. -/
def Halted (sources : List (Bytes × Member)) (stream : Bytes) (location : Location) (store : Store)
    (failure : Failure) : Prop :=
  Interruption sources store failure ∧ Output.Stalled stream location store ∨
    HandleFailure sources failure ∧ Output.Begun stream location store

theorem Halted.extend {sources : List (Bytes × Member)} {stream : Bytes} {location : Location}
    {store : Store} {failure : Failure} (halted : Halted sources stream location store failure)
    (more : Bytes) : Halted sources (stream ++ more) location store failure := by
  rcases halted with ⟨interruption, stalled⟩ | ⟨handle, begun⟩
  · exact Or.inl ⟨interruption, stalled.extend more⟩
  · exact Or.inr ⟨handle, begun.extend more⟩

/-- What a run does that is to write a number of bytes behind a stream into the file at a location. It
changes no other file; at its end `done` holds of the stream with these bytes, and a failure leaves a front
part of them in the file. -/
structure Writes {α : Type} (sources : List (Bytes × Member)) (location : Location) (stream : Bytes)
    (size : Nat) (before : Workspace) (done : α → Workspace → Bytes → Prop)
    (run : Except Failure α × Workspace) : Prop where
  changes : Store.ChangesOnly (· = location) before.store run.2.store
  log : run.2.log = before.log
  finished : ∀ value, run.1 = .ok value →
    ∃ bytes, bytes.length = size ∧ done value run.2 (stream ++ bytes)
  halted : ∀ failure, run.1 = .error failure →
    ∃ bytes, bytes.length = size ∧ Halted sources (stream ++ bytes) location run.2.store failure

section Writes

variable {α β : Type} {sources : List (Bytes × Member)} {location : Location} {stream : Bytes}
variable {size : Nat} {before after : Workspace} {done : α → Workspace → Bytes → Prop}

theorem Writes.ok {value : α} (changes : Store.ChangesOnly (· = location) before.store after.store)
    (log : after.log = before.log) (bytes : Bytes) (length : bytes.length = size)
    (holds : done value after (stream ++ bytes)) :
    Writes sources location stream size before done (.ok value, after) := by
  refine ⟨changes, log, ?_, nofun⟩
  intro other same
  cases same
  exact ⟨bytes, length, holds⟩

/-- What a failure kept from being written does not matter; any bytes may stand for it. -/
theorem Writes.error {failure : Failure}
    (changes : Store.ChangesOnly (· = location) before.store after.store)
    (log : after.log = before.log) (bytes : Bytes) (length : bytes.length ≤ size)
    (halted : Halted sources (stream ++ bytes) location after.store failure) :
    Writes sources location stream size before done (.error failure, after) := by
  refine ⟨changes, log, nofun, ?_⟩
  intro other same
  cases same
  refine ⟨bytes ++ List.replicate (size - bytes.length) 0, ?_, ?_⟩
  · rw [List.length_append, List.length_replicate]
    omega
  · rw [← List.append_assoc]
    exact halted.extend _

theorem Writes.pure (value : α) (holds : done value before stream) :
    Writes sources location stream 0 before done ((Pure.pure value : Action α).runOn before) := by
  refine Writes.ok (Store.ChangesOnly.refl _ _) rfl [] rfl ?_
  rwa [List.append_nil]

theorem Writes.of_error {failure : Failure}
    (failed : Writes sources location stream size before done (.error failure, after)) (more : Nat)
    (next : β → Workspace → Bytes → Prop) :
    Writes sources location stream (size + more) before next (.error failure, after) := by
  obtain ⟨bytes, length, halted⟩ := failed.halted failure rfl
  exact Writes.error failed.changes failed.log bytes (by omega) halted

theorem Writes.bind {action : Action α} {next : α → Action β} {last : β → Workspace → Bytes → Prop}
    (first : Writes sources location stream size before done (action.runOn before)) (more : Nat)
    (rest : ∀ value between whole, Store.ChangesOnly (· = location) before.store between.store →
      done value between whole →
      Writes sources location whole more between last ((next value).runOn between)) :
    Writes sources location stream (size + more) before last ((action >>= next).runOn before) := by
  cases ran : action.runOn before with
  | mk result between =>
      rw [ran] at first
      cases result with
      | error failure =>
          rw [Action.bind_of_error _ _ _ _ _ ran]
          exact first.of_error more last
      | ok value =>
          rw [Action.bind_of_ok _ _ _ _ _ ran]
          obtain ⟨bytes, length, reached⟩ := first.finished value rfl
          have later := rest value between (stream ++ bytes) first.changes reached
          constructor
          · exact first.changes.trans later.changes
          · exact later.log.trans first.log
          · intro final same
            obtain ⟨others, count, complete⟩ := later.finished final same
            refine ⟨bytes ++ others, by rw [List.length_append, length, count], ?_⟩
            rwa [← List.append_assoc]
          · intro failure same
            obtain ⟨others, count, halted⟩ := later.halted failure same
            refine ⟨bytes ++ others, by rw [List.length_append, length, count], ?_⟩
            rwa [← List.append_assoc]

end Writes

def Holding (location : Location) (output : Output) (workspace : Workspace) (stream : Bytes) : Prop :=
  output.location = location ∧ Output.Carries stream output workspace.store

theorem Output.Received.hasBytes {store : Store} {location : Location} {sent : Bytes}
    (received : Output.Received store location sent) : store.HasBytes location := by
  rcases received with present | ⟨present, _⟩
  · exact ⟨_, present, nofun⟩
  · exact ⟨_, present, nofun⟩

theorem hasBytes_of_received {store after : Store} {location other : Location} {sent : Bytes}
    (changes : Store.ChangesOnly (· = location) store after)
    (received : Output.Received after location sent) (before : store.HasBytes other) :
    after.HasBytes other := by
  by_cases here : other = location
  · rw [here]
    exact received.hasBytes
  · obtain ⟨node, present, file⟩ := before
    exact ⟨node, by rw [changes.outside other here, present], file⟩

structure OutputSink.Advanced (start : OutputSink) (stream payload : Bytes) (count : Nat)
    (sink : OutputSink) : Prop where
  delivers : Output.Delivers (stream ++ payload.take count) start.output sink.output
    start.workspace.store sink.workspace.store
  healthy : sink.output.failed = none
  log : sink.workspace.log = start.workspace.log

theorem OutputSink.write_advanced (start sink next : OutputSink) (stream payload : Bytes)
    (position length : Nat) (advanced : start.Advanced stream payload position sink)
    (written : OutputSink.write sink ((payload.drop position).take length) = (next, none)) :
    start.Advanced stream payload (position + length) next := by
  have carries := advanced.delivers.carries advanced.healthy
  simp only [OutputSink.write, Output.write, carries.plain] at written
  cases putting : sink.output.put sink.workspace.store ((payload.drop position).take length) with
  | mk last rest =>
      obtain ⟨store, taken⟩ := rest
      have delivers := (Output.put_spec _ _ _ _ _ _ _ carries putting).toDelivers
      rw [putting] at written
      obtain ⟨rfl, healthy⟩ := Prod.mk.inj written
      refine ⟨?_, healthy, advanced.log⟩
      rw [List.take_add, ← List.append_assoc]
      exact advanced.delivers.trans delivers

/-- A sink that has gone on from `start` and has taken a number of payload bytes. -/
def OutputSink.Took (start : OutputSink) (stream : Bytes) (count : Nat) (sink : OutputSink) : Prop :=
  ∃ payload, payload.length = count ∧ start.Advanced stream payload count sink

theorem OutputSink.Took.carries {start sink : OutputSink} {stream : Bytes} {count : Nat}
    (took : start.Took stream count sink) :
    sink.output.location = start.output.location ∧ ∃ payload, payload.length = count ∧
      Output.Carries (stream ++ payload) sink.output sink.workspace.store := by
  obtain ⟨payload, length, advanced⟩ := took
  have carries := advanced.delivers.carries advanced.healthy
  rw [List.take_of_length_le (Nat.le_of_eq length)] at carries
  exact ⟨advanced.delivers.located, payload, length, carries⟩

theorem OutputSink.Took.changes {start sink : OutputSink} {stream : Bytes} {count : Nat}
    (took : start.Took stream count sink) :
    Store.ChangesOnly (· = start.output.location) start.workspace.store sink.workspace.store ∧
      sink.workspace.log = start.workspace.log := by
  obtain ⟨_, _, advanced⟩ := took
  exact ⟨advanced.delivers.changes, advanced.log⟩

theorem OutputSink.write_took (start sink next : OutputSink) (stream bytes : Bytes) (count : Nat)
    (took : start.Took stream count sink)
    (written : OutputSink.write sink bytes = (next, none)) :
    start.Took stream (count + bytes.length) next := by
  obtain ⟨payload, length, advanced⟩ := took
  have front : (payload ++ bytes).take count = payload.take count := by
    rw [List.take_append_of_le_length (Nat.le_of_eq length.symm)]
  have piece : ((payload ++ bytes).drop count).take bytes.length = bytes := by
    rw [List.drop_left' length, List.take_length]
  refine ⟨payload ++ bytes, by rw [List.length_append, length], ?_⟩
  apply OutputSink.write_advanced start sink next stream (payload ++ bytes) count bytes.length
  · constructor
    · rw [front]
      exact advanced.delivers
    · exact advanced.healthy
    · exact advanced.log
  · rw [piece]
    exact written

theorem OutputSink.write_refused (start sink next : OutputSink) (stream bytes : Bytes) (count : Nat)
    (fault : Fault) (took : start.Took stream count sink)
    (refused : OutputSink.write sink bytes = (next, some fault)) :
    Store.ChangesOnly (· = start.output.location) start.workspace.store next.workspace.store ∧
      next.workspace.log = start.workspace.log ∧
      ∃ payload, payload.length = count + bytes.length ∧
        Output.Stalled (stream ++ payload) start.output.location next.workspace.store := by
  obtain ⟨changes, log⟩ := took.changes
  obtain ⟨located, payload, length, carries⟩ := took.carries
  simp only [OutputSink.write, Output.write, carries.plain] at refused
  cases putting : sink.output.put sink.workspace.store bytes with
  | mk last rest =>
      obtain ⟨store, taken⟩ := rest
      rw [putting] at refused
      obtain ⟨rfl, failed⟩ := Prod.mk.inj refused
      have attempts := Output.put_spec _ _ _ _ _ _ _ carries putting
      have later := attempts.changes
      have stalled := attempts.stalls (by rw [failed]; exact Option.some_ne_none fault)
      rw [located] at later stalled
      refine ⟨changes.trans later, log, payload ++ bytes, by rw [List.length_append, length], ?_⟩
      rw [← List.append_assoc]
      exact stalled

theorem OutputSink.Took.shortened {start sink : OutputSink} {stream : Bytes} {count : Nat}
    (took : start.Took stream count sink) (sources : List (Bytes × Member)) (path : Bytes)
    (member : Member) (size length : Nat) (measured : (path, member) ∈ sources)
    (legible : start.workspace.store.Legible path) (sized : size ≤ member.contents.length)
    (more : count < size) (inside : count + length ≤ size)
    (short : (sink.workspace.store.readAt (start.workspace.store.place path) count length).length <
      length) :
    Interruption sources sink.workspace.store
        (.during (.compress path) (.during .readPayload .unexpectedEnd)) ∧
      ∃ payload, payload.length ≤ size ∧
        Output.Stalled (stream ++ payload) start.output.location sink.workspace.store := by
  obtain ⟨changes, _⟩ := took.changes
  obtain ⟨located, payload, taken, carries⟩ := took.carries
  have ⟨_, received, _, _⟩ := carries.split
  rw [located] at received
  have bytes := hasBytes_of_received changes received legible.hasBytes
  obtain ⟨contents, present, ends⟩ := Store.readAt_short _ _ _ _ bytes short
  have again := legible.again changes bytes
  rw [← changes.place_eq path] at present
  constructor
  · exact .shortened path member measured contents (again.find_eq present) (by omega)
  · -- At least one more byte was due.
    refine ⟨payload ++ [0], by rw [List.length_append, taken]; exact more, ?_⟩
    rw [← List.append_assoc, ← located]
    exact carries.stalled [0] (Or.inr (by simp))

theorem transform_readAt_length (store : Store) (location : Location) (key : UInt8)
    (position length : Nat) (enough : length ≤ (store.readAt location position length).length) :
    (Payload.transform key (Int64.ofNat position)
      (store.readAt location position length)).length = length := by
  rw [Payload.transform_length]
  exact Nat.le_antisymm (Store.readAt_length_le _ _ _ _) enough

theorem appendPayload_writes (sources : List (Bytes × Member)) (path : Bytes) (member : Member)
    (entry : Entry) (output : Output) (buffer : Int) (stream : Bytes) (before : Workspace)
    (measured : (path, member) ∈ sources) (positive : 0 < buffer)
    (sized : entry.size.toNat ≤ member.contents.length)
    (carries : Output.Carries stream output before.store) (legible : before.store.Legible path) :
    Writes sources output.location stream entry.size.toNat before (Holding output.location)
      ((appendPayload output buffer (inputOf (path, member)) entry).runOn before) := by
  have ⟨node, found, _⟩ := legible
  rcases Store.openForReading_of_find found with opens | ⟨errno, refused⟩
  case inr =>
    have failed : (Action.during .openInput
        (Action.ask (·.openForReading (inputOf (path, member)).path))).runOn before =
        (.error (.during .openInput (.store ⟨"open", path, errno⟩)), before) :=
      Action.during_eq_error.mpr ⟨_, rfl, Action.ask_eq_error.mpr ⟨_, rfl, refused, rfl⟩⟩
    rw [appendPayload, Action.bind_of_error _ _ _ _ _ failed]
    apply Writes.error (Store.ChangesOnly.refl _ _) rfl [] (Nat.zero_le _)
    rw [List.append_nil]
    exact Or.inr ⟨.unopened path member measured errno, carries.begun⟩
  have opened := Action.openForReading_run .openInput (inputOf (path, member)).path before _ node opens
  have outcome := Payload.transferFrom_outcome
    (fun sink : OutputSink => sink.workspace.store.readAt (before.store.place path)) OutputSink.write
    (Payload.key entry.name .byName) buffer.toNat entry.size.toNat
    (OutputSink.Took { workspace := before, output } stream) (by omega)
    (by
      intro position sink next took _ enough written
      have next := OutputSink.write_took _ sink next stream _ position took written
      rwa [transform_readAt_length _ _ _ _ _ enough] at next)
    0 { workspace := before, output }
    ⟨[], rfl, by simpa using Output.Delivers.of_carries carries, carries.healthy, rfl⟩ (Nat.zero_le _)
  rw [appendPayload, Action.bind_of_ok _ _ _ _ _ opened, Action.during_run]
  simp only [Action.runOn, Payload.transfer]
  rcases outcome with ⟨final, run, took⟩ | ⟨reached, final, took, more, short, run⟩ |
    ⟨reached, sink, next, fault, took, more, enough, refused, run⟩
  · rw [run]
    obtain ⟨changes, log⟩ := took.changes
    obtain ⟨located, payload, length, carried⟩ := took.carries
    exact Writes.ok changes log payload length ⟨located, carried⟩
  · rw [run]
    obtain ⟨changes, log⟩ := took.changes
    obtain ⟨interruption, payload, length, stalled⟩ :=
      took.shortened sources path member _ _ measured legible sized more (by omega) short
    exact Writes.error changes log payload length (Or.inl ⟨interruption, stalled⟩)
  · rw [run]
    obtain ⟨changes, log, payload, length, stalled⟩ :=
      OutputSink.write_refused _ sink next stream _ reached fault took refused
    rw [transform_readAt_length _ _ _ _ _ enough] at length
    exact Writes.error changes log payload (by omega)
      (Or.inl ⟨.payload path member measured fault, stalled⟩)

theorem appendPayloads_writes (sources : List (Bytes × Member))
    (pairs : List ((Bytes × Member) × Entry)) (output : Output) (buffer : Int) (stream : Bytes)
    (before : Workspace) (positive : 0 < buffer) (measured : ∀ pair ∈ pairs, pair.1 ∈ sources)
    (sized : ∀ pair ∈ pairs, pair.2.size.toNat ≤ pair.1.2.contents.length)
    (carries : Output.Carries stream output before.store)
    (legible : ∀ pair ∈ pairs, before.store.Legible pair.1.1) :
    Writes sources output.location stream (Directory.payloadTotal (pairs.map Prod.snd)) before
      (Holding output.location)
      ((appendPayloads buffer (pairs.map (Prod.map inputOf id)) output).runOn before) := by
  induction pairs generalizing output stream before with
  | nil => exact Writes.pure output ⟨rfl, carries⟩
  | cons pair pairs ih =>
      obtain ⟨⟨path, member⟩, entry⟩ := pair
      rw [List.map_cons, Directory.payloadTotal_cons]
      have first := appendPayload_writes sources path member entry output buffer stream before
        (measured _ List.mem_cons_self) positive (sized _ List.mem_cons_self) carries
        (legible _ List.mem_cons_self)
      apply first.bind (Directory.payloadTotal (pairs.map Prod.snd))
      rintro next between whole changes ⟨located, carried⟩
      have ⟨_, received, _⟩ := carried.split
      rw [located] at received
      have later := ih next whole between
        (fun other inside => measured other (List.mem_cons_of_mem _ inside))
        (fun other inside => sized other (List.mem_cons_of_mem _ inside)) carried
        (by
          intro other inside
          have readable := legible other (List.mem_cons_of_mem _ inside)
          exact readable.again changes (hasBytes_of_received changes received readable.hasBytes))
      rwa [located] at later

theorem withOutput_writes (sources : List (Bytes × Member)) (step : Step) (output : Output)
    (act : Output → Store → Output × Store) (stream : Bytes) (before : Workspace)
    (done : Output → Workspace → Bytes → Prop)
    (excused : ∀ store fault, Interruption sources store (.during step (.store fault)))
    (attempts : Output.Attempts stream output (act output before.store).1 before.store
      (act output before.store).2)
    (holds : (act output before.store).1.failed = none →
      done (act output before.store).1 { before with store := (act output before.store).2 } stream) :
    Writes sources output.location stream 0 before done
      ((withOutput step output act).runOn before) := by
  simp only [Action.runOn, withOutput]
  split
  · rename_i healthy
    refine Writes.ok attempts.changes rfl [] rfl ?_
    rw [List.append_nil]
    exact holds healthy
  · rename_i fault failed
    refine Writes.error attempts.changes rfl [] (Nat.zero_le _) (Or.inl ⟨excused _ fault, ?_⟩)
    rw [List.append_nil]
    apply attempts.stalls
    rw [failed]
    exact Option.some_ne_none fault

theorem head_writes (sources : List (Bytes × Member)) (output : Output) (head : Bytes)
    (before : Workspace) (carries : Output.Carries [] output before.store) :
    Writes sources output.location head 0 before (Holding output.location)
      ((withOutput .writeDirectory output fun output store =>
        let (output, store, _) := output.write store head
        (output, store)).runOn before) := by
  cases putting : output.put before.store head with
  | mk next rest =>
      obtain ⟨store, taken⟩ := rest
      have attempts := Output.put_spec _ _ _ _ _ _ _ carries putting
      apply withOutput_writes
      · exact fun _ fault => .directory fault
      all_goals simp only [Output.write, carries.plain, putting]
      · exact attempts
      · exact fun healthy => ⟨attempts.located, attempts.carries healthy⟩

theorem closeOutput_writes (sources : List (Bytes × Member)) (output : Output) (stream : Bytes)
    (before : Workspace) (carries : Output.Carries stream output before.store) :
    Writes sources output.location stream 0 before
      (fun _ workspace whole => Output.Received workspace.store output.location whole)
      ((closeOutput output).runOn before) := by
  have unframed : (withOutput .closeFrame output Output.closeFrame).runOn before =
      (.ok output, before) := by
    simp only [Action.runOn, withOutput, Output.closeFrame, carries.plain, carries.healthy]
  rw [closeOutput, Action.bind_of_ok _ _ _ _ _ unframed]
  cases flushing : output.flush before.store with
  | mk next store =>
      obtain ⟨attempts, emptied⟩ := Output.flush_spec stream output next before.store store carries flushing
      have flushed : Writes sources output.location stream 0 before
          (fun _ workspace whole => Output.Received workspace.store output.location whole)
          ((withOutput .flushOutput output Output.flush).runOn before) := by
        apply withOutput_writes
        · exact fun _ fault => .flush fault
        all_goals simp only [flushing]
        · exact attempts
        · intro healthy
          obtain ⟨_, _, sent, received, _, shape⟩ := attempts.carries healthy
          rw [emptied healthy, List.append_nil] at shape
          rwa [shape, attempts.located] at received
      apply flushed.bind 0
      intro _ between whole _ received
      -- All bytes are in the file; closing it does not take them away.
      rcases Action.ask_run (·.close _ _) between with ⟨_, closed⟩ | ⟨fault, refused⟩
      · rw [Action.during_eq_ok.mpr closed]
        refine Writes.ok (Store.ChangesOnly.refl _ _) rfl [] rfl ?_
        rwa [List.append_nil]
      · rw [Action.during_eq_error.mpr ⟨_, rfl, refused⟩]
        refine Writes.error (Store.ChangesOnly.refl _ _) rfl [] (Nat.zero_le _) (Or.inr ⟨.unclosed fault, ?_⟩)
        rw [List.append_nil]
        exact ⟨whole, received, List.prefix_rfl⟩

theorem filling_writes (sources : List (Bytes × Member)) (entries : List Entry) (output : Output)
    (buffer : Int) (stream : Bytes) (before : Workspace) (positive : 0 < buffer)
    (paired : entries.length = sources.length)
    (sized : ∀ pair ∈ sources.zip entries, pair.2.size.toNat ≤ pair.1.2.contents.length)
    (carries : Output.Carries stream output before.store)
    (legible : ∀ source ∈ sources, before.store.Legible source.1) :
    Writes sources output.location stream (Directory.payloadTotal entries) before
      (fun _ workspace whole => Output.Received workspace.store output.location whole)
      ((do
        let output ← appendPayloads buffer ((sources.map inputOf).zip entries) output
        closeOutput output : Action Unit).runOn before) := by
  have appended := appendPayloads_writes sources (sources.zip entries) output buffer stream before
    positive (fun pair inside => (List.of_mem_zip inside).1) sized carries
    (fun pair inside => legible pair.1 (List.of_mem_zip inside).1)
  rw [← List.zip_map_left, List.map_snd_zip (by omega)] at appended
  apply appended.bind 0
  rintro next between whole _ ⟨located, carried⟩
  rw [← located]
  exact closeOutput_writes sources next whole between carried

/-- How writing an archive ends once its file is made: with all bytes in the file, or with a front part of
them, which is less than all unless it was for a file that could not be opened or closed. -/
structure Ends (path : Bytes) (sources : List (Bytes × Member)) (encoded : Bytes) (size : Nat)
    (before after : Workspace) (result : Except Failure Unit) : Prop where
  changes : Store.ChangesOnly (before.log.TouchesWith before.store path) before.store after.store
  whole : result = .ok () → ∃ payload, payload.length = size ∧
    after.store.readWhole path = .ok (encoded ++ payload)
  broken : ∀ failure, result = .error failure → ∃ payload content, payload.length = size ∧
    after.store.readWhole path = .ok content ∧ content <+: encoded ++ payload ∧
    (Interruption sources after.store failure ∧ content.length < (encoded ++ payload).length ∨
      HandleFailure sources failure)

theorem readWhole_received {may : Location → Prop} {store created after : Store} {path : Bytes}
    {location : Location} {sent : Bytes} (creating : store.create path = .ok (location, created))
    (changes : Store.ChangesOnly may store after) (received : Output.Received after location sent) :
    after.readWhole path = .ok sent := by
  rcases received with present | ⟨present, nothing⟩
  · have opens := Store.open_created creating changes present nofun
    rw [Store.readWhole_file after path location _ opens, Contents.toBytes_ofBytes]
  · have opens := Store.open_created creating changes present nofun
    rw [Store.readWhole_fullDevice after path location opens, nothing]

theorem Ends.of_writes {path : Bytes} {sources : List (Bytes × Member)} {encoded : Bytes}
    {size : Nat} {before between : Workspace} {created : Store} {location : Location}
    {run : Except Failure Unit × Workspace}
    (creating : before.store.create path = .ok (location, created))
    (soFar : Store.ChangesOnly (before.log.TouchesWith before.store path) before.store between.store)
    (writes : Writes sources location encoded size between
      (fun _ workspace whole => Output.Received workspace.store location whole) run) :
    Ends path sources encoded size before run.2 run.1 := by
  obtain ⟨place, _⟩ := Store.create_changesOnly before.store created path location creating
  have changes : Store.ChangesOnly (before.log.TouchesWith before.store path) before.store
      run.2.store := by
    apply soFar.trans
    apply writes.changes.mono
    intro other here
    exact Or.inl (here.trans place)
  constructor
  · exact changes
  · intro fine
    obtain ⟨payload, length, received⟩ := writes.finished () fine
    exact ⟨payload, length, readWhole_received creating changes received⟩
  · intro failure failed
    obtain ⟨payload, length, halted⟩ := writes.halted failure failed
    rcases halted with ⟨interruption, sent, received, front, fewer⟩ | ⟨handle, sent, received, front⟩
    · exact ⟨payload, sent, length, readWhole_received creating changes received, front,
        Or.inl ⟨interruption, fewer⟩⟩
    · exact ⟨payload, sent, length, readWhole_received creating changes received, front, Or.inr handle⟩

theorem legible_after_head {store created after : Store} {output path : Bytes} {location : Location}
    {sent : Bytes} (creating : store.create output = .ok (location, created))
    (changes : Store.ChangesOnly (· = location) created after)
    (received : Output.Received after location sent) (legible : store.Legible path) :
    after.Legible path := by
  obtain ⟨_, making⟩ := Store.create_changesOnly store created output location creating
  have bytes := Store.create_hasBytes store created output location _ creating legible.hasBytes
  have made := legible.again making bytes
  exact made.again changes (hasBytes_of_received changes received made.hasBytes)

theorem legible_after_detail (workspace : Workspace) (message path : Bytes)
    (legible : workspace.store.Legible path) :
    ((Action.detail message).runOn workspace).2.store.Legible path := by
  rw [Action.detail_run]
  apply legible.again (Log.detail_spec workspace.log workspace.store message).1
  exact Log.detail_hasBytes workspace.log workspace.store message _ legible.hasBytes

theorem carries_after_detail (workspace : Workspace) (message stream : Bytes) (output : Output)
    (unreached : ¬ workspace.log.Reaches workspace.store output.location)
    (carries : Output.Carries stream output workspace.store) :
    Output.Carries stream output ((Action.detail message).runOn workspace).2.store := by
  obtain ⟨healthy, plain, sent, received, position, shape⟩ := carries
  refine ⟨healthy, plain, sent, ?_, position, shape⟩
  rw [Action.detail_run, Output.Received,
    (Log.detail_spec workspace.log workspace.store message).1.outside _ unreached]
  exact received

theorem headed_ends (path : Bytes) (entries : List Entry) (encoded message : Bytes)
    (sources : List (Bytes × Member)) (buffer : Int) (location : Location) (created : Store)
    (before between : Workspace) (output : Output) (positive : 0 < buffer)
    (paired : entries.length = sources.length)
    (sized : ∀ pair ∈ sources.zip entries, pair.2.size.toNat ≤ pair.1.2.contents.length)
    (legible : ∀ source ∈ sources, before.store.Legible source.1)
    (unreached : ¬ before.log.Reaches before.store (before.store.place path))
    (creating : before.store.create path = .ok (location, created))
    (changes : Store.ChangesOnly (· = location) created between.store)
    (log : between.log = before.log) (holding : Holding location output between encoded) :
    let run := (do
      Action.detail message
      let output ← appendPayloads buffer ((sources.map inputOf).zip entries) output
      closeOutput output : Action Unit).runOn between
    Ends path sources encoded (Directory.payloadTotal entries) before run.2 run.1 := by
  obtain ⟨place, making⟩ := Store.create_changesOnly before.store created path location creating
  obtain ⟨located, carries⟩ := holding
  have ⟨sent, received, _⟩ := carries.split
  rw [located] at received
  have start : Store.ChangesOnly (· = before.store.place path) before.store between.store := by
    have later := changes
    rw [place] at later
    exact making.trans later
  have reach : ∀ other, between.log.Reaches between.store other ↔
      before.log.Reaches before.store other := by
    intro other
    rw [Log.reaches_congr start, log]
  have soFar : Store.ChangesOnly (before.log.TouchesWith before.store path) before.store
      ((Action.detail message).runOn between).2.store := by
    apply (start.mono fun other here => Or.inl here).trans
    apply (Log.detail_spec between.log between.store message).1.mono
    intro other reached
    exact Or.inr ((reach other).mp reached)
  have carried := carries_after_detail between message encoded output
    (by rw [reach, located, place]; exact unreached) carries
  have readable : ∀ source ∈ sources,
      ((Action.detail message).runOn between).2.store.Legible source.1 := by
    intro source inside
    apply legible_after_detail
    exact legible_after_head creating changes received (legible source inside)
  have writes := filling_writes sources entries output buffer encoded
    ((Action.detail message).runOn between).2 positive paired sized carried readable
  rw [located] at writes
  rw [Action.bind_of_ok _ _ _ _ _ (Action.detail_run _ _)]
  exact Ends.of_writes creating soFar writes

theorem created_ends (path : Bytes) (entries : List Entry) (encoded message : Bytes)
    (sources : List (Bytes × Member)) (buffer : Int) (location : Location) (created : Store)
    (before : Workspace) (positive : 0 < buffer) (paired : entries.length = sources.length)
    (sized : ∀ pair ∈ sources.zip entries, pair.2.size.toNat ≤ pair.1.2.contents.length)
    (legible : ∀ source ∈ sources, before.store.Legible source.1)
    (unreached : ¬ before.log.Reaches before.store (before.store.place path))
    (creating : before.store.create path = .ok (location, created))
    (run : Except Failure Unit × Workspace)
    (ran : (do
      let output ← withOutput .writeDirectory { path, location } fun output store =>
        let (output, store, _) := output.write store encoded
        (output, store)
      Action.detail message
      let output ← appendPayloads buffer ((sources.map inputOf).zip entries) output
      closeOutput output : Action Unit).runOn { before with store := created } = run) :
    Ends path sources encoded (Directory.payloadTotal entries) before run.2 run.1 := by
  subst ran
  have headed := head_writes sources { path, location } encoded { before with store := created }
    ⟨rfl, rfl, [], create_received before.store created path location creating, rfl, rfl⟩
  cases heading : (withOutput .writeDirectory { path, location } fun output store =>
      let (output, store, _) := output.write store encoded
      (output, store)).runOn { before with store := created } with
  | mk result between =>
      rw [heading] at headed
      cases result with
      | error failure =>
          rw [Action.bind_of_error _ _ _ _ _ heading]
          have failed := headed.of_error (Directory.payloadTotal entries)
            (fun (_ : Unit) workspace whole => Output.Received workspace.store location whole)
          rw [Nat.zero_add] at failed
          have making : Store.ChangesOnly (before.log.TouchesWith before.store path) before.store
              created :=
            (Store.create_changesOnly before.store created path location creating).2.mono
              fun _ here => Or.inl here
          exact Ends.of_writes creating making failed
      | ok output =>
          rw [Action.bind_of_ok _ _ _ _ _ heading]
          obtain ⟨bytes, none, holding⟩ := headed.finished output rfl
          rw [List.eq_nil_of_length_eq_zero none, List.append_nil] at holding
          exact headed_ends path entries encoded message sources buffer location created before between
            output positive paired sized legible unreached creating headed.changes headed.log holding

/-- Writing an archive fails to make its file, or it ends with all bytes in the file or a front part. -/
theorem writeArchive_ends (path : Bytes) (directory : Directory) (encoded : Bytes)
    (sources : List (Bytes × Member)) (buffer : Int) (before after : Workspace)
    (result : Except Failure Unit) (positive : 0 < buffer)
    (written : directory.encode = .ok encoded)
    (paired : directory.entries.length = sources.length)
    (sized : ∀ pair ∈ sources.zip directory.entries,
      pair.2.size.toNat ≤ pair.1.2.contents.length)
    (legible : ∀ source ∈ sources, before.store.Legible source.1)
    (unreached : ¬ before.log.Reaches before.store (before.store.place path))
    (ran : (writeArchive path directory (sources.map inputOf) false buffer).runOn before =
      (result, after)) :
    (∃ fault, result = .error (.during .createOutput (.store fault)) ∧ after = before) ∨
      Ends path sources encoded (Directory.payloadTotal directory.entries) before after result := by
  rw [writeArchive] at ran
  cases creating : before.store.create path with
  | error fault =>
      have refused := Action.alter_of_error (·.create path) before fault creating
      have failed : (Action.during .createOutput (Action.alter (·.create path))).runOn before =
          (.error (.during .createOutput (.store fault)), before) :=
        Action.during_eq_error.mpr ⟨_, rfl, refused⟩
      rw [Action.bind_of_error _ _ _ _ _ failed] at ran
      cases ran
      exact Or.inl ⟨fault, rfl, rfl⟩
  | ok outcome =>
      obtain ⟨location, created⟩ := outcome
      have made : (Action.during .createOutput (Action.alter (·.create path))).runOn before =
          (.ok location, { before with store := created }) :=
        Action.during_eq_ok.mpr (Action.alter_eq_ok.mpr ⟨created, creating, rfl⟩)
      have encodes : (Action.ofExcept (directory.encode.mapError .layout)).runOn
          { before with store := created } = (.ok encoded, { before with store := created }) :=
        Action.ofExcept_eq_ok.mpr ⟨Result.mapError_eq_ok.mpr written, rfl⟩
      rw [Action.bind_of_ok _ _ _ _ _ made, Action.bind_of_ok _ _ _ _ _ encodes] at ran
      apply Or.inr
      exact created_ends path directory.entries encoded _ sources buffer location created before
        positive paired sized legible unreached creating _ ran

end IgaArchive.Archive

import IgaArchive.Archive.Basic
import IgaArchive.Proofs.Archive.Output
import IgaArchive.Proofs.Lz4.Frame

/-!
An output that may wrap what it takes in a frame. Container bytes pass through the frame, if there is
one, on their way to the file. What goes to the file is only ever added to, and once the frame is closed
the container is found in it again.
-/

namespace IgaArchive.Store

def SameDevices (before after : Store) : Prop :=
  ∀ location, after.node? location = some .fullDevice ↔ before.node? location = some .fullDevice

theorem SameDevices.refl (store : Store) : SameDevices store store :=
  fun _ => Iff.rfl

theorem SameDevices.trans {first second third : Store} (earlier : SameDevices first second)
    (later : SameDevices second third) : SameDevices first third :=
  fun location => (later location).trans (earlier location)

theorem put_sameDevices (store : Store) (location : Location) (contents : Contents)
    (below : location ≠ []) (free : store.node? location ≠ some .fullDevice) :
    SameDevices store (store.put location (.file contents)) := by
  intro other
  rw [node?_put _ _ _ _ below]
  split
  · rename_i here
    rw [here]
    exact ⟨by simp, fun device => absurd device free⟩
  · rfl

theorem writeAt_sameDevices (store : Store) (location : Location) (position : Nat) (bytes : Bytes) :
    SameDevices store (store.writeAt location position bytes).1 := by
  rw [writeAt]
  split
  · rename_i contents present
    have below : location ≠ [] := by
      intro root
      rw [root] at present
      cases present
    dsimp only
    split
    · exact .refl store
    · exact put_sameDevices store location _ below (by simp [present])
  · exact .refl store
  · exact .refl store

theorem create_sameDevices (store after : Store) (path : Bytes) (location : Location)
    (created : store.create path = .ok (location, after)) : SameDevices store after := by
  obtain ⟨node, found, _, _, outcome⟩ := create_eq_ok store after path location created
  obtain ⟨_, below⟩ := place_of_fileTarget store path location node found
  obtain ⟨_, _, _, _, _, _, present, _⟩ := fileTarget_eq_ok store path location node found
  rcases outcome with ⟨_, same⟩ | ⟨other, same⟩
  · rw [same]
    exact .refl store
  · rw [same]
    exact put_sameDevices store location _ below (present ▸ other)

end IgaArchive.Store

namespace IgaArchive.Archive.Output

theorem send_sameDevices (output : Output) (store : Store) (bytes : Bytes) :
    Store.SameDevices store (output.send store bytes).2.1 :=
  Store.writeAt_sameDevices store output.location output.position bytes

theorem flush_sameDevices (output : Output) (store : Store) :
    Store.SameDevices store (output.flush store).2 := by
  rw [flush]
  split
  · exact .refl store
  · exact send_sameDevices output store output.buffered

theorem putEmpty_sameDevices (output : Output) (store : Store) (bytes : Bytes) :
    Store.SameDevices store (output.putEmpty store bytes).2.1 := by
  rw [putEmpty]
  split
  · exact .refl store
  · exact send_sameDevices output store bytes

theorem put_sameDevices (output : Output) (store : Store) (bytes : Bytes) :
    Store.SameDevices store (output.put store bytes).2.1 := by
  rw [put]
  dsimp only
  split
  · exact .refl store
  · split
    · exact .refl store
    · split
      · exact putEmpty_sameDevices output store bytes
      · split
        · exact flush_sameDevices _ store
        · exact (flush_sameDevices _ store).trans (putEmpty_sameDevices _ _ _)

def under (frame : Option Lz4.Writer) (output : Output) : Output :=
  { output with frame }

section Under

variable (frame : Option Lz4.Writer) (output : Output) (store : Store)

@[simp] theorem under_failed : (output.under frame).failed = output.failed := rfl

@[simp] theorem under_buffered : (output.under frame).buffered = output.buffered := rfl

theorem send_under (bytes : Bytes) :
    (output.under frame).send store bytes =
      ((output.send store bytes).1.under frame, (output.send store bytes).2) := by
  simp only [send, under]

theorem flush_under :
    (output.under frame).flush store =
      ((output.flush store).1.under frame, (output.flush store).2) := by
  simp only [flush, under_failed, under_buffered, send_under]
  split <;> rfl

theorem putEmpty_under (bytes : Bytes) :
    (output.under frame).putEmpty store bytes =
      ((output.putEmpty store bytes).1.under frame, (output.putEmpty store bytes).2) := by
  simp only [putEmpty, send_under, under_failed]
  split <;> rfl

theorem put_under (bytes : Bytes) :
    (output.under frame).put store bytes =
      ((output.put store bytes).1.under frame, (output.put store bytes).2) := by
  have filled (buffered : Bytes) :
      Output.mk (output.under frame).path (output.under frame).location (output.under frame).position
        buffered output.failed (output.under frame).frame = under frame { output with buffered } := rfl
  simp only [put, under_failed, under_buffered, putEmpty_under, filled, flush_under]
  split
  · rfl
  · split
    · rfl
    · split
      · rfl
      · split <;> rfl

theorem putAll_under (parts : List Bytes) :
    (output.under frame).putAll store parts =
      ((output.putAll store parts).1.under frame, (output.putAll store parts).2) := by
  induction parts generalizing output store with
  | nil => rfl
  | cons part parts ih =>
      simp only [putAll, put_under, under_failed, ih]
      split <;> rfl

end Under

theorem putAll_spec (parts : List Bytes) (stream : Bytes) (output next : Output) (store after : Store)
    (carries : Carries stream output store) (putting : output.putAll store parts = (next, after))
    (healthy : next.failed = none) :
    Delivers (stream ++ parts.flatten) output next store after ∧ Store.SameDevices store after := by
  induction parts generalizing stream output store with
  | nil =>
      cases putting
      rw [List.flatten_nil, List.append_nil]
      exact ⟨.of_carries carries, .refl _⟩
  | cons part parts ih =>
      have same := put_sameDevices output store part
      cases taking : output.put store part with
      | mk middle rest =>
          obtain ⟨between, taken⟩ := rest
          have delivers :=
            (put_spec stream part output middle store between taken carries taking).toDelivers
          simp only [putAll, taking] at putting same
          split at putting
          · rename_i failed
            cases putting
            simp [healthy] at failed
          · rename_i fine
            have later := ih (stream ++ part) middle between (delivers.carries (by simpa using fine))
              putting
            rw [List.flatten_cons, ← List.append_assoc]
            exact ⟨delivers.trans later.1, same.trans later.2⟩

/-- How the bytes for the file come from those of the container: they are the same, or a frame has taken
the container and handed them on. -/
def Encloses (frame : Option Lz4.Writer) (container stream : Bytes) : Prop :=
  match frame with
  | none => stream = container
  | some writer => writer.Wrote stream ∧
      writer.content.size < writer.finished + Lz4.writtenBlock ∧
      Bytes.ofByteArray writer.content = container

/-- An output that has taken `container`, of which `stream` is on its way to the file. -/
structure Conveys (container stream : Bytes) (output : Output) (store : Store) : Prop where
  carries : Carries stream (output.under none) store
  encloses : Encloses output.frame container stream

theorem Conveys.start (path : Bytes) (location : Location) (lz4 : Bool) (store : Store)
    (received : Received store location []) :
    Conveys [] [] { path, location, frame := if lz4 then some {} else none } store := by
  refine ⟨⟨rfl, rfl, [], received, rfl, rfl⟩, ?_⟩
  cases lz4 with
  | false => exact rfl
  | true => exact ⟨Lz4.Writer.wrote_nothing, by decide, rfl⟩

theorem Conveys.again {container stream : Bytes} {output : Output} {store after : Store}
    (conveys : Conveys container stream output store)
    (same : after.node? output.location = store.node? output.location) :
    Conveys container stream output after := by
  obtain ⟨⟨healthy, plain, sent, received, position, shape⟩, encloses⟩ := conveys
  refine ⟨⟨healthy, plain, sent, ?_, position, shape⟩, encloses⟩
  rw [Received] at received ⊢
  exact same ▸ received

/-- A step of an output that succeeds: it changes no file but its own and neither makes nor removes a
device. -/
structure Moves (container stream : Bytes) (before next : Output) (store after : Store) : Prop where
  changes : Store.ChangesOnly (· = before.location) store after
  devices : Store.SameDevices store after
  located : next.location = before.location
  framed : next.frame.isSome = before.frame.isSome
  conveys : Conveys container stream next after

theorem Moves.refl {container stream : Bytes} {output : Output} {store : Store}
    (conveys : Conveys container stream output store) :
    Moves container stream output output store store :=
  ⟨.refl _ _, .refl store, rfl, rfl, conveys⟩

theorem Moves.trans {container stream more further : Bytes} {before middle next : Output}
    {store between after : Store} (earlier : Moves container stream before middle store between)
    (later : Moves more further middle next between after) :
    Moves more further before next store after := by
  obtain ⟨changes, devices, located, framed, conveys⟩ := later
  rw [earlier.located] at changes located
  exact ⟨earlier.changes.trans changes, earlier.devices.trans devices, located,
    framed.trans earlier.framed, conveys⟩

theorem under_none {output : Output} (plain : output.frame = none) : output.under none = output := by
  rw [← plain]
  rfl

theorem write_moves (container stream bytes : Bytes) (output next : Output) (store after : Store)
    (taken : Nat) (conveys : Conveys container stream output store)
    (writing : output.write store bytes = (next, after, taken)) (healthy : next.failed = none) :
    ∃ more, Moves (container ++ bytes) (stream ++ more) output next store after := by
  have carries := conveys.carries
  have encloses := conveys.encloses
  cases framed : output.frame with
  | none =>
      rw [under_none framed] at carries
      simp only [write, framed] at writing
      have devices := put_sameDevices output store bytes
      have delivers := (put_spec stream bytes output next store after taken carries writing).toDelivers
      have kept := delivers.carries healthy
      rw [writing] at devices
      refine ⟨bytes, delivers.changes, devices, delivers.located, ?_, ?_, ?_⟩
      · rw [kept.plain, framed]
      · rw [under_none kept.plain]
        exact kept
      · rw [framed] at encloses
        rw [kept.plain, Encloses, encloses]
  | some writer =>
      rw [framed] at encloses
      obtain ⟨wrote, _, content⟩ := encloses
      have settled := writer.write_settled stream bytes wrote
      -- The bare output takes the blocks that the frame hands on as it would take any bytes.
      have shape := putAll_under (some (writer.write bytes).2) (output.under none) store
        (writer.write bytes).1
      cases putting : (output.under none).putAll store (writer.write bytes).1 with
      | mk last reached =>
          obtain ⟨rfl, rfl⟩ : last.under (some (writer.write bytes).2) = next ∧ reached = after := by
            rw [putting] at shape
            simp only [write, framed] at writing
            exact ⟨(congrArg (·.1) shape).symm.trans (congrArg (·.1) writing),
              (congrArg (·.2) shape).symm.trans (congrArg (·.2.1) writing)⟩
          obtain ⟨delivers, devices⟩ := putAll_spec _ stream _ last store _ carries putting healthy
          have kept := delivers.carries healthy
          refine ⟨(writer.write bytes).1.flatten, delivers.changes, devices, delivers.located,
            ?_, ?_, ?_⟩
          · rw [framed]
            rfl
          · exact (under_none kept.plain).symm ▸ kept
          · refine ⟨settled.wrote, settled.short, ?_⟩
            rw [settled.content, ← content, Lz4.Writer.grown, Lz4.Block.pushAll_eq_append]
            simp [Bytes.ofByteArray, Bytes.toByteArray]

end IgaArchive.Archive.Output

namespace IgaArchive.Archive

/-- A file that holds a container: as it is, or in a frame that gives it back wherever there is room for
it. -/
def Wraps (wrapped : Bool) (file container : Bytes) : Prop :=
  if wrapped then ∀ limit, container.length ≤ limit → unwrap limit file = .ok container
  else file = container

theorem Wraps.nonempty {wrapped : Bool} {file container : Bytes} (wraps : Wraps wrapped file container)
    (some : container ≠ []) : file ≠ [] := by
  intro empty
  rw [empty] at wraps
  cases wrapped with
  | false => exact some wraps.symm
  | true =>
      have found := wraps container.length (Nat.le_refl _)
      simp [unwrap, Lz4.magic] at found

structure Frames (file container : Bytes) : Prop where
  start : file.take 4 = Lz4.magic
  content : Lz4.content (file.drop 4) = .ok container

theorem Frames.unwrap_eq {file container : Bytes} (frames : Frames file container) (limit : Nat) :
    unwrap limit file =
      if container.length ≤ limit then .ok container else .error (.frameTooLarge limit) := by
  obtain ⟨part, unpacked, shape⟩ := Lz4.unpack_of_content (limit + 1) _ _ frames.content
  rw [unwrap, if_neg (fun differs => differs frames.start), unpacked]
  by_cases room : container.length ≤ limit
  · rw [if_pos (Nat.lt_succ_of_le room)] at shape
    rw [if_pos room, shape]
    simp only [Nat.not_lt.mpr room, if_false]
  · rw [if_neg (by omega)] at shape
    rw [if_neg room]
    simp only [show part.length > limit from shape, if_true]

def Encases (wrapped : Bool) (file container : Bytes) : Prop :=
  if wrapped then Frames file container else file = container

theorem Encases.wraps {wrapped : Bool} {file container : Bytes} (encases : Encases wrapped file container) :
    Wraps wrapped file container := by
  cases wrapped with
  | false => exact encases
  | true =>
      rw [Wraps, if_pos rfl]
      intro limit room
      have frames : Frames file container := encases
      rw [frames.unwrap_eq, if_pos room]

theorem frames_of_closed (writer : Lz4.Writer) (stream : Bytes) (wrote : writer.Wrote stream)
    (short : writer.content.size < writer.finished + Lz4.writtenBlock)
    (some : Bytes.ofByteArray writer.content ≠ []) :
    Frames (stream ++ writer.close.flatten) (Bytes.ofByteArray writer.content) := by
  have started : writer.started = true := by
    cases begun : writer.started with
    | true => rfl
    | false =>
        rw [wrote.begun begun] at some
        exact absurd rfl some
  obtain ⟨start, content⟩ := writer.close_content stream wrote started short
  exact ⟨start, content⟩

namespace Output

theorem closeFrame_spec (container stream : Bytes) (output next : Output) (store after : Store)
    (conveys : Conveys container stream output store) (some : container ≠ [])
    (closing : output.closeFrame store = (next, after)) (healthy : next.failed = none) :
    ∃ more, Delivers (stream ++ more) (output.under none) (next.under none) store after ∧
      Encases output.frame.isSome (stream ++ more) container := by
  have encloses := conveys.encloses
  cases framed : output.frame with
  | none =>
      rw [framed] at encloses
      simp only [closeFrame, framed] at closing
      cases closing
      refine ⟨[], ?_, ?_⟩
      · rw [List.append_nil]
        exact .of_carries conveys.carries
      · rw [List.append_nil]
        exact encloses
  | some writer =>
      rw [framed] at encloses
      obtain ⟨wrote, short, rfl⟩ := encloses
      simp only [closeFrame, framed] at closing
      have bare := putAll_under none output store writer.close
      rw [closing] at bare
      exact ⟨writer.close.flatten, (putAll_spec _ stream _ _ store after conveys.carries bare healthy).1,
        frames_of_closed writer stream wrote short some⟩

theorem flush_finishes (file : Bytes) (output next : Output) (store after : Store)
    (carries : Carries file (output.under none) store) (some : file ≠ [])
    (flushing : output.flush store = (next, after)) (healthy : next.failed = none) :
    after.node? output.location = .some (.file (.ofBytes file)) ∧
      Store.ChangesOnly (· = output.location) store after := by
  have bare := flush_under none output store
  rw [flushing] at bare
  obtain ⟨attempts, emptied⟩ := flush_spec file _ _ store after carries bare
  obtain ⟨_, _, sent, received, _, shape⟩ := attempts.carries healthy
  rw [emptied healthy, List.append_nil] at shape
  subst shape
  rw [attempts.located] at received
  refine ⟨?_, attempts.changes⟩
  exact received.resolve_right fun device => some device.2

end Output

end IgaArchive.Archive

import IgaArchive.Archive.Output
import IgaArchive.Proofs.Log

/-!
The buffered output. However writes are cut, filled up and sent on, the bytes that have reached the
file and those that wait in the buffer make up all that was written, as long as no write has failed. A
write that fails leaves a part of it in the file, from the front.
-/

namespace IgaArchive.Archive.Output

/-- The node at a location after some bytes have been sent there; a device takes none. -/
def Received (store : Store) (location : Location) (sent : Bytes) : Prop :=
  store.node? location = some (.file (.ofBytes sent)) ∨
    store.node? location = some .fullDevice ∧ sent = []

/-- An output without a frame that has taken `stream` and lost nothing of it. -/
structure Carries (stream : Bytes) (output : Output) (store : Store) : Prop where
  healthy : output.failed = none
  plain : output.frame = none
  split : ∃ sent, Received store output.location sent ∧ output.position = sent.length ∧
    sent ++ output.buffered = stream

/-- A file that has received some of a stream from its front, but not all. -/
def Stalled (stream : Bytes) (location : Location) (store : Store) : Prop :=
  ∃ sent, Received store location sent ∧ sent <+: stream ∧ sent.length < stream.length

/-- A file that has received some of a stream from its front, all of it maybe. -/
def Begun (stream : Bytes) (location : Location) (store : Store) : Prop :=
  ∃ sent, Received store location sent ∧ sent <+: stream

theorem Begun.extend {stream : Bytes} {location : Location} {store : Store}
    (begun : Begun stream location store) (more : Bytes) : Begun (stream ++ more) location store := by
  obtain ⟨sent, received, front⟩ := begun
  exact ⟨sent, received, front.trans (List.prefix_append _ _)⟩

theorem Carries.begun {stream : Bytes} {output : Output} {store : Store}
    (carries : Carries stream output store) : Begun stream output.location store := by
  obtain ⟨_, _, sent, received, _, shape⟩ := carries
  exact ⟨sent, received, shape ▸ List.prefix_append _ _⟩

theorem Stalled.extend {stream : Bytes} {location : Location} {store : Store}
    (stalled : Stalled stream location store) (more : Bytes) : Stalled (stream ++ more) location store := by
  obtain ⟨sent, received, front, short⟩ := stalled
  refine ⟨sent, received, front.trans (List.prefix_append _ _), ?_⟩
  rw [List.length_append]
  omega

theorem Carries.stalled {stream : Bytes} {output : Output} {store : Store}
    (carries : Carries stream output store) (more : Bytes)
    (behind : output.buffered ≠ [] ∨ more ≠ []) :
    Stalled (stream ++ more) output.location store := by
  obtain ⟨_, _, sent, received, _, shape⟩ := carries
  subst shape
  refine ⟨sent, received, ?_, ?_⟩
  · rw [List.append_assoc]
    exact List.prefix_append _ _
  · rw [List.length_append, List.length_append]
    rcases behind with some | some
    · have positive := List.length_pos_iff.mpr some
      omega
    · have positive := List.length_pos_iff.mpr some
      omega

theorem writeAt_received (store after : Store) (location : Location) (sent bytes : Bytes) (taken : Nat)
    (refused : Option Errno) (received : Received store location sent)
    (wrote : store.writeAt location sent.length bytes = (after, taken, refused)) :
    Received after location (sent ++ bytes.take taken) ∧ (refused = none ↔ taken = bytes.length) := by
  obtain ⟨_, all⟩ := Store.writeAt_takes _ _ _ _ _ _ _ wrote
  rcases received with present | ⟨present, nothing⟩
  · have below : location ≠ [] := by
      intro root
      rw [root] at present
      cases present
    have size : sent.length = (Contents.ofBytes sent).size := by
      rw [← Contents.length_toBytes, Contents.toBytes_ofBytes]
    simp only [Store.writeAt, present, size, Contents.overwrite_end, Contents.toBytes_ofBytes] at wrote
    cases wrote
    refine ⟨Or.inl ?_, all, fun whole => by rw [if_neg (by omega)]⟩
    rw [← List.prefix_iff_eq_take.mp (List.take_prefix _ _)]
    split
    · rename_i nothing
      rw [present, List.isEmpty_iff.mp nothing, List.append_nil]
    · rw [Store.node?_put _ _ _ _ below, if_pos rfl]
  · simp only [Store.writeAt, present] at wrote
    cases wrote
    refine ⟨Or.inr ⟨present, by simpa using nothing⟩, all, fun whole => ?_⟩
    rw [if_pos (List.isEmpty_iff.mpr (List.length_eq_zero_iff.mp whole.symm))]

/-- What a step of an output may do: it changes no file but its own, and unless it fails the output
carries `stream` afterwards. -/
structure Delivers (stream : Bytes) (before next : Output) (store after : Store) : Prop where
  changes : Store.ChangesOnly (· = before.location) store after
  located : next.location = before.location
  carries : next.failed = none → Carries stream next after

theorem Delivers.trans {first second : Bytes} {before middle next : Output} {store between after : Store}
    (earlier : Delivers first before middle store between)
    (later : Delivers second middle next between after) : Delivers second before next store after := by
  obtain ⟨changes, located, carries⟩ := later
  rw [earlier.located] at changes located
  exact ⟨earlier.changes.trans changes, located, carries⟩

theorem Delivers.of_carries {stream : Bytes} {output : Output} {store : Store}
    (carries : Carries stream output store) : Delivers stream output output store store :=
  ⟨Store.ChangesOnly.refl _ _, rfl, fun _ => carries⟩

/-- A step of an output that either delivers a stream or leaves its file short of it. -/
structure Attempts (stream : Bytes) (before next : Output) (store after : Store) : Prop
    extends Delivers stream before next store after where
  stalls : next.failed ≠ none → Stalled stream before.location after

/-- What a write past the buffer does: the file takes some of the bytes from their front, all of them unless
the write fails, and the output stands behind them. -/
structure Sends (output : Output) (store : Store) (sent bytes : Bytes) (next : Output) (after : Store)
    (taken : Nat) : Prop where
  changes : Store.ChangesOnly (· = output.location) store after
  shape : next =
    { output with position := (sent ++ bytes.take taken).length, failed := next.failed }
  received : Received after output.location (sent ++ bytes.take taken)
  bound : taken ≤ bytes.length
  all : next.failed = none ↔ taken = bytes.length

theorem send_spec (output next : Output) (store after : Store) (bytes sent : Bytes) (taken : Nat)
    (received : Received store output.location sent) (position : output.position = sent.length)
    (sending : output.send store bytes = (next, after, taken)) :
    Sends output store sent bytes next after taken := by
  have changes := Store.writeAt_changesOnly store output.location output.position bytes
  cases wrote : store.writeAt output.location output.position bytes with
  | mk reached rest =>
      obtain ⟨count, refused⟩ := rest
      obtain ⟨bound, _⟩ := Store.writeAt_takes _ _ _ _ _ _ _ wrote
      simp only [send, wrote] at sending changes
      rw [position] at wrote
      obtain ⟨added, all⟩ := writeAt_received _ _ _ _ _ _ _ received wrote
      cases sending
      refine ⟨changes, ?_, added, bound, ?_⟩
      · simp [position, Nat.min_eq_left bound]
      · rw [← all]
        exact Option.map_eq_none_iff

theorem Sends.stalled {output next : Output} {store after : Store} {sent bytes : Bytes} {taken : Nat}
    (sends : Sends output store sent bytes next after taken) (failed : next.failed ≠ none) :
    Stalled (sent ++ bytes) output.location after := by
  have some : taken ≠ bytes.length := fun whole => failed (sends.all.mpr whole)
  have fewer := Nat.lt_of_le_of_ne sends.bound some
  refine ⟨_, sends.received, ?_, ?_⟩
  · exact (List.prefix_append_right_inj _).mpr (List.take_prefix _ _)
  · rw [List.length_append, List.length_append, List.length_take]
    omega

theorem Sends.located {output next : Output} {store after : Store} {sent bytes : Bytes} {taken : Nat}
    (sends : Sends output store sent bytes next after taken) : next.location = output.location := by
  rw [sends.shape]

theorem Sends.carries {output next : Output} {store after : Store} {sent bytes : Bytes} {taken : Nat}
    (sends : Sends output store sent bytes next after taken) (plain : output.frame = none)
    (fine : next.failed = none) (left : Bytes) :
    Carries (sent ++ bytes.take taken ++ left) { next with buffered := left } after := by
  refine ⟨fine, ?_, sent ++ bytes.take taken, ?_, ?_, rfl⟩
  · rw [sends.shape]
    exact plain
  · simp only [sends.located]
    exact sends.received
  · rw [sends.shape]

theorem flush_spec (stream : Bytes) (output next : Output) (store after : Store)
    (carries : Carries stream output store) (flushing : output.flush store = (next, after)) :
    Attempts stream output next store after ∧ (next.failed = none → next.buffered = []) := by
  have ⟨healthy, plain, sent, received, position, shape⟩ := carries
  rw [flush] at flushing
  split at flushing
  · rename_i idle
    cases flushing
    refine ⟨⟨Delivers.of_carries carries, fun failed => absurd healthy failed⟩, ?_⟩
    intro _
    simpa [healthy] using idle
  · cases sending : output.send store output.buffered with
    | mk last rest =>
        obtain ⟨reached, taken⟩ := rest
        have sends := send_spec output last store reached _ sent taken received position sending
        simp only [sending] at flushing
        cases flushing
        refine ⟨⟨⟨sends.changes, sends.located, ?_⟩, ?_⟩, ?_⟩
        · -- What was taken has moved from the buffer to the file.
          intro fine
          have carried := sends.carries plain fine (output.buffered.drop taken)
          rwa [List.append_assoc, List.take_append_drop, shape] at carried
        · intro failed
          rw [← shape]
          exact sends.stalled failed
        · intro fine
          rw [sends.all.mp fine, List.drop_length]

theorem putEmpty_spec (stream bytes : Bytes) (output next : Output) (store after : Store)
    (taken : Nat) (carries : Carries stream output store) (empty : output.buffered = [])
    (putting : output.putEmpty store bytes = (next, after, taken)) :
    Attempts (stream ++ bytes) output next store after := by
  have ⟨healthy, plain, sent, received, position, shape⟩ := carries
  rw [empty, List.append_nil] at shape
  rw [putEmpty] at putting
  split at putting
  · cases putting
    refine ⟨⟨Store.ChangesOnly.refl _ _, rfl, ?_⟩, fun failed => absurd healthy failed⟩
    intro _
    exact ⟨healthy, plain, sent, received, position, by rw [shape]⟩
  · have sends := send_spec output next store after bytes sent taken received position putting
    have still : next.buffered = [] := by
      rw [sends.shape]
      exact empty
    refine ⟨⟨sends.changes, sends.located, ?_⟩, ?_⟩
    · intro fine
      have carried := sends.carries plain fine next.buffered
      rwa [still, List.append_nil, sends.all.mp fine, List.take_length, shape, ← still] at carried
    · intro failed
      rw [← shape]
      exact sends.stalled failed

/-- A write adds its bytes to what was taken, or fails and leaves less in the file than was written so
far; it changes no other file. -/
theorem put_spec (stream bytes : Bytes) (output next : Output) (store after : Store) (taken : Nat)
    (carries : Carries stream output store)
    (putting : output.put store bytes = (next, after, taken)) :
    Attempts (stream ++ bytes) output next store after := by
  have ⟨healthy, plain, sent, received, position, shape⟩ := carries
  simp only [put, healthy, Option.isSome_none, Bool.false_eq_true, if_false] at putting
  split at putting
  · cases putting
    refine ⟨⟨Store.ChangesOnly.refl _ _, rfl, ?_⟩, fun failed => absurd rfl failed⟩
    intro _
    refine ⟨rfl, plain, sent, received, position, ?_⟩
    rw [← shape, List.append_assoc]
  · split at putting
    · rename_i empty
      exact putEmpty_spec stream bytes output next store after taken carries (by simpa using empty) putting
    · -- The buffer is filled up and emptied, and the rest of the bytes meets an empty buffer.
      generalize bufferRoom - output.buffered.length = free at putting
      have filled : Carries (stream ++ bytes.take free)
          { output with buffered := output.buffered ++ bytes.take free, failed := none } store := by
        refine ⟨rfl, plain, sent, received, position, ?_⟩
        rw [← shape, List.append_assoc]
      have all : stream ++ bytes = stream ++ bytes.take free ++ bytes.drop free := by
        rw [List.append_assoc, List.take_append_drop]
      rw [all]
      cases flushing : flush
          { output with buffered := output.buffered ++ bytes.take free, failed := none } store with
      | mk flushed middle =>
          obtain ⟨attempts, empty⟩ := flush_spec _ _ flushed store middle filled flushing
          simp only [flushing] at putting
          split at putting
          · rename_i failed
            cases putting
            have broken : next.failed ≠ none := by
              intro fine
              simp [fine] at failed
            refine ⟨⟨attempts.changes, attempts.located, fun fine => absurd fine broken⟩, ?_⟩
            intro _
            exact (attempts.stalls broken).extend _
          · rename_i fine
            have well : flushed.failed = none := by simpa using fine
            cases ending : flushed.putEmpty middle (bytes.drop free) with
            | mk last rest =>
                obtain ⟨reached, count⟩ := rest
                have later := putEmpty_spec _ (bytes.drop free) flushed last middle reached count
                  (attempts.carries well) (empty well) ending
                simp only [ending] at putting
                cases putting
                have both := attempts.toDelivers.trans later.toDelivers
                refine ⟨⟨both.changes, both.located, both.carries⟩, ?_⟩
                intro failed
                have stalled := later.stalls failed
                rwa [attempts.located] at stalled

end IgaArchive.Archive.Output

import IgaArchive.Archive.Creation
import IgaArchive.Proofs.Archive.Format
import IgaArchive.Proofs.Archive.Framing

/-!
Reading an input while an output is written. An input that is another file reads as it was. One that is
the file of the output reads as what has been sent there so far; as the stream to the file is only ever
added to, that is the front of the file that comes out in the end.
-/

namespace IgaArchive.Archive

theorem prefix_append_piece (whole data : Bytes) (length : Nat) (front : data <+: whole) :
    data ++ (whole.drop data.length).take length <+: whole := by
  obtain ⟨more, rfl⟩ := front
  rw [List.drop_left, List.prefix_append_right_inj]
  exact List.take_prefix _ _

/-- Bytes from the front of an input: of the contents it had, or of the stream to the file at `location`
if the input is that file. -/
def Drawn (location place : Location) (contents stream data : Bytes) : Prop :=
  data <+: if place = location then stream else contents

theorem Drawn.mono {location place : Location} {contents stream whole data : Bytes}
    (drawn : Drawn location place contents stream data) (longer : stream <+: whole) :
    Drawn location place contents whole data := by
  unfold Drawn at *
  split at drawn
  · rename_i same
    rw [if_pos same]
    exact drawn.trans longer
  · rename_i other
    rw [if_neg other]
    exact drawn

theorem Drawn.eq_take {location place : Location} {contents stream data : Bytes}
    (drawn : Drawn location place contents stream data) (length : data.length = contents.length) :
    data = if place = location then stream.take contents.length else contents := by
  unfold Drawn at drawn
  split at drawn
  · rename_i same
    rw [if_pos same, ← length]
    exact List.prefix_iff_eq_take.mp drawn
  · rename_i other
    rw [if_neg other]
    exact drawn.eq_of_length length

/-- An input as it stands while an output is written: its file has the contents it had, or it is the file
of the output and no device. -/
def Stands (store : Store) (location place : Location) (contents : Bytes) : Prop :=
  if place = location then store.node? location ≠ some .fullDevice
  else store.node? place = some (.file (.ofBytes contents))

theorem Stands.again {store after : Store} {location place : Location} {contents : Bytes}
    (stands : Stands store location place contents)
    (changes : Store.ChangesOnly (· = location) store after)
    (devices : Store.SameDevices store after) : Stands after location place contents := by
  unfold Stands at *
  split at stands
  · rename_i same
    rw [if_pos same, Ne, devices location]
    exact stands
  · rename_i other
    rw [if_neg other, changes.outside place other]
    exact stands

theorem Stands.drawn {store : Store} {output : Output} {place : Location}
    {container contents stream data : Bytes}
    (stands : Stands store output.location place contents)
    (conveys : Output.Conveys container stream output store)
    (drawn : Drawn output.location place contents stream data) (length : Nat)
    (enough : length ≤ (store.readAt place data.length length).length) :
    Drawn output.location place contents stream
      (data ++ store.readAt place data.length length) := by
  unfold Stands Drawn at *
  split at stands
  · rename_i same
    rw [if_pos same] at drawn ⊢
    obtain ⟨_, _, sent, received, _, shape⟩ := conveys.carries
    have file := received.resolve_right fun device => stands device.1
    have reads : store.readAt place data.length length = (sent.drop data.length).take length := by
      rw [Store.readAt, same]
      simp only [Output.under] at file
      rw [file]
      simp [Contents.slice_eq, Contents.toBytes_ofBytes]
    rw [reads, List.length_take, List.length_drop] at enough
    -- All of the piece has been sent, so it is the same piece of the stream.
    have piece : (sent.drop data.length).take length = (stream.drop data.length).take length := by
      rcases Nat.eq_zero_or_pos length with rfl | more
      · rfl
      · rw [← shape, List.drop_append_of_le_length (by omega), List.take_append_of_le_length]
        rw [List.length_drop]
        omega
    rw [reads, piece]
    exact prefix_append_piece stream data length drawn
  · rename_i other
    rw [if_neg other] at drawn ⊢
    have reads : store.readAt place data.length length =
        (contents.drop data.length).take length := by
      rw [Store.readAt, stands]
      simp [Contents.slice_eq, Contents.toBytes_ofBytes]
    rw [reads]
    exact prefix_append_piece contents data length drawn

def OutputSink.Drew (start : OutputSink) (container stream : Bytes) (place : Location)
    (contents : Bytes) (key : UInt8) (count : Nat) (sink : OutputSink) : Prop :=
  ∃ data later, data.length = count ∧ stream <+: later ∧
    Drawn start.output.location place contents later data ∧
    Output.Moves (container ++ Payload.transform key 0 data) later start.output sink.output
      start.workspace.store sink.workspace.store

theorem OutputSink.write_moves (sink next : OutputSink) (container stream bytes : Bytes)
    (conveys : Output.Conveys container stream sink.output sink.workspace.store)
    (written : OutputSink.write sink bytes = (next, none)) :
    ∃ more, Output.Moves (container ++ bytes) (stream ++ more) sink.output next.output
      sink.workspace.store next.workspace.store := by
  cases writing : sink.output.write sink.workspace.store bytes with
  | mk last rest =>
      obtain ⟨reached, taken⟩ := rest
      simp only [OutputSink.write, writing] at written
      obtain ⟨rfl, healthy⟩ := Prod.mk.inj written
      exact Output.write_moves container stream bytes _ last _ reached taken conveys writing healthy

theorem OutputSink.write_drew (start sink next : OutputSink) (container stream : Bytes)
    (place : Location) (contents : Bytes) (key : UInt8) (position length : Nat)
    (stands : Stands start.workspace.store start.output.location place contents)
    (drew : start.Drew container stream place contents key position sink)
    (enough : length ≤ (sink.workspace.store.readAt place position length).length)
    (written : OutputSink.write sink (Payload.transform key (Int64.ofNat position)
      (sink.workspace.store.readAt place position length)) = (next, none)) :
    start.Drew container stream place contents key (position + length) next := by
  obtain ⟨data, later, rfl, longer, drawn, moves⟩ := drew
  have standing := stands.again moves.changes moves.devices
  rw [← moves.located] at drawn standing
  have further := standing.drawn moves.conveys drawn length enough
  rw [moves.located] at further
  have size : (sink.workspace.store.readAt place data.length length).length = length :=
    Nat.le_antisymm (Store.readAt_length_le _ _ _ _) enough
  have grown := Payload.transform_append key 0 data
    (sink.workspace.store.readAt place data.length length)
  rw [Int64.zero_add] at grown
  obtain ⟨more, step⟩ := write_moves sink next _ later _ moves.conveys written
  rw [List.append_assoc, ← grown] at step
  refine ⟨_, later ++ more, ?_, longer.trans (List.prefix_append _ _),
    further.mono (List.prefix_append _ _), moves.trans step⟩
  rw [List.length_append, size]

/-- What is stored of an input while `file` comes to be at a location: what the input held, or the front
of `file` if it is the one at this location. -/
def storedAs (store : Store) (location : Location) (file : Bytes) (source : Bytes × Member) :
    Member where
  name := source.2.name
  contents :=
    if store.place source.1 = location then file.take source.2.contents.length
    else source.2.contents

theorem storedAs_again {may : Location → Prop} {before after : Store}
    (changes : Store.ChangesOnly may before after) (location : Location) (file : Bytes) :
    storedAs after location file = storedAs before location file := by
  funext source
  simp only [storedAs, changes.place_eq]

theorem Drawn.storedAs {store : Store} {location : Location} {path file data : Bytes} {member : Member}
    (drawn : Drawn location (store.place path) member.contents file data)
    (length : data.length = member.contents.length) :
    storedAs store location file (path, member) = ⟨member.name, data⟩ := by
  rw [Archive.storedAs, drawn.eq_take length]

end IgaArchive.Archive

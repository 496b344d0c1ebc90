import IgaArchive.Archive.Extraction
import IgaArchive.Proofs.Action
import IgaArchive.Proofs.Basin

/-!
Moving one payload out of an archive, from its file or from memory. Whatever the transfer buffer, a new
file ends up with the payload decoded, as far as there is room for it; a device takes nothing.
-/

namespace IgaArchive.Store

def fill (store : Store) (location : Location) (bytes : Bytes) : Store :=
  if bytes = [] then store else store.put location (.file (.ofBytes bytes))

theorem node?_fill (store : Store) (location : Location) (bytes : Bytes)
    (empty : store.node? location = some (.file {})) :
    (store.fill location bytes).node? location = some (.file (.ofBytes bytes)) := by
  rw [fill]
  split
  · rename_i nothing
    rw [empty, nothing, Contents.empty_eq_ofBytes]
  · have below : location ≠ [] := by
      intro root
      rw [root] at empty
      cases empty
    rw [node?_put _ _ _ _ below, if_pos rfl]

@[simp] theorem terms_fill (store : Store) (location : Location) (bytes : Bytes) :
    (store.fill location bytes).terms = store.terms := by
  rw [fill]
  split
  · rfl
  · exact terms_put store location _

/-- The room that a file has at a location; a device has none. -/
def roomAt (store : Store) (location : Location) : Option Nat :=
  match store.node? location with
  | some .fullDevice => some 0
  | _ => (store.terms location).room

theorem fits_device {store : Store} {location : Location} {bytes : Bytes}
    (device : store.node? location = some .fullDevice)
    (fits : fitting (store.roomAt location) 0 bytes.length = bytes.length) : bytes = [] := by
  rw [roomAt, device, fitting, Nat.zero_sub, Nat.min_zero] at fits
  exact List.eq_nil_of_length_eq_zero fits.symm

theorem fill_changesOnly (store : Store) (location : Location) (bytes : Bytes)
    (fresh : store.node? location = some (.file {}) ∨ store.node? location = some .fullDevice)
    (fits : fitting (store.roomAt location) 0 bytes.length = bytes.length) :
    ChangesOnly (· = location) store (store.fill location bytes) := by
  rw [fill]
  split
  · exact ChangesOnly.refl _ _
  · rename_i some
    rcases fresh with empty | device
    · have below : location ≠ [] := by
        intro root
        rw [root] at empty
        cases empty
      exact put_changesOnly store location _ below (by rw [empty]; exact nofun)
    · exact absurd (fits_device device fits) some

/-- Writing goes on where it left off, as far as there is room. -/
theorem writeAt_fill (store : Store) (location : Location) (front piece : Bytes)
    (fresh : store.node? location = some (.file {}) ∨ store.node? location = some .fullDevice)
    (fits : fitting (store.roomAt location) 0 front.length = front.length) :
    (store.fill location front).writeAt location front.length piece =
      let taken := piece.take (fitting (store.roomAt location) front.length piece.length)
      (store.fill location (front ++ taken), taken.length,
        if taken.length < piece.length then some .noSpace else none) := by
  rcases fresh with empty | device
  · have present := node?_fill store location front empty
    have size : front.length = (Contents.ofBytes front).size := by
      rw [← Contents.length_toBytes, Contents.toBytes_ofBytes]
    have room : store.roomAt location = (store.terms location).room := by
      rw [roomAt, empty]
    rw [writeAt, present]
    simp only [room, terms_fill, size, Contents.overwrite_end, Contents.toBytes_ofBytes, Prod.mk.injEq,
      and_true]
    split
    · rename_i nothing
      rw [List.isEmpty_iff.mp nothing, List.append_nil]
    · rename_i some
      rw [List.isEmpty_iff] at some
      simp only [fill, List.append_eq_nil_iff, some, and_false, if_false]
      split
      · rfl
      · exact put_put store location _ _
  · have room : store.roomAt location = some 0 := by
      rw [roomAt, device]
    cases fits_device device fits
    simp only [room, fitting, fill, writeAt, device, if_true, List.length_nil, Nat.sub_zero, Nat.min_zero,
      List.take_zero, List.append_nil]
    cases piece <;> simp

/-- A path where a file can be made or replaced, and nothing is refused. -/
def Fillable (store : Store) (path : Bytes) : Prop :=
  ∃ node, store.fileTarget path = .ok (store.place path, node) ∧ node ≠ some .fullDevice ∧
    store.terms (store.place path) = {}

def Unlimited (store : Store) (directory : Location) : Prop :=
  ∀ below ≠ [], store.terms (directory ++ below) = {}

theorem ChangesOnly.unlimited {may : Location → Prop} {before after : Store} {directory : Location}
    (changes : ChangesOnly may before after) (unlimited : before.Unlimited directory) :
    after.Unlimited directory := by
  intro below down
  rw [changes.terms]
  exact unlimited below down

theorem initial_unlimited (directory : Location) (other : ¬ directory <+: writeOnlySetting) :
    initial.Unlimited directory := by
  intro below _
  have apart : directory ++ below ≠ writeOnlySetting := fun same => other ⟨below, same⟩
  simp [initial, apart]

theorem create_of_fillable (store : Store) (path : Bytes) (fillable : store.Fillable path) :
    store.create path = .ok (store.place path, store.put (store.place path) (.file {})) := by
  obtain ⟨node, target, file, free⟩ := fillable
  rw [create_of_fileTarget target, free]
  cases node with
  | none => rfl
  | some node =>
      cases node with
      | fullDevice => exact absurd rfl file
      | directory => rfl
      | file contents => rfl

theorem Fillable.again {may : Location → Prop} {before after : Store} {path : Bytes}
    (fillable : before.Fillable path) (changes : ChangesOnly may before after)
    (file : after.node? (before.place path) ≠ some .fullDevice)
    (free : after.node? (before.place path) ≠ some .directory) : after.Fillable path := by
  obtain ⟨node, target, _, plain⟩ := fillable
  refine ⟨_, ?_, file, ?_⟩
  · rw [changes.place_eq]
    exact fileTarget_again changes path _ node target free
  · rw [changes.place_eq, changes.terms, plain]

end IgaArchive.Store

namespace IgaArchive

def Tracker.addAll (tracker : Tracker) (counts : List UInt64) : Tracker :=
  counts.foldl Tracker.add tracker

/-- Tells a tracker of members in order, each by its name and then the counts of its pieces. -/
def Tracker.tellAll (tracker : Tracker) (history : List (Bytes × List UInt64)) : Tracker :=
  history.foldl (fun tracker (name, counts) => (tracker.entry name).addAll counts) tracker

end IgaArchive

namespace IgaArchive.Archive

def ciphertext (container : Bytes) (directory : Directory) (entry : Entry) : Bytes :=
  (container.drop (directory.start entry).toNatClampNeg).take entry.size.toNat

def plaintext (container : Bytes) (directory : Directory) (key : UInt8) (entry : Entry) : Bytes :=
  Payload.transform key 0 (ciphertext container directory entry)

/-- How much of the payload of an entry comes out of the container with a transfer buffer. -/
def obtained (container : Bytes) (directory : Directory) (buffer : Nat) (entry : Entry) : Nat :=
  Payload.obtainable (ciphertext container directory entry).length entry.size.toNat buffer

/-- The bytes that a transfer leaves where there is some room: as many as come out and fit. -/
def portion (container : Bytes) (directory : Directory) (key : UInt8) (buffer : Nat) (room : Option Nat)
    (entry : Entry) : Bytes :=
  (plaintext container directory key entry).take
    (Store.fitting room 0 (obtained container directory buffer entry))

/-- The front part of some bytes that a new file or a device takes. -/
def accepted (store : Store) (location : Location) (bytes : Bytes) : Bytes :=
  bytes.take (Store.fitting (store.roomAt location) 0 bytes.length)

def delivered (store : Store) (location : Location) (destination bytes : Bytes) :
    Except Failure Unit × Store :=
  (if (accepted store location bytes).length < bytes.length then
      .error (.ofTransfer .store (.write ⟨"write", destination, .noSpace⟩))
    else .ok (),
    store.fill location (accepted store location bytes))

theorem accepted_length (store : Store) (location : Location) (bytes : Bytes) :
    (accepted store location bytes).length = Store.fitting (store.roomAt location) 0 bytes.length := by
  rw [accepted, List.length_take, Nat.min_eq_left (Store.fitting_le _ _ _)]

/-- Where a sink stands that has gone on from `before` and whose file has taken the first bytes of a
payload. -/
structure FileSink.Reached (before : Workspace) (location : Location) (payload : Bytes) (count : Nat)
    (sink : FileSink) : Prop where
  position : sink.position = count
  workspace : ∃ counts, sink.workspace =
    { before with store := before.store.fill location (payload.take count),
                  tracker := before.tracker.map (Tracker.addAll · counts) }

theorem FileSink.write_changesOnly {destination : Bytes} {location : Location} {sink next : FileSink}
    {bytes : Bytes} {refused : Option Fault}
    (written : FileSink.write destination location sink bytes = (next, refused)) :
    Store.ChangesOnly (· = location) sink.workspace.store next.workspace.store ∧
      next.workspace.log = sink.workspace.log := by
  obtain ⟨rfl, _⟩ := Prod.mk.inj written
  exact ⟨Store.writeAt_changesOnly _ _ _ _, rfl⟩

theorem FileSink.write_reached (before : Workspace) (destination : Bytes) (location : Location)
    (payload : Bytes) (position length : Nat) (sink : FileSink)
    (fresh : before.store.node? location = some (.file {}) ∨
      before.store.node? location = some .fullDevice)
    (inside : position + length ≤ payload.length)
    (reached : FileSink.Reached before location payload position sink)
    (fits : Store.fitting (before.store.roomAt location) 0 position = position) :
    let taken := Store.fitting (before.store.roomAt location) position length
    ∃ next, FileSink.write destination location sink ((payload.drop position).take length) =
        (next, if taken < length then some ⟨"write", destination, .noSpace⟩ else none) ∧
      FileSink.Reached before location payload (position + taken) next := by
  obtain ⟨at_, counts, shape⟩ := reached
  have front : (payload.take position).length = position := by
    rw [List.length_take]
    omega
  have piece : ((payload.drop position).take length).length = length := by
    rw [List.length_take, List.length_drop]
    omega
  have bound := Store.fitting_le (before.store.roomAt location) position length
  have writing := Store.writeAt_fill before.store location (payload.take position)
    ((payload.drop position).take length) fresh (by rw [front, fits])
  simp only [front, piece, List.take_take, Nat.min_eq_left bound, ← List.take_add] at writing
  rw [List.length_take, List.length_drop, Nat.min_eq_left (by omega)] at writing
  simp only [FileSink.write, shape, at_, writing]
  refine ⟨_, Prod.ext rfl ?_, rfl, counts ++ [(Store.fitting (before.store.roomAt location) position
    length).toUInt64], ?_⟩
  · split <;> rfl
  · simp only [Workspace.count, Workspace.track, Option.map_map]
    congr 1
    cases before.tracker with
    | none => rfl
    | some tracker => simp [Tracker.addAll]

theorem ciphertext_length (container : Bytes) (directory : Directory) (entry : Entry)
    (inRange : (directory.start entry).toNatClampNeg + entry.size.toNat ≤ container.length) :
    (ciphertext container directory entry).length = entry.size.toNat := by
  rw [ciphertext, List.length_take, List.length_drop]
  omega

theorem plaintext_length (container : Bytes) (directory : Directory) (key : UInt8) (entry : Entry)
    (inRange : (directory.start entry).toNatClampNeg + entry.size.toNat ≤ container.length) :
    (plaintext container directory key entry).length = entry.size.toNat := by
  rw [plaintext, Payload.transform_length, ciphertext_length container directory entry inRange]

/-- The container of an archive is there to be read, in its file or in memory. -/
def Supplies (archive : Archive) (container : Bytes) (store : Store) : Prop :=
  match archive.container with
  | .inFile source => store.node? source = some (.file (.ofBytes container))
  | .inMemory contents => contents = .ofBytes container

def ReadsFrom (archive : Archive) (location : Location) : Prop :=
  archive.container = .inFile location

theorem Supplies.again {archive : Archive} {container : Bytes} {may : Location → Prop}
    {before after : Store} (supplies : archive.Supplies container before)
    (changes : Store.ChangesOnly may before after)
    (away : ∀ location, archive.ReadsFrom location → ¬ may location) :
    archive.Supplies container after := by
  unfold Supplies at *
  cases place : archive.container with
  | inFile source =>
      rw [place] at supplies
      simp only [changes.outside source (away source place)]
      exact supplies
  | inMemory contents =>
      rw [place] at supplies
      exact supplies

theorem Supplies.payload {archive : Archive} {container : Bytes} {store : Store}
    (supplies : archive.Supplies container store) (entry : Entry) (position length : Nat) :
    archive.payload entry store position length =
      ((ciphertext container archive.directory entry).drop position).take length := by
  have read : ∀ start count, archive.readAt store start count = (container.drop start).take count := by
    intro start count
    unfold Supplies at supplies
    cases place : archive.container with
    | inFile source =>
        rw [place] at supplies
        simp only at supplies
        simp only [readAt, place, Store.readAt, supplies, Contents.slice_eq, Contents.toBytes_ofBytes]
    | inMemory contents =>
        rw [place] at supplies
        simp only at supplies
        simp only [readAt, place, supplies, Contents.slice_eq, Contents.toBytes_ofBytes]
  simp only [Archive.payload, read, ciphertext, List.drop_take, List.take_take, List.drop_drop]

theorem payload_eq (archive : Archive) (source : Location) (container : Bytes) (entry : Entry)
    (store : Store) (position length : Nat) (inFile : archive.container = .inFile source)
    (present : store.node? source = some (.file (.ofBytes container))) :
    archive.payload entry store position length =
      ((ciphertext container archive.directory entry).drop position).take length := by
  have supplies : archive.Supplies container store := by
    simp only [Supplies, inFile]
    exact present
  exact supplies.payload entry position length

section Transfer

variable (archive : Archive) (container : Bytes) (task : Task)
variable (location : Location) (buffer : Int) (before : Workspace)

theorem transferTo_fills (positive : 0 < buffer) (supplies : archive.Supplies container before.store)
    (apart : ¬ archive.ReadsFrom location)
    (fresh : before.store.node? location = some (.file {}) ∨
      before.store.node? location = some .fullDevice) :
    let room := before.store.roomAt location
    ∃ counts, (archive.transferTo task location buffer).runOn before =
      (if Store.fitting room 0 (obtained container archive.directory buffer.toNat task.entry) <
            obtained container archive.directory buffer.toNat task.entry then
          .error (.ofTransfer .store (.write ⟨"write", task.destination, .noSpace⟩))
        else if task.entry.size.toNat ≤ (ciphertext container archive.directory task.entry).length then
          .ok ()
        else .error (.ofTransfer .store .shortRead),
        { before with
          store := before.store.fill location
            (portion container archive.directory task.key buffer.toNat room task.entry),
          tracker := before.tracker.map (Tracker.addAll · counts) }) := by
  intro room
  have whole : (plaintext container archive.directory task.key task.entry).length =
      (ciphertext container archive.directory task.entry).length := Payload.transform_length _ _ _
  have start : FileSink.Reached before location
      (plaintext container archive.directory task.key task.entry) 0 { workspace := before } :=
    ⟨rfl, [], by simp [Store.fill, Tracker.addAll]⟩
  obtain ⟨final, moved, run, _, counts, shape⟩ := Payload.transfer_obtains
    (fun sink : FileSink => archive.payload task.entry sink.workspace.store)
    (FileSink.write task.destination location) task.key buffer.toNat task.entry.size.toNat
    (ciphertext container archive.directory task.entry) room ⟨"write", task.destination, .noSpace⟩
    (FileSink.Reached before location (plaintext container archive.directory task.key task.entry))
    (by omega)
    (by
      intro position sink reached fits length
      obtain ⟨_, counts, shape⟩ := reached
      have part := Store.fitting_take fits (plaintext container archive.directory task.key task.entry)
      have filled := Store.fill_changesOnly before.store location _ fresh part
      rw [shape]
      apply (supplies.again filled _).payload task.entry position length
      intro other reads here
      exact apart (here ▸ reads))
    (by
      intro position sink length reached fits inside
      exact FileSink.write_reached before task.destination location _ position length sink fresh
        (Nat.le_trans inside (Nat.le_of_eq whole.symm)) reached fits)
    { workspace := before } start
  refine ⟨counts, ?_⟩
  have amount : Payload.obtainable (ciphertext container archive.directory task.entry).length
      task.entry.size.toNat buffer.toNat = obtained container archive.directory buffer.toNat task.entry := rfl
  rw [amount] at run shape
  simp only [Action.runOn, transferTo, run, shape, portion]
  by_cases full : Store.fitting room 0 (obtained container archive.directory buffer.toNat task.entry) <
      obtained container archive.directory buffer.toNat task.entry
  · simp only [if_pos full]
  · by_cases there : task.entry.size.toNat ≤ (ciphertext container archive.directory task.entry).length
    · simp only [if_neg full, if_pos there]
    · simp only [if_neg full, if_neg there]

theorem transferTo_run (positive : 0 < buffer) (supplies : archive.Supplies container before.store)
    (inRange : (archive.directory.start task.entry).toNatClampNeg + task.entry.size.toNat ≤
      container.length)
    (apart : ¬ archive.ReadsFrom location)
    (fresh : before.store.node? location = some (.file {}) ∨
      before.store.node? location = some .fullDevice) :
    ∃ counts, (archive.transferTo task location buffer).runOn before =
      ((delivered before.store location task.destination
          (plaintext container archive.directory task.key task.entry)).1,
        { before with
          store := (delivered before.store location task.destination
            (plaintext container archive.directory task.key task.entry)).2,
          tracker := before.tracker.map (Tracker.addAll · counts) }) := by
  have size := ciphertext_length container archive.directory task.entry inRange
  have length := plaintext_length container archive.directory task.key task.entry inRange
  have all : obtained container archive.directory buffer.toNat task.entry = task.entry.size.toNat :=
    if_pos (Nat.le_of_eq size.symm)
  obtain ⟨counts, run⟩ :=
    transferTo_fills archive container task location buffer before positive supplies apart fresh
  refine ⟨counts, ?_⟩
  rw [run, delivered, accepted_length, accepted, length, portion, all, if_pos (Nat.le_of_eq size.symm)]

end Transfer

end IgaArchive.Archive

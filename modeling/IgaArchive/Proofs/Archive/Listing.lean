import IgaArchive.Archive.Listing
import IgaArchive.Proofs.Archive.Rejection

/-!
Listing an archive. Payloads are digested from the same ranges and under the same keys as they are
extracted, so a listing tells beforehand what an extraction leaves behind.
-/

namespace IgaArchive.Archive

theorem decoded_eq (archive : Archive) (container : Bytes) (store : Store) (policy : KeyPolicy)
    (buffer : Int) (entry : Entry) (positive : 0 < buffer)
    (supplies : archive.Supplies container store)
    (inRange : (archive.directory.start entry).toNatClampNeg + entry.size.toNat ≤ container.length) :
    archive.decoded store policy buffer entry =
      .ok (plaintext container archive.directory (Payload.key entry.name policy) entry) := by
  have size := ciphertext_length container archive.directory entry inRange
  have whole := plaintext_length container archive.directory (Payload.key entry.name policy) entry
    inRange
  have spec := Payload.transferFrom_spec (fun _ => archive.payload entry store) Payload.Basin.sink
    (Payload.key entry.name policy) buffer.toNat (ciphertext container archive.directory entry)
    (fun count basin => basin = { held := (plaintext container archive.directory
      (Payload.key entry.name policy) entry).take count })
    (by omega)
    (fun position _ _ length _ => supplies.payload entry position length)
    (by
      rintro position _ next length rfl _ _ written
      simp only [Payload.Basin.sink, Payload.Basin.pour, Prod.mk.injEq, and_true] at written
      rw [← written, List.take_add]
      rfl)
    0 {} rfl (Nat.zero_le _)
  rcases spec with ⟨final, run, held⟩ | ⟨_, _, _, _, _, rfl, _, _, refused, _⟩
  · rw [size, List.take_of_length_le (Nat.le_of_eq whole)] at held
    rw [size] at run
    simp only [decoded, Payload.transfer, run, held]
  · simp [Payload.Basin.sink, Payload.Basin.pour] at refused

def itemOf (container : Bytes) (directory : Directory) (options : ListOptions) (entry : Entry) :
    ListItem where
  entry
  start := directory.start entry
  digest := if options.digest then
      digestText (plaintext container directory (Payload.key entry.name options.policy) entry)
    else []

theorem listItem_eq (archive : Archive) (container : Bytes) (store : Store) (options : ListOptions)
    (buffer : Int) (entry : Entry) (positive : 0 < buffer)
    (supplies : archive.Supplies container store)
    (inRange : (archive.directory.start entry).toNatClampNeg + entry.size.toNat ≤ container.length) :
    archive.listItem store options buffer entry =
      .ok (itemOf container archive.directory options entry) := by
  rw [listItem, itemOf]
  split
  · rw [decoded_eq archive container store options.policy buffer entry positive supplies inRange]
    rfl
  · rfl

theorem list_of_opened (path : Bytes) (options : ListOptions) (before opened : Workspace)
    (archive : Archive) (container : Bytes)
    (valid : Payload.ValidBuffer (Payload.chosenBuffer options.buffer))
    (accepted : (openAt path options.lz4).runOn before = (.ok archive, opened))
    (supplies : archive.Supplies container opened.store)
    (within : Within archive.directory container.length) :
    (list path options).runOn before =
      (.ok { header := archive.directory.header,
             items := archive.directory.entries.map (itemOf container archive.directory options) },
        opened) := by
  have items : archive.directory.entries.mapM (archive.listItem opened.store options
      (Payload.chosenBuffer options.buffer)) =
      .ok (archive.directory.entries.map (itemOf container archive.directory options)) := by
    apply Result.mapM_of_ok
    intro entry member
    obtain ⟨start, _, fits⟩ := within
    obtain ⟨position, fit⟩ := fits entry member
    exact listItem_eq archive container opened.store options _ entry valid.1 supplies (by omega)
  rw [list, Action.bind_of_ok _ _ _ _ _ (Action.checkBuffer_run valid before),
    Action.bind_of_ok _ _ _ _ _ accepted]
  exact Action.bind_of_ok _ _ _ _ _ (congrArg (·, opened) items)

/-- An item of a listing that is right about its entry: the payload starts where it says, and the digest
is that of the decoded payload, or left out if it was not asked for. -/
structure Describes (container : Bytes) (directory : Directory) (options : ListOptions)
    (item : ListItem) : Prop where
  start : item.start.toInt = directory.dataStart.toInt + item.entry.offset.toNat
  digest : options.digest = true →
    ∃ payload, Decodes container directory options.policy item.entry payload ∧
      item.digest = utf8 "sha256:" ++ Numeral.hexBytes (Sha256.digest payload)
  undigested : options.digest = false → item.digest = []

theorem OpenedFrom.describes {path : Bytes} {wrapped : Bool} {before after : Workspace}
    {archive : Archive} {location : Location} {contents : Contents} {container : Bytes}
    (opened : OpenedFrom path wrapped before after archive location contents container)
    (short : contents.size < 0x4000000000000000) (options : ListOptions) (entry : Entry)
    (member : entry ∈ archive.directory.entries) :
    Describes container archive.directory options
      (itemOf container archive.directory options entry) := by
  refine ⟨opened.start_eq short entry member, ?_, ?_⟩
  · intro asked
    refine ⟨_, plaintext_decodes container archive.directory options.policy entry
      (opened.within short) member, ?_⟩
    rw [itemOf, if_pos asked, digestText]
  · intro unasked
    simp [itemOf, unasked]

theorem list_run (path : Bytes) (before : Workspace)
    (short : ∀ location contents, before.store.find path = .ok (location, .file contents) →
      contents.size < 0x4000000000000000)
    (unread : ¬ before.log.Reaches before.store (before.store.place path)) (options : ListOptions)
    (archive : Archive) (opened : Workspace)
    (valid : Payload.ValidBuffer (Payload.chosenBuffer options.buffer))
    (accepted : (openAt path options.lz4).runOn before = (.ok archive, opened)) :
    ∃ contents container,
      OpenedFrom path options.lz4 before opened archive (before.store.place path) contents container ∧
      contents.size < 0x4000000000000000 ∧
      (list path options).runOn before =
        (.ok { header := archive.directory.header,
               items := archive.directory.entries.map (itemOf container archive.directory options) },
          opened) := by
  obtain ⟨location, contents, container, source⟩ :=
    openAt_opens path options.lz4 archive before opened accepted
  have small := short location contents source.found
  obtain rfl : location = before.store.place path := (Store.find_eq_ok _ _ _ _ source.found).2.2.1
  refine ⟨contents, container, source, small, ?_⟩
  exact list_of_opened path options before opened archive container valid accepted
    (source.supplies unread) (source.within small)

def ExtractOptions.destination (options : ExtractOptions) (entry : Entry) : Bytes :=
  Path.join (baseOf options.outputDirectory) entry.name

/-- An entry that is extracted neither over the archive nor over the files of the log. -/
def ExtractOptions.Spares (options : ExtractOptions) (path : Bytes) (before : Workspace)
    (entry : Entry) : Prop :=
  before.store.place (options.destination entry) ≠ before.store.place path ∧
    ¬ before.log.Reaches before.store (before.store.place (options.destination entry))

theorem extract_holds (path : Bytes) (options : ExtractOptions) (before opened after : Workspace)
    (archive : Archive) (contents : Contents) (container : Bytes)
    (source : OpenedFrom path options.lz4 before opened archive (before.store.place path) contents
      container)
    (short : contents.size < 0x4000000000000000)
    (unread : ¬ before.log.Reaches before.store (before.store.place path))
    (accepted : (openAt path options.lz4).runOn before = (.ok archive, opened))
    (extracted : (extract path options).runOn before = (.ok (), after))
    (spared : ∀ entry ∈ archive.directory.entries, options.Spares path before entry)
    (front : List Entry) (entry : Entry) (back : List Entry)
    (shape : archive.directory.entries = front ++ entry :: back)
    (last : ∀ later ∈ back, options.destination later ≠ options.destination entry) :
    Holds container archive.directory
      (taskOf archive.directory options.outputDirectory options.policy entry)
      (before.store.place (options.destination entry)) after.store := by
  have poised : ∀ list, tasks archive.directory options.outputDirectory options.policy = .ok list →
      Poised archive container list opened := by
    intro list listed
    obtain ⟨_, rfl⟩ := (tasks_eq_ok _ _ _ _).mp listed
    refine source.poised short listed ?_ unread ?_
    · intro task member
      obtain ⟨other, inside, rfl⟩ := List.mem_map.mp member
      exact (spared other inside).1
    · intro task member
      obtain ⟨other, inside, rfl⟩ := List.mem_map.mp member
      exact (spared other inside).2
  obtain ⟨list, made, listed, makes, ran⟩ :=
    extract_finished path options before opened after archive container accepted poised extracted
  have prepared : Poised archive container list { opened with store := made } :=
    (poised list listed).onlyMakes makes rfl
  have place : made.place (options.destination entry) =
      before.store.place (options.destination entry) :=
    (makes.changesOnly.place_eq _).trans (source.changes.place_eq _)
  obtain ⟨_, rfl⟩ := (tasks_eq_ok _ _ _ _).mp listed
  rw [← place]
  apply extractions_hold container archive.directory options.outputDirectory options.policy _ made
    after.store opened.log after.log listed prepared.quiet ran
    (front.map (taskOf archive.directory options.outputDirectory options.policy)) _
    (back.map (taskOf archive.directory options.outputDirectory options.policy))
  · rw [shape, List.map_append, List.map_cons]
  · intro other member
    obtain ⟨later, inside, rfl⟩ := List.mem_map.mp member
    exact last later inside

/-- Listing and extraction agree. Whatever archive is opened can be listed, which changes nothing and
tells every entry in order with its place and, if asked for, the digest of its payload. If the archive is
extracted as well, every file that no later entry replaces has the size and the digest that the listing
tells. -/
theorem list_agrees_with_extract (path : Bytes) (before : Workspace)
    (short : ∀ location contents, before.store.find path = .ok (location, .file contents) →
      contents.size < 0x4000000000000000)
    (unread : ¬ before.log.Reaches before.store (before.store.place path)) :
    (∀ (options : ListOptions) (archive : Archive) (opened : Workspace),
      Payload.ValidBuffer (Payload.chosenBuffer options.buffer) →
      (openAt path options.lz4).runOn before = (.ok archive, opened) →
      ∃ contents container listing after,
        before.store.find path = .ok (before.store.place path, .file contents) ∧
        containerIn options.lz4 contents.toBytes = .ok container ∧
        (list path options).runOn before = (.ok listing, after) ∧ Untouched before after ∧
        listing.header = archive.directory.header ∧
        listing.items.map ListItem.entry = archive.directory.entries ∧
        ∀ item ∈ listing.items, Describes container archive.directory options item) ∧
    ∀ (options : ExtractOptions) (after : Workspace) (asked : ListOptions),
      (extract path options).runOn before = (.ok (), after) →
      asked.policy = options.policy → asked.lz4 = options.lz4 → asked.digest = true →
      Payload.ValidBuffer (Payload.chosenBuffer asked.buffer) →
      ∃ listing ended, (list path asked).runOn before = (.ok listing, ended) ∧
        ((∀ item ∈ listing.items, options.Spares path before item.entry) →
          ∀ front item back, listing.items = front ++ item :: back →
          (∀ later ∈ back, options.destination later.entry ≠ options.destination item.entry) →
          ∃ node bytes, after.store.find (options.destination item.entry) =
              .ok (before.store.place (options.destination item.entry), node) ∧
            (node = .file (.ofBytes bytes) ∨ node = .fullDevice ∧ bytes = []) ∧
            bytes.length = item.entry.size.toNat ∧
            item.digest = utf8 "sha256:" ++ Numeral.hexBytes (Sha256.digest bytes)) := by
  constructor
  · intro options archive opened valid accepted
    obtain ⟨contents, container, source, small, run⟩ :=
      list_run path before short unread options archive opened valid accepted
    obtain ⟨messages, noted⟩ := openAt_onlyDetails path options.lz4 before
    rw [accepted] at noted
    simp only at noted
    refine ⟨contents, container, _, opened, source.found, source.held, run, ?_, rfl, ?_, ?_⟩
    · rw [noted]
      exact untouched_detailed before messages
    · rw [List.map_map]
      exact List.map_id _
    · intro item member
      obtain ⟨entry, inside, rfl⟩ := List.mem_map.mp member
      exact source.describes small options entry inside
  · intro options after asked extracted policy lz4 digest valid
    obtain ⟨_, archive, opened, _, accepted, _⟩ := extract_opens path options before after extracted
    obtain ⟨contents, container, source, small, run⟩ :=
      list_run path before short unread asked archive opened valid (by rw [lz4]; exact accepted)
    rw [lz4] at source
    refine ⟨_, opened, run, ?_⟩
    intro spared front item back shape last
    -- The items stand in the order of the entries, so the list of entries comes apart likewise.
    obtain ⟨earlier, rest, entries, rfl, items⟩ := List.map_eq_append_iff.mp shape
    obtain ⟨entry, later, rfl, rfl, rfl⟩ := List.map_eq_cons_iff.mp items
    have inside : entry ∈ archive.directory.entries := by simp [entries]
    have decodes := plaintext_decodes container archive.directory options.policy entry
      (source.within small) inside
    have holds := extract_holds path options before opened after archive contents container source small
      unread accepted extracted
      (fun other member =>
        spared (itemOf container archive.directory asked other) (List.mem_map_of_mem member))
      earlier entry later entries
      (fun other member =>
        last (itemOf container archive.directory asked other) (List.mem_map_of_mem member))
    obtain ⟨node, found, shape⟩ := holds
    refine ⟨node, _, found, shape, decodes.length, ?_⟩
    rw [itemOf, if_pos digest, digestText, policy]
    rfl

def framed : Bytes :=
  [0x04, 0x22, 0x4D, 0x18, 0x60, 0x40, 0x82, 35, 0, 0, 0x80] ++ overlappingContainer ++ [0, 0, 0, 0]

def framedFile : Workspace where
  store := Store.initial.put [utf8 "work", utf8 "framed"] (.file (.ofBytes framed))

def unwrapping : ExtractOptions where
  outputDirectory := utf8 "out/deep"
  makeDirectory := true
  lz4 := true

def digesting : ListOptions where
  digest := true
  lz4 := true

/-- The repeated name is listed with the digest of the three bytes that its last entry leaves. -/
theorem list_agrees_with_extract_framed :
    ∃ listing ended after first second item bytes,
      (list (utf8 "framed") digesting).runOn framedFile = (.ok listing, ended) ∧ ended = framedFile ∧
      (extract (utf8 "framed") unwrapping).runOn framedFile = (.ok (), after) ∧
      listing.items = [first, second, item] ∧ item.entry = ⟨4, utf8 "a", 0, 3⟩ ∧
      after.store.find (utf8 "out/deep/a") =
        .ok ([utf8 "work", utf8 "out", utf8 "deep", utf8 "a"], .file (.ofBytes bytes)) ∧
      bytes.length = 3 ∧
      item.digest = utf8 "sha256:" ++ Numeral.hexBytes (Sha256.digest bytes) := by
  have there : framedFile.store.find (utf8 "framed") =
      .ok ([utf8 "work", utf8 "framed"], .file (.ofBytes framed)) := by
    rfl
  have works : ((extract (utf8 "framed") unwrapping).runOn framedFile).1.toOption.isSome = true := by
    decide +kernel
  have lists : ((list (utf8 "framed") digesting).runOn framedFile).1.toOption.map
      (fun listing => listing.items.map ListItem.entry) = some overlapping.entries := by
    decide +kernel
  have apart : ∀ entry ∈ overlapping.entries,
      framedFile.store.place (unwrapping.destination entry) ≠ framedFile.store.place (utf8 "framed") := by
    decide +kernel
  have destination : unwrapping.destination ⟨4, utf8 "a", 0, 3⟩ = utf8 "out/deep/a" := by
    decide +kernel
  have place : framedFile.store.place (utf8 "out/deep/a") =
      [utf8 "work", utf8 "out", utf8 "deep", utf8 "a"] := by
    decide +kernel
  have buffer : Payload.ValidBuffer (Payload.chosenBuffer digesting.buffer) := by
    decide +kernel
  obtain ⟨_, after, extracted⟩ := Action.exists_ok works
  obtain ⟨_, archive, opened, _, accepted, _⟩ := extract_opens _ _ _ _ extracted
  obtain ⟨telling, agreeing⟩ := list_agrees_with_extract (utf8 "framed") framedFile
    (by
      intro location contents found
      rw [there] at found
      cases found
      decide +kernel)
    (fun reached => nomatch reached.1)
  obtain ⟨_, _, listing, ended, _, _, listed, untouched, _⟩ :=
    telling digesting archive opened buffer accepted
  obtain ⟨_, _, again, holds⟩ := agreeing unwrapping after digesting extracted rfl rfl rfl buffer
  rw [listed] at lists again
  cases again
  have entries : listing.items.map ListItem.entry = overlapping.entries := Option.some.inj lists
  obtain ⟨first, tail, items, _, rest⟩ := List.map_eq_cons_iff.mp entries
  obtain ⟨second, tail, rfl, _, rest⟩ := List.map_eq_cons_iff.mp rest
  obtain ⟨item, tail, rfl, named, rest⟩ := List.map_eq_cons_iff.mp rest
  obtain rfl := List.map_eq_nil_iff.mp rest
  obtain ⟨node, bytes, found, shape, length, digest⟩ := holds
    (by
      intro other member
      have inside := List.mem_map_of_mem (f := ListItem.entry) member
      rw [entries] at inside
      exact ⟨apart _ inside, fun reached => nomatch reached.1⟩)
    [first, second] item [] items nofun
  rw [named, destination, place] at found
  rw [named] at length
  rcases shape with rfl | ⟨_, rfl⟩
  · exact ⟨listing, ended, after, first, second, item, bytes, listed, untouched.silent rfl, extracted, items,
      named, found, length, digest⟩
  · cases length

end IgaArchive.Archive

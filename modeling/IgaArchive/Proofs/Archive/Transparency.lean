import IgaArchive.Proofs.Archive.Alongside
import IgaArchive.Proofs.Archive.Listing
import IgaArchive.Proofs.Archive.Overlap

/-!
An archive in a frame is the archive that is in the frame. What is told of it, what is extracted from it
and how it fails are the same as for a file that holds the container as it is, up to the limit on
unwrapping. Beyond the limit a frame is refused, as is everything that is no frame, and a frame that is not
unwrapped is no archive.
-/

namespace IgaArchive.Workspace

/-- Where lines of the log may come to stand: where it gets to, unless that is a directory already. -/
def Logged (workspace : Workspace) (location : Location) : Prop :=
  workspace.log.Reaches workspace.store location ∧
    workspace.store.node? location ≠ some .directory

theorem settled (workspace : Workspace) :
    workspace.log.Settled workspace.Logged workspace.store := by
  intro location reached
  by_cases directory : workspace.store.node? location = some .directory
  · exact Or.inr directory
  · exact Or.inl ⟨reached, directory⟩

end IgaArchive.Workspace

namespace IgaArchive.Archive

theorem openAt_changesOnly {path : Bytes} {wrapped : Bool} {before after : Workspace}
    {result : Except Failure Archive} (ran : (openAt path wrapped).runOn before = (result, after)) :
    Store.ChangesOnly (before.log.Reaches before.store) before.store after.store := by
  obtain ⟨messages, noted⟩ := openAt_onlyDetails path wrapped before
  rw [ran] at noted
  simp only at noted
  rw [noted]
  exact (before.detailed_spec messages).2

theorem agree_of_changes {before left right : Workspace}
    (changes : Store.ChangesOnly (before.log.Reaches before.store) before.store left.store)
    (changesToo : Store.ChangesOnly (before.log.Reaches before.store) before.store right.store) :
    Store.AgreeOutside before.Logged left.store right.store :=
  (Store.AgreeOutside.of_changes changes before.settled).symm.trans
    (.of_changes changesToo before.settled)

structure SameArchive (container : Bytes) (unwrapped bare : Archive) : Prop where
  directory : unwrapped.directory = bare.directory
  size : unwrapped.size = Int64.ofNat container.length
  bareSize : bare.size = Int64.ofNat container.length
  wrapped : unwrapped.wrapped = true
  unframed : bare.wrapped = false

/-- A file that is a frame and yields a container, either with no more room for a block than the frame
tells or as it is read for unwrapping, where a block may fill the receiving buffer. -/
structure Yields (file container : Bytes) : Prop where
  start : file.take 4 = Lz4.magic
  decoded : Lz4.content (file.drop 4) = .ok container ∨
    Lz4.unpack (maxUnwrapSize + 1) (file.drop 4) = .ok container

theorem Yields.containerIn_eq {file container : Bytes} (yields : Yields file container) :
    containerIn true file =
      if container.length ≤ maxUnwrapSize then .ok container
      else .error (.frameTooLarge maxUnwrapSize) := by
  rcases yields.decoded with content | unpacked
  · exact Frames.containerIn_eq ⟨yields.start, content⟩
  · rw [containerIn, if_pos rfl, unwrap, if_neg (fun differs => differs yields.start), unpacked]
    by_cases room : container.length ≤ maxUnwrapSize
    · simp only [if_pos room, if_neg (Nat.not_lt.mpr room)]
    · simp only [if_neg room, if_pos (Nat.lt_of_not_le room)]

/-- A file with a frame that yields a container, and one that holds it as it is, away from the log. -/
structure Wrapping (framed plain container : Bytes) (before : Workspace) : Prop where
  frames : ∃ file, before.store.readWhole framed = .ok file ∧ Yields file container
  whole : before.store.readWhole plain = .ok container
  unread : ¬ before.log.Reaches before.store (before.store.place plain)

structure BothOpen (framed plain container : Bytes) (before left right : Workspace)
    (unwrapped bare : Archive) : Prop where
  accepted : (openAt framed true).runOn before = (.ok unwrapped, left)
  acceptedToo : (openAt plain false).runOn before = (.ok bare, right)
  same : SameArchive container unwrapped bare
  source : ∃ location contents, OpenedFrom framed true before left unwrapped location contents container
  sourceToo : OpenedFrom plain false before right bare (before.store.place plain)
    (.ofBytes container) container

/-- An extraction that keeps away from an archive and from the log. No destination is the file of the
archive or one that the log gets at, and neither a destination nor an output directory that is to be made
passes a place where lines of the log may come to stand. -/
structure ExtractOptions.KeepsAway (options : ExtractOptions) (path container : Bytes)
    (before : Workspace) : Prop where
  output : options.makeDirectory = true →
    Store.Clear before.Logged before.store options.outputDirectory
  destinations : ∀ directory list, Directory.read container = .ok directory →
    tasks directory options.outputDirectory options.policy = .ok list → ∀ task ∈ list,
      before.store.place task.destination ≠ before.store.place path ∧
      ¬ before.log.Reaches before.store (before.store.place task.destination) ∧
      Store.Clear before.Logged before.store task.destination

section Wrapping

variable {framed plain container : Bytes} {before : Workspace}
variable (wrapping : Wrapping framed plain container before)
variable (room : container.length ≤ maxUnwrapSize)
include wrapping room

theorem Wrapping.opens :
    (∃ failure left right, (openAt framed true).runOn before = (.error failure, left) ∧
      (openAt plain false).runOn before = (.error failure, right)) ∨
    ∃ left right unwrapped bare, BothOpen framed plain container before left right unwrapped bare := by
  obtain ⟨file, whole, yields⟩ := wrapping.frames
  have held : containerIn true file = .ok container := by
    rw [yields.containerIn_eq, if_pos room]
  obtain ⟨messages, place, run⟩ := openAt_of_container framed file container true before whole held
  obtain ⟨messagesToo, placeToo, runToo⟩ :=
    openAt_of_container plain container container false before wrapping.whole rfl
  cases judged : verdict container with
  | error failure =>
      rw [judged] at run runToo
      exact Or.inl ⟨failure, _, _, run, runToo⟩
  | ok directory =>
      rw [judged] at run runToo
      refine Or.inr ⟨_, _, _, _, run, runToo, ⟨rfl, rfl, rfl, rfl, rfl⟩, ?_, ?_⟩
      · obtain ⟨location, contents, other, source⟩ := openAt_opens _ _ _ _ _ run
        have same := source.whole
        rw [whole] at same
        have heldToo := source.held
        rw [← Except.ok.inj same, held] at heldToo
        cases heldToo
        exact ⟨location, contents, source⟩
      · obtain ⟨location, contents, other, source⟩ := openAt_opens _ _ _ _ _ runToo
        have same := source.whole
        rw [wrapping.whole] at same
        obtain rfl := Except.ok.inj source.held
        cases Except.ok.inj same
        obtain rfl := (Store.find_eq_ok _ _ _ _ source.found).2.2.1
        rw [Contents.ofBytes_toBytes]
        exact source

end Wrapping

section BothOpen

variable {framed plain container : Bytes} {before left right : Workspace} {unwrapped bare : Archive}
variable (both : BothOpen framed plain container before left right unwrapped bare)
include both

theorem BothOpen.supplies : unwrapped.Supplies container left.store := by
  obtain ⟨_, _, source⟩ := both.source
  simp only [Supplies, source.place, if_true]

theorem BothOpen.within (room : container.length ≤ maxUnwrapSize) :
    Within bare.directory container.length := by
  apply both.sourceToo.within
  rw [← Contents.length_toBytes, Contents.toBytes_ofBytes]
  rw [maxUnwrapSize] at room
  omega

theorem BothOpen.payload (unread : ¬ before.log.Reaches before.store (before.store.place plain))
    (entry : Entry) (position length : Nat) :
    unwrapped.payload entry left.store position length =
      bare.payload entry right.store position length := by
  rw [both.supplies.payload, (both.sourceToo.supplies unread).payload, both.same.directory]

theorem BothOpen.beside : Beside before.store before.Logged left right := by
  obtain ⟨_, _, source⟩ := both.source
  refine ⟨source.changes.workingDirectory, agree_of_changes source.changes both.sourceToo.changes, ?_, ?_⟩
  · exact before.settled.again source.changes source.reach
  · exact before.settled.again both.sourceToo.changes both.sourceToo.reach

section Poised

variable {options : ExtractOptions} {list : List Task}
variable (room : container.length ≤ maxUnwrapSize)
variable (keeps : options.KeepsAway plain container before)
variable (listed : tasks bare.directory options.outputDirectory options.policy = .ok list)
include room keeps listed

theorem BothOpen.poisedToo (unread : ¬ before.log.Reaches before.store (before.store.place plain)) :
    Poised bare container list right := by
  have destinations := keeps.destinations bare.directory list both.sourceToo.read listed
  refine both.sourceToo.poised ?_ listed (fun task inside => (destinations task inside).1) unread
    (fun task inside => (destinations task inside).2.1)
  rw [← Contents.length_toBytes, Contents.toBytes_ofBytes]
  rw [maxUnwrapSize] at room
  omega

/-- A container in memory is touched by nothing, so only its ranges and the log matter. -/
theorem BothOpen.poised (unread : ¬ before.log.Reaches before.store (before.store.place plain)) :
    Poised unwrapped container list left := by
  obtain ⟨_, _, source⟩ := both.source
  have destinations := keeps.destinations bare.directory list both.sourceToo.read listed
  have inMemory : ∀ location, ¬ unwrapped.ReadsFrom location := by
    intro location reads
    have place := source.place.symm.trans reads
    cases place
  refine ⟨both.supplies, ?_, fun task _ => inMemory _, fun location reads => absurd reads (inMemory _), ?_⟩
  · rw [both.same.directory]
    exact (both.poisedToo room keeps listed unread).inRange
  · intro task inside
    exact Log.quiet_again source.changes source.reach _ (destinations task inside).2.1

end Poised

end BothOpen

section Wrapping

variable {framed plain container : Bytes} {before : Workspace}
variable (wrapping : Wrapping framed plain container before)
variable (room : container.length ≤ maxUnwrapSize)
include wrapping room

theorem Wrapping.lists (options : ListOptions) :
    ((list framed { options with lz4 := true }).runOn before).1 =
      ((list plain { options with lz4 := false }).runOn before).1 := by
  rcases Decidable.em (Payload.ValidBuffer (Payload.chosenBuffer options.buffer)) with valid | invalid
  · rcases wrapping.opens room with ⟨failure, _, _, failed, failedToo⟩ | ⟨_, _, _, _, both⟩
    · rw [list, list, Action.bind_of_ok _ _ _ _ _ (Action.checkBuffer_run valid before),
        Action.bind_of_ok _ _ _ _ _ (Action.checkBuffer_run valid before),
        Action.bind_of_error _ _ _ _ _ failed, Action.bind_of_error _ _ _ _ _ failedToo]
    · have within := both.within room
      rw [list_of_opened plain { options with lz4 := false } _ _ _ container valid both.acceptedToo
        (both.sourceToo.supplies wrapping.unread) within]
      rw [← both.same.directory] at within ⊢
      rw [list_of_opened framed { options with lz4 := true } _ _ _ container valid both.accepted
        both.supplies within]
      rfl
  · rw [list, list, Action.bind_of_error _ _ _ _ _ (Action.checkBuffer_refuses invalid before),
      Action.bind_of_error _ _ _ _ _ (Action.checkBuffer_refuses invalid before)]

/-- Extraction from a frame ends as it does from the container itself, and leaves the same files but for the
lines of the log. -/
theorem Wrapping.extracts (options : ExtractOptions) (keeps : options.KeepsAway plain container before) :
    ((extract framed { options with lz4 := true }).runOn before).1 =
        ((extract plain { options with lz4 := false }).runOn before).1 ∧
      Store.AgreeOutside before.Logged
        ((extract framed { options with lz4 := true }).runOn before).2.store
        ((extract plain { options with lz4 := false }).runOn before).2.store := by
  by_cases invalid : ¬ Payload.ValidBuffer (Payload.chosenBuffer options.buffer)
  · rw [extract, extract, Action.bind_of_error _ _ _ _ _ (Action.checkBuffer_refuses invalid before),
      Action.bind_of_error _ _ _ _ _ (Action.checkBuffer_refuses invalid before)]
    exact ⟨rfl, rfl, rfl, fun _ _ => rfl⟩
  have valid := Decidable.not_not.mp invalid
  rcases wrapping.opens room with ⟨failure, _, _, failed, failedToo⟩ | ⟨left, right, unwrapped, bare, both⟩
  · rw [extract, extract, Action.bind_of_ok _ _ _ _ _ (Action.checkBuffer_run valid before),
      Action.bind_of_ok _ _ _ _ _ (Action.checkBuffer_run valid before),
      Action.bind_of_error _ _ _ _ _ failed, Action.bind_of_error _ _ _ _ _ failedToo]
    exact ⟨rfl, agree_of_changes (openAt_changesOnly failed) (openAt_changesOnly failedToo)⟩
  · rw [extract_of_opened framed { options with lz4 := true } _ _ _ valid both.accepted,
      extract_of_opened plain { options with lz4 := false } _ _ _ valid both.acceptedToo,
      both.same.directory]
    cases listed : tasks bare.directory options.outputDirectory options.policy with
    | error refusal =>
        rw [Result.mapError_error, Action.bind_of_error _ _ _ _ _ (Action.ofExcept_run _ _),
          Action.bind_of_error _ _ _ _ _ (Action.ofExcept_run _ _)]
        exact ⟨rfl, both.beside.agree⟩
    | ok list =>
        rw [Result.mapError_ok, Action.bind_of_ok _ _ _ _ _ (Action.ofExcept_run _ _),
          Action.bind_of_ok _ _ _ _ _ (Action.ofExcept_run _ _)]
        have destinations := keeps.destinations bare.directory list both.sourceToo.read listed
        obtain ⟨same, after⟩ := performing_beside options unwrapped bare container list
          bare.directory.payloadSize (Payload.chosenBuffer options.buffer) valid.1
          both.same.directory.symm both.beside
          (both.poised room keeps listed wrapping.unread)
          (both.poisedToo room keeps listed wrapping.unread) keeps.output
          (fun task inside => (destinations task inside).2.2)
        exact ⟨same.symm, after.agree⟩

end Wrapping

/-- What an operation on a refused file fails with. The transfer buffer is checked before the file is
looked at. -/
def refusal (buffer : Int) (failure : Failure) : Failure :=
  if Payload.ValidBuffer (Payload.chosenBuffer buffer) then failure
  else .bufferSize (Payload.chosenBuffer buffer)

/-- A file that is refused as an archive, wrapped or not: whatever is tried with it fails in one way and
changes nothing. -/
structure Refused (path : Bytes) (wrapped : Bool) (failure : Failure) (before : Workspace) : Prop where
  opening : (openAt path wrapped).runOn before = (.error failure, before)
  listing : ∀ options : ListOptions, options.lz4 = wrapped →
    (list path options).runOn before = (.error (refusal options.buffer failure), before)
  extraction : ∀ options : ExtractOptions, options.lz4 = wrapped →
    (extract path options).runOn before = (.error (refusal options.buffer failure), before)

theorem checked_opening_fails {β : Type} {path : Bytes} {wrapped : Bool} {failure : Failure}
    {before : Workspace} (failed : (openAt path wrapped).runOn before = (.error failure, before))
    (buffer : Int) (next : Archive → Action β) :
    (Action.ofExcept (Payload.checkBuffer (Payload.chosenBuffer buffer)) >>= fun _ =>
      openAt path wrapped >>= next).runOn before = (.error (refusal buffer failure), before) := by
  rcases Decidable.em (Payload.ValidBuffer (Payload.chosenBuffer buffer)) with valid | invalid
  · rw [refusal, if_pos valid, Action.bind_of_ok _ _ _ _ _ (Action.checkBuffer_run valid before),
      Action.bind_of_error _ _ _ _ _ failed]
  · rw [refusal, if_neg invalid,
      Action.bind_of_error _ _ _ _ _ (Action.checkBuffer_refuses invalid before)]

theorem Refused.of_opening {path : Bytes} {wrapped : Bool} {failure : Failure} {before : Workspace}
    (failed : (openAt path wrapped).runOn before = (.error failure, before)) :
    Refused path wrapped failure before := by
  refine ⟨failed, ?_, ?_⟩
  · rintro options rfl
    exact checked_opening_fails failed options.buffer _
  · rintro options rfl
    exact checked_opening_fails failed options.buffer _

section Refused

variable (path bytes : Bytes) (before : Workspace)
variable (whole : before.store.readWhole path = .ok bytes)
include whole

theorem refused_beyond_limit (container : Bytes) (yields : Yields bytes container)
    (beyond : maxUnwrapSize < container.length) :
    Refused path true (.frameTooLarge maxUnwrapSize) before := by
  have held := yields.containerIn_eq
  rw [if_neg (by omega)] at held
  exact .of_opening (openAt_of_failure path bytes true before _ whole held)

theorem refused_without_magic (start : bytes.take 4 ≠ Lz4.magic) :
    Refused path true .notAFrame before := by
  have held : containerIn true bytes = .error .notAFrame := by
    rw [containerIn, if_pos rfl, unwrap, if_pos start]
  exact .of_opening (openAt_of_failure path bytes true before _ whole held)

end Refused

theorem read_of_frame_magic (bytes : Bytes) (start : bytes.take 4 = Lz4.magic) :
    Directory.read bytes = .error (.header (.signature #v[0x04, 0x22, 0x4D, 0x18])) := by
  have header := Header.read_wrong_signature (bytes.take 4) (bytes.drop 4) (by rw [start]; rfl)
    (by rw [start]; decide)
  rw [List.take_append_drop, start] at header
  rw [Directory.read, header]
  rfl

theorem magic_of_read (bytes : Bytes) (directory : Directory)
    (read : Directory.read bytes = .ok directory) : bytes.take 4 ≠ Lz4.magic := by
  intro start
  rw [read_of_frame_magic bytes start] at read
  cases read

theorem magic_of_short (bytes : Bytes) (short : bytes.length < 4) : bytes.take 4 ≠ Lz4.magic := by
  intro start
  have length := congrArg List.length start
  rw [List.length_take] at length
  simp only [Lz4.magic, List.length_cons, List.length_nil] at length
  omega

theorem refused_frame (path bytes : Bytes) (before : Workspace)
    (whole : before.store.readWhole path = .ok bytes) (start : bytes.take 4 = Lz4.magic) :
    Refused path false (.signature #v[0x04, 0x22, 0x4D, 0x18]) before := by
  obtain ⟨location, node, found, taken⟩ :=
    readWhole_eq_ok before.store path bytes .readSignature whole
  have opened := Action.openForReading_run .openArchive path before location node found
  have read := Action.ofExcept_eq_ok.mpr ⟨taken, Eq.refl before⟩
  apply Refused.of_opening
  rw [openAt, Action.bind_of_ok _ _ _ _ _ opened]
  simp only [Bool.false_eq_true, if_false]
  rw [Action.bind_of_ok _ _ _ _ _ read, ofContainer, read_of_frame_magic bytes start,
    Result.mapError_error, Action.bind_of_error _ _ _ _ _ (Action.ofExcept_run _ _)]
  rfl

/-- A frame stands for its container. Opening, listing and extraction with unwrapping make of it what they
make of a file that holds the container as it is, as long as the container may be unwrapped; for
extraction no destination may be the file with the container. A larger container is refused, and so are
a file that is no frame and a frame that is not unwrapped, before anything is changed. -/
theorem frame_is_transparent (before : Workspace) :
    (∀ framed plain container, Wrapping framed plain container before →
      container.length ≤ maxUnwrapSize →
      ((∃ failure left right, (openAt framed true).runOn before = (.error failure, left) ∧
          (openAt plain false).runOn before = (.error failure, right)) ∨
        ∃ left right unwrapped bare, (openAt framed true).runOn before = (.ok unwrapped, left) ∧
          (openAt plain false).runOn before = (.ok bare, right) ∧
          SameArchive container unwrapped bare ∧
          ∀ entry position length, unwrapped.payload entry left.store position length =
            bare.payload entry right.store position length) ∧
      (∀ options : ListOptions, ((list framed { options with lz4 := true }).runOn before).1 =
        ((list plain { options with lz4 := false }).runOn before).1) ∧
      ∀ options : ExtractOptions, options.KeepsAway plain container before →
        ((extract framed { options with lz4 := true }).runOn before).1 =
            ((extract plain { options with lz4 := false }).runOn before).1 ∧
          Store.AgreeOutside before.Logged
            ((extract framed { options with lz4 := true }).runOn before).2.store
            ((extract plain { options with lz4 := false }).runOn before).2.store) ∧
    (∀ path file container, before.store.readWhole path = .ok file → Yields file container →
      maxUnwrapSize < container.length → Refused path true (.frameTooLarge maxUnwrapSize) before) ∧
    (∀ path bytes, before.store.readWhole path = .ok bytes →
      (bytes.take 4 ≠ Lz4.magic → Refused path true .notAFrame before) ∧
      (bytes.take 4 = Lz4.magic →
        Refused path false (.signature #v[0x04, 0x22, 0x4D, 0x18]) before) ∧
      (bytes.length < 4 ∨ (∃ directory, Directory.read bytes = .ok directory) →
        bytes.take 4 ≠ Lz4.magic)) ∧
    (Failure.frameTooLarge maxUnwrapSize).kind = .tooLarge ∧ Failure.notAFrame.kind = .format ∧
    ∀ got, (Failure.signature got).kind = .signature := by
  refine ⟨?_, ?_, ?_, rfl, rfl, fun _ => rfl⟩
  · intro framed plain container wrapping room
    refine ⟨?_, wrapping.lists room, wrapping.extracts room⟩
    rcases wrapping.opens room with failed | ⟨left, right, unwrapped, bare, both⟩
    · exact Or.inl failed
    · exact Or.inr ⟨left, right, unwrapped, bare, both.accepted, both.acceptedToo, both.same,
        both.payload wrapping.unread⟩
  · intro path file container whole yields beyond
    exact refused_beyond_limit path file before whole container yields beyond
  · intro path bytes whole
    refine ⟨refused_without_magic path bytes before whole, refused_frame path bytes before whole, ?_⟩
    rintro (short | ⟨directory, read⟩)
    · exact magic_of_short bytes short
    · exact magic_of_read bytes directory read

theorem exists_frame (bytes : Bytes) (some : bytes ≠ []) : ∃ file, Frames file bytes := by
  have settled := Lz4.Writer.write_settled {} [] bytes Lz4.Writer.wrote_nothing
  have content : Bytes.ofByteArray (({} : Lz4.Writer).write bytes).2.content = bytes := by
    rw [settled.content, Lz4.Writer.grown, Lz4.Block.pushAll_eq_append]
    simp [Bytes.ofByteArray, Bytes.toByteArray]
  have frames := frames_of_closed _ _ settled.wrote settled.short (by rw [content]; exact some)
  rw [content] at frames
  exact ⟨_, frames⟩

def framedAndBare : Workspace where
  store := framedFile.store.put [utf8 "work", utf8 "plain"] (.file (.ofBytes overlappingContainer))

def holdingOnly (bytes : Bytes) : Workspace where
  store := Store.initial.put [utf8 "work", utf8 "file"] (.file (.ofBytes bytes))

theorem framedAndBare_wrapping :
    Wrapping (utf8 "framed") (utf8 "plain") overlappingContainer framedAndBare := by
  refine ⟨⟨framed, rfl, rfl, Or.inl (Result.eq_ok_of_toOption (by decide +kernel))⟩, rfl, ?_⟩
  exact fun reached => nomatch reached.1

theorem framedAndBare_keepsAway : unwrapping.KeepsAway (utf8 "plain") overlappingContainer framedAndBare := by
  have apart : ∀ entry ∈ overlapping.entries, framedAndBare.store.place
      (taskOf overlapping unwrapping.outputDirectory unwrapping.policy entry).destination ≠
        framedAndBare.store.place (utf8 "plain") := by
    decide +kernel
  refine ⟨(fun _ _ _ logged => nomatch logged.1.1), ?_⟩
  intro directory list read listed task inside
  have known : Directory.read overlappingContainer = .ok overlapping :=
    Result.eq_ok_of_toOption (by decide +kernel)
  cases Except.ok.inj (known.symm.trans read)
  obtain ⟨_, rfl⟩ := (tasks_eq_ok _ _ _ _).mp listed
  obtain ⟨entry, member, rfl⟩ := List.mem_map.mp inside
  exact ⟨apart entry member, (fun reached => nomatch reached.1), fun _ _ logged => nomatch logged.1.1⟩

/-- From the frame and from the file beside it come the same three bytes. The frame without unwrapping, the
file with it and a frame of one byte too many are refused. -/
theorem frame_is_transparent_overlapping :
    (∃ unwrapped bare left right,
      (openAt (utf8 "framed") true).runOn framedAndBare = (.ok unwrapped, left) ∧
      (openAt (utf8 "plain") false).runOn framedAndBare = (.ok bare, right) ∧
      unwrapped.directory = bare.directory ∧ unwrapped.size = 35 ∧ unwrapped.wrapped = true) ∧
    ((list (utf8 "framed") digesting).runOn framedAndBare).1 =
      ((list (utf8 "plain") { digesting with lz4 := false }).runOn framedAndBare).1 ∧
    ((extract (utf8 "framed") unwrapping).runOn framedAndBare).1 = .ok () ∧
    ((extract (utf8 "plain") { unwrapping with lz4 := false }).runOn framedAndBare).1 = .ok () ∧
    (∀ location, ((extract (utf8 "plain") { unwrapping with lz4 := false }).runOn framedAndBare).2.store.node?
      location = ((extract (utf8 "framed") unwrapping).runOn framedAndBare).2.store.node? location) ∧
    Refused (utf8 "plain") true .notAFrame framedAndBare ∧
    Refused (utf8 "framed") false (.signature #v[0x04, 0x22, 0x4D, 0x18]) framedAndBare ∧
    ∃ file container, container.length = maxUnwrapSize + 1 ∧ Frames file container ∧
      Refused (utf8 "file") true (.frameTooLarge maxUnwrapSize) (holdingOnly file) := by
  have works : ((extract (utf8 "framed") unwrapping).runOn framedAndBare).1.toOption = some () := by
    decide +kernel
  have opens : ((openAt (utf8 "framed") true).runOn framedAndBare).1.toOption.isSome = true := by
    decide +kernel
  have extracted := Result.eq_ok_of_toOption works
  obtain ⟨same, _, others, _⟩ := frame_is_transparent framedAndBare
  obtain ⟨opening, listing, extraction⟩ :=
    same (utf8 "framed") (utf8 "plain") overlappingContainer framedAndBare_wrapping (by decide)
  obtain ⟨ends, agree⟩ := extraction unwrapping framedAndBare_keepsAway
  refine ⟨?_, listing digesting, extracted, ends.symm.trans extracted, ?_, ?_, ?_, ?_⟩
  · rcases opening with ⟨failure, left, right, failed, _⟩ |
      ⟨left, right, unwrapped, bare, accepted, acceptedToo, alike, _⟩
    · rw [failed] at opens
      cases opens
    · exact ⟨unwrapped, bare, left, right, accepted, acceptedToo, alike.directory, alike.size,
        alike.wrapped⟩
  · intro location
    exact agree.outside location fun logged => nomatch logged.1.1
  · exact (others (utf8 "plain") overlappingContainer rfl).1
      ((others (utf8 "plain") overlappingContainer rfl).2.2
        (Or.inr ⟨overlapping, Result.eq_ok_of_toOption (by decide +kernel)⟩))
  · exact (others (utf8 "framed") framed rfl).2.1 rfl
  · -- The bytes are never looked at, only counted.
    obtain ⟨container, length⟩ : ∃ container : Bytes, container.length = maxUnwrapSize + 1 :=
      ⟨List.replicate (maxUnwrapSize + 1) 0, List.length_replicate⟩
    have nonempty : container ≠ [] := by
      rintro rfl
      cases length
    obtain ⟨file, frames⟩ := exists_frame container nonempty
    have found : (holdingOnly file).store.readWhole (utf8 "file") = .ok (Contents.ofBytes file).toBytes := rfl
    rw [Contents.toBytes_ofBytes] at found
    exact ⟨file, container, length, frames, (frame_is_transparent (holdingOnly file)).2.1 (utf8 "file") file
      container found ⟨frames.start, Or.inl frames.content⟩ (by omega)⟩

end IgaArchive.Archive

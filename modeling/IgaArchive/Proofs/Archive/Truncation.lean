import IgaArchive.Proofs.Archive.Opening
import IgaArchive.Proofs.Archive.Plan
import IgaArchive.Proofs.Archive.Transfer

/-!
Containers that are cut short. A part of a container from its front is accepted just when it reaches as
far as the directory tells of, and then nothing of the archive is lost. A written archive reaches just so
far, so no part of it is accepted.
-/

namespace IgaArchive.Archive

/-- Why a container is refused that is too short for its directory: the directory itself is cut, or the
first payload in table order that the container does not hold. -/
inductive Truncated (directory : Directory) (length : Nat) : Failure → Prop
  | inDirectory (failure : Failure) (before : (length : Int) < directory.dataStart.toInt)
      (cut : failure.IsCut) : Truncated directory length failure
  | inPayload (entry : Entry) (behind : directory.dataStart.toInt ≤ length)
      (first : directory.FirstBeyond length entry) :
      Truncated directory length
        (.outOfRange ⟨entry.name, directory.start entry, entry.size, Int64.ofNat length⟩)

section Cut

variable (container cut : Bytes) (directory : Directory)
variable (read : Directory.read container = .ok directory) (front : cut <+: container)
variable (short : container.length < 0x4000000000000000)
include read front short

theorem read_front (within : directory.dataStart.toInt ≤ cut.length) :
    Directory.read cut = .ok directory := by
  obtain ⟨n, begins, _, inside, depends⟩ := Directory.read_uses container directory read
  have position := Directory.dataStart_toInt directory n begins (by omega)
  obtain ⟨more, rfl⟩ := front
  apply depends
  rw [List.take_append_of_le_length (by omega)]

theorem verdict_front (reaches : directory.extent ≤ cut.length) : verdict cut = .ok directory := by
  obtain ⟨n, begins, _, inside, _⟩ := Directory.read_uses container directory read
  obtain ⟨within, payloads⟩ := (Directory.extent_le_iff directory cut.length).mp reaches
  have length := front.length_le
  rw [verdict_eq_ok]
  constructor
  · exact read_front container cut directory read front short within
  · rw [Directory.resolve_eq_ok_iff directory n begins (by omega) cut.length (by omega)]
    exact payloads

theorem verdict_truncated (missing : cut.length < directory.extent) :
    ∃ failure, verdict cut = .error failure ∧ Truncated directory cut.length failure := by
  obtain ⟨n, begins, _, inside, _⟩ := Directory.read_uses container directory read
  have length := front.length_le
  by_cases before : (cut.length : Int) < directory.dataStart.toInt
  · obtain ⟨error, refused, isCut⟩ := Directory.read_cut container cut directory read short front before
    exact ⟨.ofDirectory error, verdict_of_refused cut error refused, .inDirectory _ before isCut⟩
  · -- The directory is whole, so it is the range check that tells.
    have within := Int.not_lt.mp before
    have reading := read_front container cut directory read front short within
    rw [verdict_of_read cut directory reading]
    cases resolving : directory.resolve (Int64.ofNat cut.length) with
    | ok _ =>
        have payloads := (Directory.resolve_eq_ok_iff directory n begins (by omega) cut.length
          (by omega)).mp resolving
        have reaches := (Directory.extent_le_iff directory cut.length).mpr ⟨within, payloads⟩
        omega
    | error error =>
        obtain ⟨entry, first, same⟩ := Directory.resolve_eq_error directory n begins (by omega)
          cut.length (by omega) error resolving
        subst same
        exact ⟨_, rfl, .inPayload entry within first⟩

theorem ciphertext_front (entry : Entry) (reaches : directory.ending entry ≤ cut.length) :
    ciphertext cut directory entry = ciphertext container directory entry := by
  obtain ⟨n, begins, _, inside, _⟩ := Directory.read_uses container directory read
  have position := Directory.start_toInt directory n begins (by omega) entry
  rw [Directory.ending] at reaches
  obtain ⟨more, rfl⟩ := front
  simp only [ciphertext, Int64.toNatClampNeg]
  rw [List.drop_append_of_le_length (by omega), List.take_append_of_le_length]
  rw [List.length_drop]
  omega

end Cut

/-- A file that holds a front part of an accepted container is accepted as well just when it reaches far
enough, and then the archive is the same, payloads included. -/
theorem openAt_front (path other container cut : Bytes) (archive : Archive)
    (before elsewhere : Workspace) (short : container.length < 0x4000000000000000)
    (whole : before.store.readWhole path = .ok container)
    (accepted : ((openAt path false).runOn before).1 = .ok archive) (front : cut <+: container)
    (part : elsewhere.store.readWhole other = .ok cut) :
    ((∃ opened, ((openAt other false).runOn elsewhere).1 = .ok opened) ↔
      archive.directory.extent ≤ cut.length) ∧
    ∀ opened, ((openAt other false).runOn elsewhere).1 = .ok opened →
      opened.directory = archive.directory ∧
      ∀ entry ∈ archive.directory.entries, ∀ left right : Store,
        left.node? (before.store.place path) = some (.file (.ofBytes container)) →
        right.node? (elsewhere.store.place other) = some (.file (.ofBytes cut)) →
        ∀ position length, opened.payload entry right position length =
          archive.payload entry left position length := by
  obtain ⟨judged, inFile⟩ := verdict_of_opened path container before whole archive accepted
  have read := ((verdict_eq_ok container archive.directory).mp judged).1
  have reaches : ∀ opened, ((openAt other false).runOn elsewhere).1 = .ok opened →
      archive.directory.extent ≤ cut.length := by
    intro opened openedPart
    obtain ⟨part, _⟩ := verdict_of_opened other cut elsewhere part opened openedPart
    apply Int.not_lt.mp
    intro missing
    obtain ⟨failure, refused, _⟩ :=
      verdict_truncated container cut archive.directory read front short missing
    rw [refused] at part
    cases part
  constructor
  · constructor
    · rintro ⟨opened, openedPart⟩
      exact reaches opened openedPart
    · intro far
      have judgedPart := verdict_front container cut archive.directory read front short far
      exact ⟨_, openAt_accepts other cut elsewhere part _ judgedPart⟩
  · intro opened openedPart
    have far := reaches opened openedPart
    have judgedPart := verdict_front container cut archive.directory read front short far
    obtain ⟨same, inPart⟩ := verdict_of_opened other cut elsewhere part opened openedPart
    rw [judgedPart] at same
    have directories : opened.directory = archive.directory := (Except.ok.inj same).symm
    refine ⟨directories, ?_⟩
    intro entry member left right present presentPart position length
    have ends := ((Directory.extent_le_iff _ _).mp far).2 entry member
    rw [payload_eq opened _ cut entry right position length inPart presentPart,
      payload_eq archive _ container entry left position length inFile present, directories,
      ciphertext_front container cut archive.directory read front short entry ends]

theorem compress_reaches (output : Bytes) (paths : List Bytes) (options : CompressOptions)
    (before after : Workspace) (plain : options.lz4 = false)
    (unreached : ¬ before.log.Reaches before.store (before.store.place output))
    (compressed : (compress output paths options).runOn before = (.ok (), after)) :
    ∃ container directory, after.store.readWhole output = .ok container ∧
      Directory.read container = .ok directory ∧ container.length < 0x4000000000000000 ∧
      directory.extent = container.length := by
  rcases compress_outcome output paths options before after _ plain unreached compressed with
    ⟨_, failed, _⟩ | ⟨members, directory, encoded, plan, ends⟩
  · cases failed
  obtain ⟨payload, length, whole⟩ := ends.whole rfl
  have total := plan.payloadSize
  have near := Directory.encoded_length_lt directory encoded plan.written
  have small := Directory.Follows.payloadTotal_lt _ (Directory.laidOut_follows _ _ _ plan.laid)
  refine ⟨encoded ++ payload, directory, whole, plan.read payload, ?_, ?_⟩
  · rw [List.length_append]
    omega
  · rw [plan.extent, List.length_append]
    omega

/-- Truncation is always detected. Every part of an accepted container from its front is accepted just
when it reaches to the end of the directory and of every payload, and then it gives the same archive.
After a successful compression no strict part of the file is accepted: one that ends within the directory
is refused as cut short, any other for the first entry in table order that no longer fits. -/
theorem truncation_detected :
    (∀ (path other container cut : Bytes) (archive : Archive) (before elsewhere : Workspace),
      container.length < 0x4000000000000000 → before.store.readWhole path = .ok container →
      ((openAt path false).runOn before).1 = .ok archive → cut <+: container →
      elsewhere.store.readWhole other = .ok cut →
      ((∃ opened, ((openAt other false).runOn elsewhere).1 = .ok opened) ↔
        archive.directory.extent ≤ cut.length) ∧
      ∀ opened, ((openAt other false).runOn elsewhere).1 = .ok opened →
        opened.directory = archive.directory ∧
        ∀ entry ∈ archive.directory.entries, ∀ left right : Store,
          left.node? (before.store.place path) = some (.file (.ofBytes container)) →
          right.node? (elsewhere.store.place other) = some (.file (.ofBytes cut)) →
          ∀ position length, opened.payload entry right position length =
            archive.payload entry left position length) ∧
    ∀ (output : Bytes) (paths : List Bytes) (options : CompressOptions) (before after : Workspace),
      options.lz4 = false → ¬ before.log.Reaches before.store (before.store.place output) →
      (compress output paths options).runOn before = (.ok (), after) →
      ∃ container archive, after.store.readWhole output = .ok container ∧
        ((openAt output false).runOn after).1 = .ok archive ∧
        ∀ (other cut : Bytes) (elsewhere : Workspace), cut <+: container → cut ≠ container →
          elsewhere.store.readWhole other = .ok cut →
          ∃ failure, ((openAt other false).runOn elsewhere).1 = .error failure ∧
            Truncated archive.directory cut.length failure := by
  constructor
  · intro path other container cut archive before elsewhere short whole accepted front part
    exact openAt_front path other container cut archive before elsewhere short whole accepted front part
  · intro output paths options before after plain unreached compressed
    obtain ⟨container, directory, whole, read, short, exactly⟩ :=
      compress_reaches output paths options before after plain unreached compressed
    have judged := verdict_front container container directory read (List.prefix_refl _) short
      (Int.le_of_eq exactly)
    refine ⟨container, _, whole, openAt_accepts output container after whole directory judged, ?_⟩
    intro other cut elsewhere front strict part
    have fewer : cut.length < container.length := by
      apply Nat.lt_of_le_of_ne front.length_le
      intro same
      exact strict (front.eq_of_length same)
    obtain ⟨failure, refused, truncated⟩ :=
      verdict_truncated container cut directory read front short (by omega)
    exact ⟨failure, openAt_refuses other cut elsewhere part failure refused, truncated⟩

/-- A container with a byte behind it, by itself, and without its last byte. -/
def wholeAndCut : Workspace where
  store := ((Store.initial.put [utf8 "work", utf8 "whole"]
    (.file (.ofBytes (Directory.twoByteContainer ++ [9])))).put [utf8 "work", utf8 "part"]
    (.file (.ofBytes Directory.twoByteContainer))).put [utf8 "work", utf8 "stub"]
    (.file (.ofBytes (Directory.twoByteContainer.take 23)))

def archiveOfWhole : Bytes :=
  containerOf [⟨utf8 "whole", Directory.twoByteContainer ++ [9]⟩]

def lastByteMissing : Workspace where
  store := Store.initial.put [utf8 "work", utf8 "cut"] (.file (.ofBytes archiveOfWhole.dropLast))

/-- Both halves at work: the byte behind the container may go, the last one of its payload may not, and
an archive that was written cannot spare a byte. -/
theorem truncation_detected_last_byte :
    (∃ archive opened, ((openAt (utf8 "whole") false).runOn wholeAndCut).1 = .ok archive ∧
      ((openAt (utf8 "part") false).runOn wholeAndCut).1 = .ok opened ∧
      opened.directory = archive.directory ∧
      ∀ entry ∈ archive.directory.entries, ∀ position length,
        opened.payload entry wholeAndCut.store position length =
          archive.payload entry wholeAndCut.store position length) ∧
    (¬ ∃ opened, ((openAt (utf8 "stub") false).runOn wholeAndCut).1 = .ok opened) ∧
    ∃ after archive failure,
      (compress (utf8 "out") [utf8 "whole"] {}).runOn wholeAndCut = (.ok (), after) ∧
      ((openAt (utf8 "out") false).runOn after).1 = .ok archive ∧
      ((openAt (utf8 "cut") false).runOn lastByteMissing).1 = .error failure ∧
      Truncated archive.directory archiveOfWhole.dropLast.length failure := by
  have whole : wholeAndCut.store.readWhole (utf8 "whole") = .ok (Directory.twoByteContainer ++ [9]) :=
    Result.eq_ok_of_toOption (by decide +kernel)
  have part : wholeAndCut.store.readWhole (utf8 "part") = .ok Directory.twoByteContainer :=
    Result.eq_ok_of_toOption (by decide +kernel)
  have stub : wholeAndCut.store.readWhole (utf8 "stub") = .ok (Directory.twoByteContainer.take 23) :=
    Result.eq_ok_of_toOption (by decide +kernel)
  have judged : verdict (Directory.twoByteContainer ++ [9]) = .ok Directory.twoByteDirectory :=
    Result.eq_ok_of_toOption (by decide +kernel)
  have accepted := openAt_accepts _ _ _ whole _ judged
  refine ⟨?_, ?_, ?_⟩
  · obtain ⟨reached, same⟩ := truncation_detected.1 (utf8 "whole") (utf8 "part") _ _ _ wholeAndCut wholeAndCut
      (by decide) whole accepted (List.prefix_append _ _) part
    obtain ⟨opened, openedPart⟩ := reached.mpr (by decide)
    obtain ⟨directories, payloads⟩ := same opened openedPart
    refine ⟨_, opened, accepted, openedPart, directories, ?_⟩
    intro entry member
    exact payloads entry member wholeAndCut.store wholeAndCut.store
      (node?_of_readWhole _ _ _ (by decide) whole) (node?_of_readWhole _ _ _ (by decide) part)
  · have reached := (truncation_detected.1 (utf8 "whole") (utf8 "stub") _ _ _ wholeAndCut wholeAndCut
      (by decide) whole accepted (by decide) stub).1
    rw [reached]
    decide
  · have works : ((compress (utf8 "out") [utf8 "whole"] {}).runOn wholeAndCut).1.toOption.isSome = true := by
      decide +kernel
    have shape : (((compress (utf8 "out") [utf8 "whole"] {}).runOn wholeAndCut).2.store.readWhole
        (utf8 "out")).toOption = some archiveOfWhole := by
      decide +kernel
    have cut : lastByteMissing.store.readWhole (utf8 "cut") = .ok archiveOfWhole.dropLast :=
      Result.eq_ok_of_toOption (by decide +kernel)
    obtain ⟨_, after, run⟩ := Action.exists_ok works
    obtain ⟨container, archive, written, opened, refused⟩ := truncation_detected.2 (utf8 "out")
      [utf8 "whole"] {} wholeAndCut after rfl (fun reached => nomatch reached.1) run
    rw [run, written] at shape
    have same : container = archiveOfWhole := Option.some.inj shape
    subst same
    obtain ⟨failure, fails, truncated⟩ := refused (utf8 "cut") archiveOfWhole.dropLast lastByteMissing
      (List.dropLast_prefix _) (by decide +kernel) cut
    exact ⟨after, archive, failure, run, opened, fails, truncated⟩

end IgaArchive.Archive

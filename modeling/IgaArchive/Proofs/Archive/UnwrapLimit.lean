import IgaArchive.Proofs.Archive.Completion
import IgaArchive.Proofs.Archive.Overlap

/-!
How large a container can be made, and how large a one is taken out of a frame. Offsets and sizes of 32
bits keep the payloads together below the limit on unwrapping, but not the directory in front of them. An
archive that was framed opens just when the two fit together.
-/

namespace IgaArchive.Directory

theorem layout_extent (names : List Bytes) (sizes : List Int64) (directory : Directory)
    (accepted : layout names sizes = .ok directory) :
    directory.dataStart.toInt ≤ Header.size + 2 * (5 + maxField) ∧
      directory.payloadSize.toNat < Archive.maxUnwrapSize := by
  obtain ⟨_, encoded, laid⟩ := layout_eq_ok names sizes directory accepted
  have room := encoded_length_le directory encoded laid.written
  have near := encoded_length_lt directory encoded laid.written
  have follows := laidOut_follows _ directory encoded laid
  rw [dataStart_toInt directory _ laid.dataStart (by omega), payloadSize_toNat directory follows]
  exact ⟨by omega, follows.payloadTotal_lt⟩

end IgaArchive.Directory

namespace IgaArchive.Archive

def containerSize (directory : Directory) : Int :=
  directory.dataStart.toInt + directory.payloadSize.toNat

section Stored

variable {output : Bytes} {paths : List Bytes} {wrapped : Bool} {before after : Workspace}
variable {members : List Member} {directory : Directory} {encoded file : Bytes}

theorem Stored.readWhole
    (stored : Stored output paths wrapped before after members directory encoded file) :
    after.store.readWhole output = .ok file := by
  rw [Store.readWhole_file _ _ _ _ stored.written, Contents.toBytes_ofBytes]

theorem Stored.opens
    (stored : Stored output paths wrapped before after members directory encoded file)
    (room : wrapped = true → containerSize directory ≤ maxUnwrapSize) :
    ∃ archive opened, (openAt output wrapped).runOn after = (.ok archive, opened) ∧
      archive.directory = directory := by
  have length := containerOf_length _ directory encoded stored.laidOut
  refine openAt_holding stored.laidOut output file _ wrapped after stored.written
    (stored.archived.wraps.containerIn fun framed => ?_)
  have small := room framed
  rw [containerSize] at small
  omega

theorem Stored.frames (stored : Stored output paths true before after members directory encoded file) :
    ∃ container, Frames file container ∧ (container.length : Int) = containerSize directory :=
  ⟨_, stored.archived.encases, containerOf_length _ directory encoded stored.laidOut⟩

theorem Stored.refused (stored : Stored output paths true before after members directory encoded file)
    (beyond : maxUnwrapSize < containerSize directory) :
    (openAt output true).runOn after = (.error (.frameTooLarge maxUnwrapSize), after) := by
  obtain ⟨container, frames, length⟩ := stored.frames
  have held := frames.containerIn_eq
  rw [if_neg (by omega)] at held
  exact openAt_of_failure output file true after _ stored.readWhole held

end Stored

/-- Fields of 32 bits keep the payloads below the limit on unwrapping, and the directory below twice as
much. Whether a framed archive can be opened again is decided by the two together, which is the size of
its container. -/
theorem framed_archive_opens_within_limit (names : List Bytes) (sizes : List Int64) (directory : Directory)
    (accepted : Directory.layout names sizes = .ok directory) :
    directory.dataStart.toInt ≤ Header.size + 2 * (5 + Directory.maxField) ∧
    directory.payloadSize.toNat < maxUnwrapSize ∧
    ∀ (output : Bytes) (paths : List Bytes) (options : CompressOptions) (before after : Workspace)
      (members : List Member),
      options.lz4 = true → paths.mapM (memberAt? before.store) = some members →
      members.map Member.name = names →
      members.map (fun member => Int64.ofNat member.contents.length) = sizes →
      (∀ member ∈ members, member.contents.length < 0x8000000000000000) →
      ¬ before.log.Reaches before.store (before.store.place output) →
      (∀ path ∈ paths, ¬ before.log.Reaches before.store (before.store.place path)) →
      (compress output paths options).runOn before = (.ok (), after) →
      ∃ file container, after.store.readWhole output = .ok file ∧
        (container.length : Int) = containerSize directory ∧
        unwrap maxUnwrapSize file =
          (if containerSize directory ≤ maxUnwrapSize then .ok container
            else .error (.frameTooLarge maxUnwrapSize)) ∧
        (containerSize directory ≤ maxUnwrapSize → ∃ archive opened,
          (openAt output true).runOn after = (.ok archive, opened) ∧ archive.directory = directory) ∧
        (maxUnwrapSize < containerSize directory →
          (openAt output true).runOn after = (.error (.frameTooLarge maxUnwrapSize), after)) := by
  obtain ⟨start, payloads⟩ := Directory.layout_extent names sizes directory accepted
  refine ⟨start, payloads, ?_⟩
  intro output paths options before after members framed inputs named sized short unreached quiet compressed
  have small : ∀ others, paths.mapM (memberAt? before.store) = some others →
      ∀ member ∈ others, member.contents.length < 0x8000000000000000 := by
    intro others found
    rw [inputs] at found
    cases found
    exact short
  obtain ⟨others, other, encoded, file, stored⟩ :=
    compress_stored output paths options before after small unreached quiet compressed
  rw [framed] at stored
  have found := stored.inputs
  rw [inputs] at found
  cases found
  have planned := stored.planned
  rw [named, sized, accepted] at planned
  cases planned
  obtain ⟨container, frames, length⟩ := stored.frames
  refine ⟨file, container, stored.readWhole, length, ?_, fun room => stored.opens fun _ => room,
    stored.refused⟩
  rw [frames.unwrap_eq, ← length]
  simp only [Int.ofNat_le]

def twoAlike (bytes : Bytes) : Workspace where
  store := (Store.initial.put [utf8 "work", utf8 "a"] (.file (.ofBytes bytes))).put
    [utf8 "work", utf8 "b"] (.file (.ofBytes bytes))

def twoAlikePaths : List Bytes := [utf8 "a", utf8 "b"]

theorem twoAlike_members (bytes : Bytes) :
    twoAlikePaths.mapM (memberAt? (twoAlike bytes).store) = some [⟨utf8 "a", bytes⟩, ⟨utf8 "b", bytes⟩] := by
  have first : memberAt? (twoAlike bytes).store (utf8 "a") =
      some ⟨utf8 "a", (Contents.ofBytes bytes).toBytes⟩ := rfl
  have second : memberAt? (twoAlike bytes).store (utf8 "b") =
      some ⟨utf8 "b", (Contents.ofBytes bytes).toBytes⟩ := rfl
  rw [Contents.toBytes_ofBytes] at first second
  simp [twoAlikePaths, first, second]

theorem twoAlike_sizes (bytes : Bytes) (short : bytes.length < 0x8000000000000000) :
    ∀ members, twoAlikePaths.mapM (memberAt? (twoAlike bytes).store) = some members →
      ∀ member ∈ members, member.contents.length < 0x8000000000000000 := by
  intro members found
  rw [twoAlike_members] at found
  cases found
  simpa using short

theorem twoAlike_compresses (bytes : Bytes) (directory : Directory) (lz4 : Bool)
    (planned : Directory.layout twoAlikePaths
      [Int64.ofNat bytes.length, Int64.ofNat bytes.length] = .ok directory) :
    ∃ after, (compress (utf8 "out") twoAlikePaths { lz4 }).runOn (twoAlike bytes) = (.ok (), after) := by
  have apart : ∀ path ∈ twoAlikePaths, (twoAlike bytes).store.place path ≠ [utf8 "work", utf8 "out"] := by
    have places : twoAlikePaths.map (twoAlike bytes).store.place =
        [[utf8 "work", utf8 "a"], [utf8 "work", utf8 "b"]] := rfl
    intro path inside same
    have listed : (twoAlike bytes).store.place path ∈ twoAlikePaths.map (twoAlike bytes).store.place :=
      List.mem_map_of_mem inside
    rw [places, same] at listed
    exact absurd listed (by decide)
  have readable : ∀ path ∈ twoAlikePaths,
      ((twoAlike bytes).store.terms ((twoAlike bytes).store.place path)).readable = true := by
    simp only [twoAlikePaths, List.forall_mem_cons]
    exact ⟨rfl, rfl, nofun⟩
  have prospect : Prospect (utf8 "out") twoAlikePaths [⟨utf8 "a", bytes⟩, ⟨utf8 "b", bytes⟩] directory
      [utf8 "work", utf8 "out"] _ (twoAlike bytes) :=
    ⟨twoAlike_members bytes, planned, rfl, nofun, rfl, readable, apart, (fun reached => nomatch reached.1),
      (fun _ _ reached => nomatch reached.1)⟩
  exact prospect.completes { lz4 } (show Payload.ValidBuffer Payload.defaultBuffer by decide)

theorem twoAlike_stored (bytes : Bytes) (directory : Directory) (lz4 : Bool)
    (short : bytes.length < 0x8000000000000000)
    (planned : Directory.layout twoAlikePaths
      [Int64.ofNat bytes.length, Int64.ofNat bytes.length] = .ok directory) :
    ∃ after members encoded file,
      (compress (utf8 "out") twoAlikePaths { lz4 }).runOn (twoAlike bytes) = (.ok (), after) ∧
      Stored (utf8 "out") twoAlikePaths lz4 (twoAlike bytes) after members directory encoded file := by
  obtain ⟨after, run⟩ := twoAlike_compresses bytes directory lz4 planned
  obtain ⟨members, other, encoded, file, stored⟩ := compress_stored (utf8 "out") twoAlikePaths { lz4 }
    (twoAlike bytes) after (twoAlike_sizes bytes short) (fun reached => nomatch reached.1)
    (fun _ _ reached => nomatch reached.1) run
  have found := stored.inputs
  have laid := stored.planned
  rw [twoAlike_members] at found
  cases found
  cases Except.ok.inj (laid.symm.trans planned)
  exact ⟨after, _, encoded, file, run, stored⟩

def twoAlikeDirectory (size : UInt32) (dataStart : Int64) : Directory where
  header := .standard
  entries := [⟨0, utf8 "a", 0, size⟩, ⟨1, utf8 "b", size, size⟩]
  dataStart

theorem framed_archive_opens_within_limit_two_alike :
    ∃ after archive opened,
      (compress (utf8 "out") twoAlikePaths { lz4 := true }).runOn (twoAlike (utf8 "hay")) = (.ok (), after) ∧
      (openAt (utf8 "out") true).runOn after = (.ok archive, opened) ∧
      archive.directory = twoAlikeDirectory 3 26 := by
  have planned : Directory.layout twoAlikePaths [3, 3] = .ok (twoAlikeDirectory 3 26) :=
    Result.eq_ok_of_toOption (by decide +kernel)
  obtain ⟨after, run⟩ := twoAlike_compresses (utf8 "hay") _ true planned
  obtain ⟨_, _, limited⟩ := framed_archive_opens_within_limit twoAlikePaths [3, 3] _ planned
  obtain ⟨_, _, _, _, _, opens, _⟩ := limited (utf8 "out") twoAlikePaths { lz4 := true } (twoAlike (utf8 "hay"))
    after _ rfl (twoAlike_members _) rfl rfl (twoAlike_sizes (utf8 "hay") (by decide) _ (twoAlike_members _))
    (fun reached => nomatch reached.1) (fun _ _ reached => nomatch reached.1) run
  obtain ⟨archive, opened, accepted, same⟩ := opens (by decide)
  exact ⟨after, archive, opened, run, accepted, same⟩

/-- Two files of the largest size that an entry can tell make a container of 36 bytes beyond the limit.
It is written as it is and in a frame; as it is it opens, and from the frame it is refused. -/
theorem largest_framed_archive_refused :
    ∃ before bare framed archive opened,
      Directory.layout twoAlikePaths [4294967295, 4294967295] =
        .ok (twoAlikeDirectory 4294967295 38) ∧
      containerSize (twoAlikeDirectory 4294967295 38) = maxUnwrapSize + 36 ∧
      (compress (utf8 "out") twoAlikePaths { lz4 := true }).runOn before = (.ok (), framed) ∧
      (openAt (utf8 "out") true).runOn framed = (.error (.frameTooLarge maxUnwrapSize), framed) ∧
      (compress (utf8 "out") twoAlikePaths {}).runOn before = (.ok (), bare) ∧
      (openAt (utf8 "out") false).runOn bare = (.ok archive, opened) ∧
      archive.directory = twoAlikeDirectory 4294967295 38 := by
  have planned : Directory.layout twoAlikePaths [4294967295, 4294967295] =
      .ok (twoAlikeDirectory 4294967295 38) := Result.eq_ok_of_toOption (by decide +kernel)
  have size : containerSize (twoAlikeDirectory 4294967295 38) = maxUnwrapSize + 36 := by decide +kernel
  -- The bytes of the files are never looked at, only counted.
  obtain ⟨bytes, length⟩ : ∃ bytes : Bytes, bytes.length = 4294967295 :=
    ⟨List.replicate 4294967295 0, List.length_replicate⟩
  have laid : Directory.layout twoAlikePaths [Int64.ofNat bytes.length, Int64.ofNat bytes.length] =
      .ok (twoAlikeDirectory 4294967295 38) := by
    rw [length]
    exact planned
  obtain ⟨framed, _, _, _, framing, wrapped⟩ := twoAlike_stored bytes _ true (by omega) laid
  obtain ⟨bare, _, _, _, writing, plain⟩ := twoAlike_stored bytes _ false (by omega) laid
  obtain ⟨archive, opened, accepted, same⟩ := plain.opens nofun
  exact ⟨twoAlike bytes, bare, framed, archive, opened, planned, size, framing,
    wrapped.refused (by rw [size]; omega), writing, accepted, same⟩

end IgaArchive.Archive

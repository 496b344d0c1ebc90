import IgaArchive.Proofs.Archive.Truncation

/-!
Archives whose making failed. The directory is written first and its last payload reaches to the end of
the file, so a part of the archive is too short for the directory in it and is never taken for an archive.
A read or write that fails leaves such a part. An input that cannot be opened may be noticed when all bytes
are in the file already, if nothing was to come but empty payloads; then the archive is whole and opens.
-/

namespace IgaArchive.Archive

theorem Plan.refuses_front {store : Store} {paths : List Bytes} {members : List Member}
    {directory : Directory} {encoded : Bytes} (plan : Plan store paths members directory encoded)
    (payload content : Bytes) (length : payload.length = Directory.payloadTotal directory.entries)
    (front : content <+: encoded ++ payload) (fewer : content.length < (encoded ++ payload).length) :
    ∃ failure, verdict content = .error failure ∧ Truncated directory content.length failure := by
  have near := Directory.encoded_length_lt directory encoded plan.written
  have small := Directory.Follows.payloadTotal_lt _ (Directory.laidOut_follows _ _ _ plan.laid)
  have total := plan.payloadSize
  rw [List.length_append] at fewer
  apply verdict_truncated (encoded ++ payload) content directory (plan.read payload) front
  · rw [List.length_append]
    omega
  · rw [plan.extent]
    omega

theorem Plan.accepts_whole {store : Store} {paths : List Bytes} {members : List Member}
    {directory : Directory} {encoded : Bytes} (plan : Plan store paths members directory encoded)
    (payload : Bytes) (length : payload.length = Directory.payloadTotal directory.entries) :
    verdict (encoded ++ payload) = .ok directory := by
  have near := Directory.encoded_length_lt directory encoded plan.written
  have small := Directory.Follows.payloadTotal_lt _ (Directory.laidOut_follows _ _ _ plan.laid)
  have total := plan.payloadSize
  apply verdict_front (encoded ++ payload) _ directory (plan.read payload) List.prefix_rfl
  · rw [List.length_append]
    omega
  · rw [plan.extent, List.length_append]
    omega

/-- What a compression leaves that was broken off while it wrote: a front part of the planned archive, in
the output and nowhere else. It opens if no byte is missing, and only then. -/
structure BrokenOff (output : Bytes) (paths : List Bytes) (before after : Workspace)
    (members : List Member) (directory : Directory) (encoded content : Bytes) : Prop
    extends Plan before.store paths members directory encoded where
  changes : Store.ChangesOnly (before.log.TouchesWith before.store output) before.store after.store
  whole : after.store.readWhole output = .ok content
  agrees : content.take encoded.length = encoded.take content.length
  within : (content.length : Int) ≤ directory.dataStart.toInt + directory.payloadSize.toNat
  opens : (∃ archive, ((openAt output false).runOn after).1 = .ok archive) ↔
    (content.length : Int) = directory.dataStart.toInt + directory.payloadSize.toNat

theorem Plan.brokenOff {output : Bytes} {paths : List Bytes} {before after : Workspace}
    {members : List Member} {directory : Directory} {encoded : Bytes}
    (plan : Plan before.store paths members directory encoded)
    (changes : Store.ChangesOnly (before.log.TouchesWith before.store output) before.store after.store)
    (payload content : Bytes) (length : payload.length = Directory.payloadTotal directory.entries)
    (whole : after.store.readWhole output = .ok content) (front : content <+: encoded ++ payload) :
    BrokenOff output paths before after members directory encoded content ∧
      ((encoded ++ payload).length : Int) = directory.dataStart.toInt + directory.payloadSize.toNat := by
  have start := Directory.dataStart_toInt directory _ plan.laid.dataStart plan.near
  have total := plan.payloadSize
  have size : ((encoded ++ payload).length : Int) =
      directory.dataStart.toInt + directory.payloadSize.toNat := by
    rw [List.length_append]
    omega
  have bound := front.length_le
  refine ⟨⟨plan, changes, whole, ?_, by omega, ?_, ?_⟩, size⟩
  · obtain ⟨rest, shape⟩ := front
    calc content.take encoded.length
        = ((content ++ rest).take content.length).take encoded.length := by rw [List.take_left]
      _ = ((encoded ++ payload).take encoded.length).take content.length := by
          rw [shape, List.take_take, List.take_take, Nat.min_comm]
      _ = encoded.take content.length := by rw [List.take_left]
  · rintro ⟨archive, opened⟩
    rw [← size]
    apply Int.le_antisymm (by omega)
    apply Int.not_lt.mp
    intro fewer
    obtain ⟨refusal, refused, _⟩ := plan.refuses_front payload content length front (by omega)
    rw [openAt_refuses output content after whole refusal refused] at opened
    cases opened
  · intro same
    have full := front.eq_of_length (by omega)
    rw [full] at whole
    exact ⟨_, openAt_accepts output _ after whole _ (plan.accepts_whole payload length)⟩

/-- A compression that fails leaves a front part of its archive. If the buffer, an input, the layout or
the making of the output is at fault, all files are as before. Otherwise only the output has changed, and
what is there opens just when no byte of the planned archive is missing. Bytes are missing whenever an
input was shorter than it was measured or the output did not take all that was written; none may be when
an input could not be opened or the output not be closed. The output may be among the inputs; a log that
is kept in a file may touch that file as well. -/
theorem failed_compress_leaves_front (output : Bytes) (paths : List Bytes) (options : CompressOptions)
    (before after : Workspace) (failure : Failure) (plain : options.lz4 = false)
    (unreached : ¬ before.log.Reaches before.store (before.store.place output))
    (failed : (compress output paths options).runOn before = (.error failure, after)) :
    (Unbegun failure ∧ after.store = before.store) ∨
    ∃ members directory encoded content,
      BrokenOff output paths before after members directory encoded content ∧
      (Interruption (paths.zip members) after.store failure ∧
          (content.length : Int) < directory.dataStart.toInt + directory.payloadSize.toNat ∨
        HandleFailure (paths.zip members) failure) := by
  rcases compress_outcome output paths options before after _ plain unreached failed with
    ⟨_, same, early, store, _⟩ | ⟨members, directory, encoded, plan, ends⟩
  · cases same
    exact Or.inl ⟨early, store⟩
  · apply Or.inr
    obtain ⟨payload, content, length, whole, front, cause⟩ := ends.broken failure rfl
    obtain ⟨broken, size⟩ := plan.brokenOff ends.changes payload content length whole front
    refine ⟨members, directory, encoded, content, broken, ?_⟩
    rcases cause with ⟨interruption, fewer⟩ | handle
    · exact Or.inl ⟨interruption, by omega⟩
    · exact Or.inr handle

def inputIsOutput : Workspace where
  store := (Store.initial.put [utf8 "work", utf8 "head"] (.file (.ofBytes (utf8 "first")))).put
    [utf8 "work", utf8 "tail"] (.file (.ofBytes (utf8 "second")))

/-- An archive that is made in place of one of its inputs: the input is empty when its turn comes, the
directory and the first payload have not left the buffer, and what is left does not open. -/
theorem failed_compress_leaves_front_own_input :
    ∃ failure after members directory encoded,
      (compress (utf8 "tail") [utf8 "head", utf8 "tail"] {}).runOn inputIsOutput =
        (.error failure, after) ∧
      BrokenOff (utf8 "tail") [utf8 "head", utf8 "tail"] inputIsOutput after members directory encoded [] ∧
      Interruption ([utf8 "head", utf8 "tail"].zip members) after.store failure ∧
      ¬ ∃ archive, ((openAt (utf8 "tail") false).runOn after).1 = .ok archive := by
  have fails : Result.error? ((compress (utf8 "tail") [utf8 "head", utf8 "tail"] {}).runOn
      inputIsOutput).1 = some (.during (.compress (utf8 "tail")) (.during .readPayload .unexpectedEnd)) := by
    decide +kernel
  have emptied : ((compress (utf8 "tail") [utf8 "head", utf8 "tail"] {}).runOn
      inputIsOutput).2.store.readWhole (utf8 "tail") = .ok [] :=
    Result.eq_ok_of_toOption (by decide +kernel)
  have full : inputIsOutput.store.readWhole (utf8 "tail") = .ok (utf8 "second") :=
    Result.eq_ok_of_toOption (by decide +kernel)
  generalize cause : Failure.during (.compress (utf8 "tail")) (.during .readPayload .unexpectedEnd) =
    failure at fails
  obtain ⟨after, run⟩ := Action.exists_of_error? fails
  rw [run] at emptied
  rcases failed_compress_leaves_front (utf8 "tail") [utf8 "head", utf8 "tail"] {} inputIsOutput after
      failure rfl (fun reached => nomatch reached.1) run with
    ⟨_, same⟩ | ⟨members, directory, encoded, content, broken, ⟨interruption, fewer⟩ | handle⟩
  · rw [same, full] at emptied
    exact absurd (Except.ok.inj emptied) (by decide)
  · cases Except.ok.inj (emptied.symm.trans broken.whole)
    refine ⟨failure, after, members, directory, encoded, run, broken, interruption, ?_⟩
    rw [broken.opens]
    omega
  · cases handle <;> cases cause

/-- Empty files with names of 250 bytes, more than the buffer of the output has room for. -/
def longNames : List Bytes :=
  (List.range 17).map fun i => List.replicate 250 (0x61 + i.toUInt8)

def manyLongNames : Workspace where
  store :=
    { Store.initial with
      nodes := Store.initial.nodes ++ longNames.map fun name => ([utf8 "work", name], .file {}) }

/-- The last of the inputs is empty as well and cannot be opened: the compression fails, and leaves an
archive of all eighteen members that opens. -/
theorem failed_compress_leaves_archive :
    ∃ failure after archive,
      (compress (utf8 "out.iga") (longNames ++ [utf8 "/proc/sys/vm/compact_memory"]) {}).runOn
        manyLongNames = (.error failure, after) ∧
      failure = .during .openInput
        (.store ⟨"open", utf8 "/proc/sys/vm/compact_memory", .denied⟩) ∧
      manyLongNames.store.node? [utf8 "work", utf8 "out.iga"] = none ∧
      ((openAt (utf8 "out.iga") false).runOn after).1 = .ok archive ∧
      archive.directory.entries.length = 18 := by
  obtain ⟨fails, opens⟩ : Result.error? ((compress (utf8 "out.iga")
        (longNames ++ [utf8 "/proc/sys/vm/compact_memory"]) {}).runOn manyLongNames).1 =
          some (.during .openInput (.store ⟨"open", utf8 "/proc/sys/vm/compact_memory", .denied⟩)) ∧
      ((openAt (utf8 "out.iga") false).runOn ((compress (utf8 "out.iga")
        (longNames ++ [utf8 "/proc/sys/vm/compact_memory"]) {}).runOn manyLongNames).2).1.toOption.map
          (·.directory.entries.length) = some 18 := by
    decide +kernel
  obtain ⟨after, failed⟩ := Action.exists_of_error? fails
  rw [failed] at opens
  obtain ⟨archive, accepted, count⟩ := Option.map_eq_some_iff.mp opens
  exact ⟨_, after, archive, failed, rfl, by decide +kernel, Result.eq_ok_of_toOption accepted, count⟩

end IgaArchive.Archive

import IgaArchive.Proofs.Archive.Creation
import IgaArchive.Proofs.Archive.Decoding
import IgaArchive.Proofs.Archive.Members

/-!
What the members of a new archive decode to, with no assumption on where the output is. Inputs are
measured first, then the output is made and so emptied, and only then they are read; the output may be one
of them.
-/

namespace IgaArchive.Archive

theorem Wraps.containerIn {wrapped : Bool} {file container : Bytes}
    (wraps : Wraps wrapped file container)
    (room : wrapped = true → container.length ≤ maxUnwrapSize) :
    containerIn wrapped file = .ok container := by
  cases wrapped with
  | false => exact congrArg Except.ok wraps
  | true => exact wraps maxUnwrapSize (room rfl)

theorem Frames.containerIn_eq {file container : Bytes} (frames : Frames file container) :
    containerIn true file =
      if container.length ≤ maxUnwrapSize then .ok container
      else .error (.frameTooLarge maxUnwrapSize) := by
  rw [containerIn, if_pos rfl, frames.unwrap_eq]

theorem Decodes.unique {container : Bytes} {directory : Directory} {policy : KeyPolicy} {entry : Entry}
    {bytes others : Bytes} (decodes : Decodes container directory policy entry bytes)
    (again : Decodes container directory policy entry others) : bytes = others := by
  apply List.ext_getElem?
  intro i
  by_cases inside : i < entry.size.toNat
  · obtain ⟨position, b, place, there, found⟩ := decodes.byte i inside
    obtain ⟨other, c, same, thereToo, foundToo⟩ := again.byte i inside
    have here : other = position := by omega
    rw [here, there] at thereToo
    cases thereToo
    rw [found, foundToo]
  · have length := decodes.length
    have otherLength := again.length
    rw [List.getElem?_eq_none (by omega), List.getElem?_eq_none (by omega)]

section Written

variable {members : List Member} {directory : Directory} {encoded : Bytes}
variable (laid : Directory.LaidOut (members.map Member.outline) directory encoded)
include laid

theorem within_written : Within directory (containerOf members).length := by
  have short := containerOf_short laid
  obtain ⟨start, inside, begins⟩ := Directory.read_dataStart _ _ (read_written laid)
  refine ⟨start, ?_, ?_⟩
  · rw [begins, Int64.toInt_ofNat_of_lt (by omega)]
  · intro entry listed
    obtain ⟨position, fits⟩ := Directory.fits_of_resolve directory start _ begins (by omega) (by omega)
      (resolve_written laid) entry listed
    refine ⟨?_, fits⟩
    rw [Int64.toNatClampNeg, position]
    omega

theorem decodes_member (i : Nat) (member : Member) (entry : Entry) (listed : members[i]? = some member)
    (found : directory.entries[i]? = some entry) :
    Decodes (containerOf members) directory .byName entry member.contents := by
  have decodes := plaintext_decodes (containerOf members) directory .byName entry (within_written laid)
    (List.mem_of_getElem? found)
  have entryThere := entry_at laid i member listed
  rw [found] at entryThere
  cases entryThere
  have plain := plaintext_member laid _ _ member (split_at i member listed)
  exact plain ▸ decodes

end Written

section Stored

variable {output : Bytes} {paths : List Bytes} {wrapped : Bool} {before after : Workspace}
variable {members : List Member} {directory : Directory} {encoded file : Bytes}
variable (stored : Stored output paths wrapped before after members directory encoded file)
include stored

theorem Stored.laidOut :
    Directory.LaidOut (((paths.zip members).map
      (storedAs before.store (before.store.place output) file)).map Member.outline) directory
      encoded := by
  rw [stored.archived.outlines, map_snd_zip before.store paths members stored.inputs]
  exact stored.laid

theorem Stored.entry_size (i : Nat) (member : Member) (entry : Entry)
    (listed : members[i]? = some member) (found : directory.entries[i]? = some entry) :
    entry.size.toNat = member.contents.length := by
  have there := entry_at stored.laid i member listed
  rw [found] at there
  cases there
  exact (payload_range stored.laid _ _ member (split_at i member listed)).2.1

theorem Stored.decodes (i : Nat) (path : Bytes) (member : Member) (entry : Entry)
    (given : paths[i]? = some path) (listed : members[i]? = some member)
    (found : directory.entries[i]? = some entry) :
    Decodes (containerOf ((paths.zip members).map
        (storedAs before.store (before.store.place output) file))) directory .byName entry
      (if before.store.place path = before.store.place output then file.take member.contents.length
        else member.contents) := by
  have source : (paths.zip members)[i]? = some (path, member) :=
    List.getElem?_zip_eq_some.mpr ⟨given, listed⟩
  have kept : ((paths.zip members).map
      (storedAs before.store (before.store.place output) file))[i]? =
      some (storedAs before.store (before.store.place output) file (path, member)) := by
    rw [List.getElem?_map, source]
    rfl
  exact decodes_member stored.laidOut i _ entry kept found

end Stored

/-- Compression stores what its inputs held before, under their names and in their order, except for an
input that is the file of the output: its member decodes to the first bytes of the file that comes out,
as many as the input was measured to hold. A frame gives the container back wherever there is room for
it, so the archive opens unless its container is larger than may be unwrapped. -/
theorem compress_stores_inputs (output : Bytes) (paths : List Bytes) (options : CompressOptions)
    (before after : Workspace)
    (sizes : ∀ members, paths.mapM (memberAt? before.store) = some members →
      ∀ member ∈ members, member.contents.length < 0x8000000000000000)
    (unreached : ¬ before.log.Reaches before.store (before.store.place output))
    (quiet : ∀ path ∈ paths, ¬ before.log.Reaches before.store (before.store.place path))
    (compressed : (compress output paths options).runOn before = (.ok (), after)) :
    ∃ members file container directory, paths.mapM (memberAt? before.store) = some members ∧
      after.store.find output = .ok (before.store.place output, .file (.ofBytes file)) ∧
      Wraps options.lz4 file container ∧ Directory.read container = .ok directory ∧
      directory.entries.map Entry.name = members.map Member.name ∧
      (∀ (i : Nat) (path : Bytes) (member : Member) (entry : Entry), paths[i]? = some path →
        members[i]? = some member → directory.entries[i]? = some entry →
        entry.size.toNat = member.contents.length ∧
        Decodes container directory .byName entry
          (if before.store.place path = before.store.place output then
            file.take member.contents.length else member.contents)) ∧
      ((options.lz4 = true → container.length ≤ maxUnwrapSize) → ∃ archive opened,
        (openAt output options.lz4).runOn after = (.ok archive, opened) ∧
          archive.directory = directory) := by
  obtain ⟨members, directory, encoded, file, stored⟩ :=
    compress_stored output paths options before after sizes unreached quiet compressed
  refine ⟨members, file, _, directory, stored.inputs,
    (Store.openForReading_eq_ok.mp stored.written).1, stored.archived.wraps,
    read_written stored.laidOut, entries_names stored.laid, ?_, ?_⟩
  · intro i path member entry given listed found
    exact ⟨stored.entry_size i member entry listed found,
      stored.decodes i path member entry given listed found⟩
  · intro room
    exact openAt_holding stored.laidOut output file _ options.lz4 after stored.written
      (stored.archived.wraps.containerIn room)

def longAndOutput : Workspace where
  store := (Store.initial.put [utf8 "work", List.replicate 255 120] (.file (.ofBytes []))).put
    [utf8 "work", utf8 "out"] (.file (.ofBytes (utf8 "keep")))

/-- The empty file of `longAndOutput`, so often that a directory of it does not fit into the buffer of an
output, and then the output itself. -/
def longThenOutput : List Bytes :=
  List.replicate 16 (List.replicate 255 120) ++ [utf8 "out"]

def longMembers : List Member :=
  List.replicate 16 ⟨List.replicate 255 120, []⟩ ++ [⟨utf8 "out", utf8 "keep"⟩]

theorem longThenOutput_members :
    longThenOutput.mapM (memberAt? longAndOutput.store) = some longMembers := by
  decide +kernel

theorem longThenOutput_works :
    ((compress (utf8 "out") longThenOutput { buffer := 256 }).runOn longAndOutput).1.toOption.isSome =
      true := by
  decide +kernel

theorem longThenOutput_sizes :
    ∀ members, longThenOutput.mapM (memberAt? longAndOutput.store) = some members →
    ∀ member ∈ members, member.contents.length < 0x8000000000000000 := by
  intro members found
  rw [longThenOutput_members] at found
  cases found
  decide +kernel

theorem compress_stores_inputs_output_among_them :
    ∃ after file directory,
      (compress (utf8 "out") longThenOutput { buffer := 256 }).runOn longAndOutput = (.ok (), after) ∧
      after.store.find (utf8 "out") = .ok ([utf8 "work", utf8 "out"], .file (.ofBytes file)) ∧
      Directory.read file = .ok directory ∧
      directory.entries.map Entry.name = longMembers.map Member.name ∧
      (∀ entry, directory.entries[3]? = some entry → Decodes file directory .byName entry []) ∧
      ∀ entry, directory.entries[16]? = some entry →
        Decodes file directory .byName entry (file.take 4) := by
  obtain ⟨_, after, run⟩ := Action.exists_ok longThenOutput_works
  obtain ⟨members, file, container, directory, found, written, wraps, read, names, decodes, _⟩ :=
    compress_stores_inputs (utf8 "out") longThenOutput { buffer := 256 } longAndOutput after
      longThenOutput_sizes (fun reached => nomatch reached.1) (fun _ _ reached => nomatch reached.1) run
  rw [longThenOutput_members] at found
  cases found
  cases wraps
  have apart : longAndOutput.store.place (List.replicate 255 120) ≠ longAndOutput.store.place (utf8 "out") := by
    decide +kernel
  refine ⟨after, file, directory, run, written, read, names, ?_, ?_⟩
  · intro entry there
    obtain ⟨_, empty⟩ :=
      decodes 3 (List.replicate 255 120) ⟨List.replicate 255 120, []⟩ entry rfl rfl there
    rwa [if_neg apart] at empty
  · intro entry there
    obtain ⟨_, front⟩ := decodes 16 (utf8 "out") ⟨utf8 "out", utf8 "keep"⟩ entry rfl rfl there
    rwa [if_pos rfl] at front

theorem containerOf_signature (members : List Member) :
    (containerOf members).take 4 = utf8 "IGA0" :=
  rfl

/-- What the output held is lost: its member decodes to the signature at the front of the archive. -/
theorem compress_stores_own_front :
    ∃ after archive opened container entry,
      (compress (utf8 "out") longThenOutput { buffer := 256 }).runOn longAndOutput = (.ok (), after) ∧
      memberAt? longAndOutput.store (utf8 "out") = some ⟨utf8 "out", utf8 "keep"⟩ ∧
      (openAt (utf8 "out") false).runOn after = (.ok archive, opened) ∧
      after.store.readWhole (utf8 "out") = .ok container ∧
      longThenOutput[16]? = some (utf8 "out") ∧ archive.directory.entries[16]? = some entry ∧
      Decodes container archive.directory .byName entry (utf8 "IGA0") ∧
      ¬ Decodes container archive.directory .byName entry (utf8 "keep") := by
  obtain ⟨_, after, run⟩ := Action.exists_ok longThenOutput_works
  obtain ⟨members, directory, encoded, file, stored⟩ :=
    compress_stored (utf8 "out") longThenOutput { buffer := 256 } longAndOutput after longThenOutput_sizes
      (fun reached => nomatch reached.1) (fun _ _ reached => nomatch reached.1) run
  have found := stored.inputs
  rw [longThenOutput_members] at found
  cases found
  -- Without a frame the file is the container, whatever it stores of itself, and starts like any other.
  have same : file = containerOf (List.map _ _) := stored.archived.wraps
  have signature : file.take 4 = utf8 "IGA0" := by
    calc file.take 4 = (containerOf (List.map _ _)).take 4 := congrArg (List.take 4) same
      _ = utf8 "IGA0" := containerOf_signature _
  obtain ⟨archive, opened, accepted, rfl⟩ := openAt_holding stored.laidOut (utf8 "out") file _ false
    after stored.written (congrArg Except.ok same)
  have there := entry_at stored.laid 16 ⟨utf8 "out", utf8 "keep"⟩ rfl
  have front := stored.decodes 16 (utf8 "out") ⟨utf8 "out", utf8 "keep"⟩ _ rfl rfl there
  rw [if_pos rfl, ← same, show file.take (utf8 "keep").length = utf8 "IGA0" from signature] at front
  have whole := Store.readWhole_file _ _ _ _ stored.written
  rw [Contents.toBytes_ofBytes] at whole
  refine ⟨after, archive, opened, file, _, run, ?_, accepted, whole, rfl, there, front, ?_⟩
  · decide +kernel
  · intro kept
    exact absurd (front.unique kept) (by decide)

end IgaArchive.Archive

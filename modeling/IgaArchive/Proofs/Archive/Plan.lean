import IgaArchive.Proofs.Archive.Writing

/-!
What is settled before an archive is written. Every input is measured and the directory is laid out
while all files are still as they were; what fails until the output is made leaves them so. From there on
the output is the only file to change, and it ends up with the planned directory and as many payload bytes
as it tells of, or short of them.
-/

namespace IgaArchive.Archive

/-- The members of an archive that is to be made from some paths, their directory, and its bytes. -/
structure Plan (store : Store) (paths : List Bytes) (members : List Member) (directory : Directory)
    (encoded : Bytes) : Prop where
  inputs : paths.mapM (memberAt? store) = some members
  planned : Directory.layout (members.map Member.name)
    (members.map fun member => Int64.ofNat member.contents.length) = .ok directory
  written : directory.encode = .ok encoded

def Member.measured (member : Member) : Bytes × Nat :=
  Directory.measured (member.name, Int64.ofNat member.contents.length)

theorem Member.measured_le (member : Member) : member.measured.2 ≤ member.contents.length := by
  simp only [Member.measured, Directory.measured, Int64.toNatClampNeg]
  by_cases small : member.contents.length < 0x8000000000000000
  · rw [Int64.toInt_ofNat_of_lt small]
    omega
  · have bound := (Int64.ofNat member.contents.length).toInt_lt
    omega

theorem consecutive_sized (sources : List (Bytes × Member)) (nameOffset offset : Nat) :
    let entries := Directory.consecutive nameOffset offset
      ((sources.map Prod.snd).map Member.measured)
    entries.length = sources.length ∧
      ∀ pair ∈ sources.zip entries, pair.2.size.toNat ≤ pair.1.2.contents.length := by
  induction sources generalizing nameOffset offset with
  | nil => exact ⟨rfl, nofun⟩
  | cons source sources ih =>
      obtain ⟨paired, sized⟩ := ih (nameOffset + source.2.measured.1.length)
        (offset + source.2.measured.2)
      constructor
      · exact congrArg (· + 1) paired
      · intro pair inside
        rcases List.mem_cons.mp inside with here | inside
        · rw [here]
          simp only [Nat.toUInt32_eq, UInt32.toNat_ofNat']
          exact Nat.le_trans (Nat.mod_le _ _) source.2.measured_le
        · exact sized pair inside

section Plan

variable {store : Store} {paths : List Bytes} {members : List Member} {directory : Directory}
variable {encoded : Bytes}

theorem Plan.laid (plan : Plan store paths members directory encoded) :
    Directory.LaidOut (members.map Member.measured) directory encoded := by
  obtain ⟨_, same, laid⟩ := Directory.layout_eq_ok _ _ directory plan.planned
  have encodes := laid.written
  rw [plan.written] at encodes
  cases encodes
  rw [List.zip_map', List.map_map] at laid
  exact laid

theorem Plan.sources (plan : Plan store paths members directory encoded) :
    (paths.zip members).map Prod.snd = members :=
  map_snd_zip store paths members plan.inputs

theorem Plan.sized (plan : Plan store paths members directory encoded) :
    directory.entries.length = (paths.zip members).length ∧
      ∀ pair ∈ (paths.zip members).zip directory.entries,
        pair.2.size.toNat ≤ pair.1.2.contents.length := by
  have sized := consecutive_sized (paths.zip members) 0 0
  rw [plan.sources, ← plan.laid.entries] at sized
  exact sized

theorem Plan.legible (plan : Plan store paths members directory encoded) :
    ∀ source ∈ paths.zip members, store.Legible source.1 := by
  intro source inside
  have found := memberAt?_of_mem_zip store paths members plan.inputs source inside
  exact ⟨_, (memberAt?_eq_some store source.1 source.2 found).2, nofun⟩

theorem Plan.near (plan : Plan store paths members directory encoded) :
    encoded.length + 0x200000000 ≤ 0x8000000000000000 := by
  have short := Directory.encoded_length_lt directory encoded plan.written
  omega

theorem Plan.read (plan : Plan store paths members directory encoded) (payload : Bytes) :
    Directory.read (encoded ++ payload) = .ok directory :=
  Directory.read_laidOut _ directory encoded plan.laid payload

theorem Plan.extent (plan : Plan store paths members directory encoded) :
    directory.extent = encoded.length + directory.payloadSize.toNat :=
  Directory.extent_of_follows directory encoded.length plan.laid.dataStart plan.near
    (Directory.laidOut_follows _ directory encoded plan.laid)

theorem Plan.payloadSize (plan : Plan store paths members directory encoded) :
    directory.payloadSize.toNat = Directory.payloadTotal directory.entries :=
  Directory.payloadSize_toNat directory (Directory.laidOut_follows _ directory encoded plan.laid)

end Plan

/-- The failures that come before a single byte is written: the buffer, the inputs, the layout or the
making of the output is at fault. -/
inductive Unbegun : Failure → Prop
  | buffer (size : Int) : Unbegun (.bufferSize size)
  | unnamed (path : Bytes) : Unbegun (.noFileName path)
  | missing (fault : Fault) : Unbegun (.during .statInput (.store fault))
  | irregular (path : Bytes) : Unbegun (.notRegular path)
  | layout (error : Directory.LayoutError) : Unbegun (.layout error)
  | output (fault : Fault) : Unbegun (.during .createOutput (.store fault))

theorem measure_eq_error (path : Bytes) (failure : Failure) (before after : Workspace)
    (failed : (measure path).runOn before = (.error failure, after)) :
    Unbegun failure ∧ before = after := by
  rw [measure] at failed
  rcases Action.bind_cases failed with ⟨_, same, naming⟩ | ⟨name, _, naming, failed⟩
  · cases same
    obtain ⟨refused, rfl⟩ := Action.ofExcept_eq_error.mp naming
    rw [memberName] at refused
    split at refused <;> cases refused
    exact ⟨.unnamed path, rfl⟩
  obtain ⟨_, rfl⟩ := Action.ofExcept_eq_ok.mp naming
  rcases Action.bind_cases failed with ⟨_, same, asking⟩ | ⟨node, _, asking, failed⟩
  · cases same
    obtain ⟨cause, rfl, asked⟩ := Action.during_eq_error.mp asking
    obtain ⟨fault, rfl, _, rfl⟩ := Action.ask_eq_error.mp asked
    exact ⟨.missing fault, rfl⟩
  · obtain ⟨_, rfl⟩ := Action.ask_eq_ok.mp (Action.during_eq_ok.mp asking)
    cases node with
    | file contents => cases failed
    | directory =>
        cases failed
        exact ⟨.irregular path, rfl⟩
    | fullDevice =>
        cases failed
        exact ⟨.irregular path, rfl⟩

theorem mapM_measure_eq_error (paths : List Bytes) (failure : Failure) (before after : Workspace)
    (failed : (paths.mapM measure).runOn before = (.error failure, after)) :
    Unbegun failure ∧ before = after := by
  induction paths generalizing before with
  | nil => cases failed
  | cons path paths ih =>
      rw [List.mapM_cons] at failed
      rcases Action.bind_cases failed with ⟨_, same, first⟩ | ⟨input, _, measured, failed⟩
      · cases same
        exact measure_eq_error path failure before after first
      obtain ⟨rfl, _⟩ := measure_eq_ok path input before _ measured
      rcases Action.bind_cases failed with ⟨_, same, later⟩ | ⟨inputs, _, _, last⟩
      · cases same
        exact ih before later
      · cases last

/-- How a compression ended: it never began to write, or it was writing what was planned. -/
def Outcome (output : Bytes) (paths : List Bytes) (before after : Workspace)
    (result : Except Failure Unit) : Prop :=
  (∃ failure, result = .error failure ∧ Unbegun failure ∧ after.store = before.store ∧
    after.log = before.log) ∨
  ∃ members directory encoded, Plan before.store paths members directory encoded ∧
    Ends output (paths.zip members) encoded (Directory.payloadTotal directory.entries) before after
      result

theorem outcome_of_error {output : Bytes} {paths : List Bytes} {before : Workspace} {failure : Failure}
    (early : Unbegun failure) : Outcome output paths before before (.error failure) :=
  Or.inl ⟨failure, rfl, early, rfl, rfl⟩

theorem tracked_outcome (output : Bytes) (paths : List Bytes) (members : List Member)
    (directory : Directory) (encoded : Bytes) (buffer : Int) (before after : Workspace)
    (result : Except Failure Unit) (positive : 0 < buffer)
    (plan : Plan before.store paths members directory encoded)
    (unreached : ¬ before.log.Reaches before.store (before.store.place output))
    (ran : (Action.tracked directory.payloadSize (writeArchive output directory
      ((paths.zip members).map inputOf) false buffer)).runOn before = (result, after)) :
    Outcome output paths before after result := by
  rw [Action.tracked_run] at ran
  cases writing : (writeArchive output directory ((paths.zip members).map inputOf) false buffer).runOn
      (before.track fun tracker => tracker.init directory.payloadSize) with
  | mk outcome ended =>
      rw [writing] at ran
      cases ran
      rcases writeArchive_ends output directory encoded (paths.zip members) buffer
          (before.track fun tracker => tracker.init directory.payloadSize) ended outcome positive
          plan.written plan.sized.1 plan.sized.2 plan.legible unreached writing with
        ⟨fault, rfl, rfl⟩ | ends
      · exact Or.inl ⟨_, rfl, .output fault, rfl, rfl⟩
      · obtain ⟨changes, whole, short⟩ := ends
        exact Or.inr ⟨members, directory, encoded, plan, changes, whole, short⟩

/-- However a compression goes, it has one of these outcomes. The output may be among the inputs. -/
theorem compress_outcome (output : Bytes) (paths : List Bytes) (options : CompressOptions)
    (before after : Workspace) (result : Except Failure Unit) (plain : options.lz4 = false)
    (unreached : ¬ before.log.Reaches before.store (before.store.place output))
    (ran : (compress output paths options).runOn before = (result, after)) :
    Outcome output paths before after result := by
  rw [compress, plain] at ran
  rcases Action.bind_cases ran with ⟨failure, rfl, checking⟩ | ⟨_, _, checking, ran⟩
  · obtain ⟨refused, rfl⟩ := Action.ofExcept_eq_error.mp checking
    rw [Payload.checkBuffer] at refused
    split at refused <;> cases refused
    exact outcome_of_error (.buffer _)
  obtain ⟨checked, rfl⟩ := Action.ofExcept_eq_ok.mp checking
  rcases Action.bind_cases ran with ⟨failure, rfl, measuring⟩ | ⟨inputs, _, measuring, ran⟩
  · obtain ⟨early, rfl⟩ := mapM_measure_eq_error paths failure before _ measuring
    exact outcome_of_error early
  obtain ⟨rfl, members, found, rfl⟩ := mapM_measure_eq_ok paths inputs before _ measuring
  rw [layout_measured paths members (map_snd_zip _ paths members found)] at ran
  rcases Action.bind_cases ran with ⟨failure, rfl, planning⟩ | ⟨directory, _, planning, ran⟩
  · obtain ⟨refused, rfl⟩ := Action.ofExcept_eq_error.mp planning
    obtain ⟨error, rfl, _⟩ := Result.mapError_eq_error.mp refused
    exact outcome_of_error (.layout error)
  obtain ⟨planned, rfl⟩ := Action.ofExcept_eq_ok.mp planning
  rw [Result.mapError_eq_ok] at planned
  obtain ⟨_, encoded, laid⟩ := Directory.layout_eq_ok _ _ directory planned
  exact tracked_outcome output paths members directory encoded _ before after result
    (Payload.checkBuffer_eq_ok.mp checked).1 ⟨found, planned, laid.written⟩ unreached ran

end IgaArchive.Archive

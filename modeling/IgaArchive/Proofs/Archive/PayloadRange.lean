import IgaArchive.Proofs.Archive.Preservation
import IgaArchive.Proofs.Directory.NormalForm

/-!
The range check of directories that come from elsewhere. Offsets and sizes are 32-bit and the table is at most
as long as its own length field tells, so sums of them stay within 64 bits, and what passes the check is read
from behind the directory and to its end.
-/

namespace IgaArchive.Directory

theorem three_mul_length_le (entries : List Entry) :
    3 * entries.length ≤ (encodeTable entries).length := by
  induction entries with
  | nil => exact Nat.zero_le _
  | cons entry entries ih =>
      have split : encodeTable (entry :: entries) = encodeEntry entry ++ encodeTable entries :=
        List.flatMap_cons
      have nameOffset := List.length_pos_iff.mpr (VarUint.encode_ne_nil entry.nameOffset)
      have offset := List.length_pos_iff.mpr (VarUint.encode_ne_nil entry.offset)
      have size := List.length_pos_iff.mpr (VarUint.encode_ne_nil entry.size)
      rw [split, encodeEntry, List.length_append, List.length_append, List.length_append, List.length_cons]
      omega

theorem payloadTotal_le (entries : List Entry) : payloadTotal entries ≤ 0xFFFFFFFF * entries.length := by
  induction entries with
  | nil => exact Nat.zero_le _
  | cons entry entries ih =>
      have size := entry.size.toNat_lt
      rw [payloadTotal_cons, List.length_cons]
      omega

theorem ReadFrom.payloadSize_toNat {directory : Directory} {front table names : Bytes}
    {listed : List Entry} (source : ReadFrom directory front table names listed) :
    directory.payloadSize.toNat = payloadTotal directory.entries := by
  obtain ⟨_, encoded, written, _⟩ := source.encode
  have few := three_mul_length_le directory.entries
  have room := (encode_eq_ok directory encoded written).1
  have small := payloadTotal_le directory.entries
  have total : payloadTotal directory.entries < 0x10000000000000000 := by
    rw [maxField] at room
    omega
  rw [payloadSize, foldl_sizes _ _ (by simpa using total)]
  simp

/-- Nothing that is computed of the payloads wraps around, so the range check is one of integers: it accepts a
directory if every payload ends within the file, and else reports the first one that does not. -/
structure RangesExact (directory : Directory) : Prop where
  starts : ∀ entry ∈ directory.entries,
    (directory.start entry).toInt = directory.dataStart.toInt + entry.offset.toNat
  ends : ∀ entry ∈ directory.entries,
    (directory.start entry + Int64.ofNat entry.size.toNat).toInt =
      directory.dataStart.toInt + entry.offset.toNat + entry.size.toNat
  total : directory.payloadSize.toNat = payloadTotal directory.entries
  accepts : ∀ fileSize, directory.resolve fileSize = .ok () ↔ ∀ entry ∈ directory.entries,
    directory.dataStart.toInt + entry.offset.toNat + entry.size.toNat ≤ fileSize.toInt
  refuses : ∀ fileSize error, directory.resolve fileSize = .error error →
    ∃ front entry back, directory.entries = front ++ entry :: back ∧
      (∀ earlier ∈ front,
        directory.dataStart.toInt + earlier.offset.toNat + earlier.size.toNat ≤ fileSize.toInt) ∧
      fileSize.toInt < directory.dataStart.toInt + entry.offset.toNat + entry.size.toNat ∧
      error.name = entry.name ∧
      error.offset.toInt = directory.dataStart.toInt + entry.offset.toNat ∧
      error.size = entry.size ∧ error.fileSize = fileSize

theorem read_rangesExact (bytes : Bytes) (directory : Directory)
    (short : bytes.length < 0x4000000000000000) (accepted : read bytes = .ok directory) :
    RangesExact directory := by
  obtain ⟨front, rest, table, names, listed, rfl, source⟩ := read_eq_ok bytes directory accepted
  rw [List.length_append] at short
  have near : front.length + 0x200000000 ≤ 0x8000000000000000 := by omega
  have position := dataStart_toInt directory _ source.dataStart near
  have starts := start_toInt directory _ source.dataStart near
  have endings := ending_eq directory _ source.dataStart near
  simp only [← position] at starts endings
  refine ⟨fun entry _ => starts entry, ?_, source.payloadSize_toNat, ?_, ?_⟩
  · intro entry _
    rw [start_add_size_toInt directory _ source.dataStart near, endings]
  · intro fileSize
    rw [resolve_eq_ok_iff_toInt directory _ source.dataStart near]
    simp only [endings]
  · intro fileSize error refused
    obtain ⟨earlier, entry, later, shape, before, beyond, same⟩ :=
      resolve_eq_error_toInt directory _ source.dataStart near fileSize error refused
    simp only [endings] at before beyond
    subst same
    exact ⟨earlier, entry, later, shape, before, beyond, rfl, starts entry, rfl, rfl⟩

end IgaArchive.Directory

namespace IgaArchive.Archive

/-- The payload of an entry is a part of what lies behind the directory, of the full size. While the container is
there, reading gives this part and no transfer of it ends in a read error. -/
structure PayloadBehind (archive : Archive) (container rest : Bytes) (entry : Entry) : Prop where
  length : ((rest.drop entry.offset.toNat).take entry.size.toNat).length = entry.size.toNat
  reads : ∀ store, archive.Supplies container store → ∀ position length,
    archive.payload entry store position length =
      (((rest.drop entry.offset.toNat).take entry.size.toNat).drop position).take length
  transfers : ∀ (σ ε : Type) (view : σ → Store) (sink : Payload.Sink σ ε) (key : UInt8) (buffer : Nat)
    (holds : σ → Prop) (state : σ), 0 < buffer →
    (∀ state, holds state → archive.Supplies container (view state)) →
    (∀ state chunk next, holds state → sink state chunk = (next, none) → holds next) → holds state →
    (Payload.transfer (fun state => archive.payload entry (view state)) sink key buffer
      entry.size.toNat state).2.error ≠ some .shortRead

theorem payloadBehind_of_fits (archive : Archive) (front rest : Bytes) (entry : Entry)
    (start : (archive.directory.start entry).toNatClampNeg = front.length + entry.offset.toNat)
    (fits : front.length + entry.offset.toNat + entry.size.toNat ≤ (front ++ rest).length) :
    PayloadBehind archive (front ++ rest) rest entry := by
  have part : ciphertext (front ++ rest) archive.directory entry =
      (rest.drop entry.offset.toNat).take entry.size.toNat := by
    rw [ciphertext, start, List.drop_append, List.drop_of_length_le (by omega), Nat.add_sub_cancel_left,
      List.nil_append]
  have inRange : (archive.directory.start entry).toNatClampNeg + entry.size.toNat ≤
      (front ++ rest).length := by
    omega
  have full := ciphertext_length _ _ _ inRange
  rw [part] at full
  refine ⟨full, ?_, ?_⟩
  · intro store supplies position length
    rw [supplies.payload, part]
  · intro σ ε view sink key buffer holds state positive unchanged kept begun
    refine Payload.transfer_error_ne_shortRead _ sink key buffer _ holds positive ?_ kept state begun
    intro state still position length inside
    exact payload_length archive _ entry (view state) (unchanged state still) inRange position length inside

/-- The range check can be relied on. For every directory that was read it is exact; hence every payload of an
archive that was opened lies behind the header, the table and the names, is read in full, and cannot run short
while the container stays as it is. A container that leaves no room for an offset and a size below the
last 64-bit position is left out. -/
theorem range_check_sound :
    (∀ bytes directory, bytes.length < 0x4000000000000000 → Directory.read bytes = .ok directory →
      directory.RangesExact) ∧
    ∀ path wrapped archive before after, (openAt path wrapped).runOn before = (.ok archive, after) →
      ∃ bytes container, before.store.readWhole path = .ok bytes ∧
        containerIn wrapped bytes = .ok container ∧
        (container.length + 0x200000000 ≤ 0x8000000000000000 →
          ∃ front rest table names listed, container = front ++ rest ∧
            archive.directory.ReadFrom front table names listed ∧
            ∀ entry ∈ archive.directory.entries, PayloadBehind archive container rest entry) := by
  refine ⟨Directory.read_rangesExact, ?_⟩
  intro path wrapped archive before after accepted
  obtain ⟨location, contents, container, opened⟩ := openAt_opens path wrapped archive before after accepted
  refine ⟨contents.toBytes, container, opened.whole, opened.held, ?_⟩
  intro short
  have resolved := opened.resolved
  obtain ⟨front, rest, table, names, listed, rfl, source⟩ := Directory.read_eq_ok _ _ opened.read
  refine ⟨front, rest, table, names, listed, rfl, source, ?_⟩
  intro entry member
  obtain ⟨position, fits⟩ := Directory.fits_of_resolve archive.directory front.length _ source.dataStart
    (by rw [List.length_append] at short; omega) (by omega) resolved entry member
  apply payloadBehind_of_fits archive front rest entry ?_ fits
  rw [Int64.toNatClampNeg, position]
  omega

theorem range_check_sound_overlapping :
    overlapping.RangesExact ∧
    ∃ archive after, (openAt (utf8 "foreign") false).runOn overlappingFile = (.ok archive, after) ∧
      archive.Supplies overlappingContainer overlappingFile.store ∧
      ∀ entry ∈ overlapping.entries, PayloadBehind archive overlappingContainer [10, 20, 30] entry := by
  have reads : Directory.read overlappingContainer = .ok overlapping :=
    Result.eq_ok_of_toOption (by decide +kernel)
  have resolves : overlapping.resolve (Int64.ofNat overlappingContainer.length) = .ok () :=
    Result.eq_ok_of_toOption (by decide +kernel)
  have whole : overlappingFile.store.readWhole (utf8 "foreign") = .ok overlappingContainer :=
    Result.eq_ok_of_toOption (by decide +kernel)
  obtain ⟨messages, run⟩ := openAt_run (utf8 "foreign") overlappingContainer overlappingFile whole
  rw [(verdict_eq_ok _ _).mpr ⟨reads, resolves⟩] at run
  obtain ⟨exactly, accepted⟩ := range_check_sound
  obtain ⟨bytes, container, same, held, inside⟩ := accepted _ _ _ _ _ run
  cases whole.symm.trans same
  cases held
  obtain ⟨front, rest, _, _, _, shape, source, behind⟩ := inside (by decide)
  have length := congrArg List.length shape
  rw [List.length_append] at length
  have begins := Directory.dataStart_toInt overlapping front.length source.dataStart (by
    have short : overlappingContainer.length = 35 := by decide
    omega)
  have count : front.length = 32 := by
    have start : overlapping.dataStart.toInt = 32 := by decide
    omega
  have bytes : rest = [10, 20, 30] := by
    have dropped := congrArg (List.drop 32) shape
    rw [List.drop_left' count] at dropped
    exact dropped.symm
  rw [bytes] at behind
  exact ⟨exactly _ _ (by decide) reads, _, _, run, node?_of_readWhole _ _ _ nofun whole, behind⟩

end IgaArchive.Archive

import IgaArchive.Proofs.Directory.Extent
import IgaArchive.Proofs.Directory.RoundTrip
import IgaArchive.Proofs.Payload

/-!
The container format, told from the members alone: header, entry table, names and payloads in this
order. Offsets are sums over the members before; the directory laid out for the members is the part of
the container before the payloads.
-/

namespace IgaArchive.Archive

/-- What an archive holds of one file. -/
structure Member where
  name : Bytes
  contents : Bytes
  deriving DecidableEq, Repr

def nameBytes : List Member → Nat
  | [] => 0
  | member :: members => member.name.length + nameBytes members

def contentBytes : List Member → Nat
  | [] => 0
  | member :: members => member.contents.length + contentBytes members

def tableRow (members : List Member) (row : Member × Nat) : Bytes :=
  VarUint.encode (nameBytes (members.take row.2)).toUInt32 ++
    VarUint.encode (contentBytes (members.take row.2)).toUInt32 ++
    VarUint.encode row.1.contents.length.toUInt32

def tableOf (members : List Member) : Bytes :=
  members.zipIdx.flatMap (tableRow members)

def namesOf (members : List Member) : Bytes :=
  members.flatMap fun member => PackedString.encode member.name

/-- The payload of a member: each byte is combined with its index plus two, and inverted in a script,
whose name ends in `.s`. -/
def sealed (member : Member) : Bytes :=
  member.contents.mapIdx fun i b =>
    b ^^^ (i + 2).toUInt8 ^^^ (if [0x2E, 0x73] <:+ member.name then 0xFF else 0x00)

def containerOf (members : List Member) : Bytes :=
  Header.standard.encode ++
    VarUint.encode (tableOf members).length.toUInt32 ++ tableOf members ++
    VarUint.encode (namesOf members).length.toUInt32 ++ namesOf members ++
    members.flatMap sealed

/-- No offset, size or block length of the container loses a bit in its 32-bit field. -/
structure Representable (members : List Member) : Prop where
  nameOffsets : ∀ i < members.length, nameBytes (members.take i) ≤ Directory.maxField
  offsets : ∀ i < members.length, contentBytes (members.take i) ≤ Directory.maxField
  sizes : ∀ member ∈ members, member.contents.length ≤ Directory.maxField
  table : (tableOf members).length ≤ Directory.maxField
  names : (namesOf members).length ≤ Directory.maxField

def Member.outline (member : Member) : Bytes × Nat :=
  (member.name, member.contents.length)

theorem nameBytes_append (front back : List Member) :
    nameBytes (front ++ back) = nameBytes front + nameBytes back := by
  induction front with
  | nil => simp [nameBytes]
  | cons member front ih => simp [nameBytes, ih, Nat.add_assoc]

theorem contentBytes_append (front back : List Member) :
    contentBytes (front ++ back) = contentBytes front + contentBytes back := by
  induction front with
  | nil => simp [contentBytes]
  | cons member front ih => simp [contentBytes, ih, Nat.add_assoc]

theorem encodeTable_consecutive (earlier members : List Member) :
    Directory.encodeTable (Directory.consecutive (nameBytes earlier) (contentBytes earlier)
        (members.map Member.outline)) =
      (members.zipIdx earlier.length).flatMap (tableRow (earlier ++ members)) := by
  induction members generalizing earlier with
  | nil => rfl
  | cons member members ih =>
      have rest := ih (earlier ++ [member])
      rw [nameBytes_append, contentBytes_append, List.append_assoc, List.singleton_append,
        List.length_append] at rest
      have names : nameBytes [member] = member.name.length := by simp [nameBytes]
      have contents : contentBytes [member] = member.contents.length := by simp [contentBytes]
      rw [names, contents, List.length_singleton] at rest
      simp only [List.map_cons, Member.outline, Directory.consecutive, Directory.encodeTable,
        List.flatMap_cons, List.zipIdx_cons] at rest ⊢
      rw [rest]
      simp [tableRow, Directory.encodeEntry]

theorem encodeTable_outline (members : List Member) :
    Directory.encodeTable (Directory.consecutive 0 0 (members.map Member.outline)) =
      tableOf members := by
  exact encodeTable_consecutive [] members

theorem encodeNames_outline (nameOffset offset : Nat) (members : List Member) :
    Directory.encodeNames
        (Directory.consecutive nameOffset offset (members.map Member.outline)) =
      namesOf members := by
  induction members generalizing nameOffset offset with
  | nil => rfl
  | cons member members ih =>
      simp only [List.map_cons, Member.outline, Directory.consecutive, Directory.encodeNames_cons,
        namesOf, List.flatMap_cons]
      rw [← namesOf, ← ih]

theorem transform_eq_sealed (member : Member) :
    Payload.transform (Payload.key member.name .byName) 0 member.contents = sealed member := by
  have start : (0 : Int64) = Int64.ofNat 0 := rfl
  have script : Payload.isScript member.name = true ↔ [0x2E, 0x73] <:+ member.name := by
    rw [← List.isSuffixOf_iff_suffix]
    rfl
  have key : Payload.key member.name .byName =
      if [0x2E, 0x73] <:+ member.name then 0xFF else 0x00 := by
    simp only [Payload.key, script, Payload.scriptKey, Payload.plainKey, reduceCtorEq, decide_false,
      Bool.false_or]
  rw [start, Payload.transform_ofNat, key, sealed]
  simp only [Nat.zero_add, UInt8.xor_assoc]

theorem sealed_length (member : Member) : (sealed member).length = member.contents.length := by
  simp [sealed]

theorem payloads_length (members : List Member) :
    (members.flatMap sealed).length = contentBytes members := by
  induction members with
  | nil => rfl
  | cons member members ih => simp [contentBytes, sealed_length, ih]

theorem fieldsFit_outline (earlier members : List Member)
    (fit : Directory.FieldsFit (nameBytes earlier) (contentBytes earlier)
      (members.map Member.outline)) :
    (∀ i < members.length, nameBytes (earlier ++ members.take i) ≤ Directory.maxField ∧
        contentBytes (earlier ++ members.take i) ≤ Directory.maxField) ∧
      ∀ member ∈ members, member.contents.length ≤ Directory.maxField := by
  induction members generalizing earlier with
  | nil => exact ⟨nofun, nofun⟩
  | cons member members ih =>
      obtain ⟨nameFits, offsetFits, sizeFits, later⟩ := fit
      have names : nameBytes (earlier ++ [member]) = nameBytes earlier + member.name.length := by
        simp [nameBytes_append, nameBytes]
      have contents :
          contentBytes (earlier ++ [member]) = contentBytes earlier + member.contents.length := by
        simp [contentBytes_append, contentBytes]
      have rest := ih (earlier ++ [member]) (by rw [names, contents]; exact later)
      refine ⟨?_, ?_⟩
      · intro i inside
        cases i with
        | zero => simpa using And.intro nameFits offsetFits
        | succ i =>
            have step := rest.1 i (by simpa using inside)
            rwa [List.append_assoc] at step
      · intro other inside
        rcases List.mem_cons.mp inside with same | inside
        · rw [same]
          exact sizeFits
        · exact rest.2 other inside

theorem containerOf_eq (members : List Member) (directory : Directory) (encoded : Bytes)
    (laid : Directory.LaidOut (members.map Member.outline) directory encoded) :
    containerOf members = encoded ++ members.flatMap sealed := by
  obtain ⟨_, _, shape⟩ := Directory.encode_eq_ok directory encoded laid.written
  rw [shape, laid.header, laid.entries, encodeTable_outline, encodeNames_outline]
  simp [containerOf, Directory.encodeBlock]

theorem representable_of_laidOut (members : List Member) (directory : Directory) (encoded : Bytes)
    (laid : Directory.LaidOut (members.map Member.outline) directory encoded) : Representable members := by
  obtain ⟨table, names, _⟩ := Directory.encode_eq_ok directory encoded laid.written
  rw [laid.entries, encodeTable_outline] at table
  rw [laid.entries, encodeNames_outline] at names
  obtain ⟨offsets, sizes⟩ := fieldsFit_outline [] members laid.fields
  exact ⟨fun i inside => (offsets i inside).1, fun i inside => (offsets i inside).2, sizes, table, names⟩

theorem payloadTotal_outline (members : List Member) (nameOffset offset : Nat)
    (sizes : ∀ member ∈ members, member.contents.length ≤ Directory.maxField) :
    Directory.payloadTotal (Directory.consecutive nameOffset offset (members.map Member.outline)) =
      contentBytes members := by
  induction members generalizing nameOffset offset with
  | nil => rfl
  | cons member members ih =>
      obtain ⟨size, later⟩ := List.forall_mem_cons.mp sizes
      simp only [Directory.maxField] at size
      rw [List.map_cons, Member.outline, Directory.consecutive, Directory.payloadTotal_cons,
        ih _ _ later, contentBytes]
      simp only [Nat.toUInt32_eq, UInt32.toNat_ofNat']
      omega

theorem payloadTotal_eq (members : List Member) (directory : Directory) (encoded : Bytes)
    (laid : Directory.LaidOut (members.map Member.outline) directory encoded) :
    Directory.payloadTotal directory.entries = contentBytes members := by
  rw [laid.entries]
  exact payloadTotal_outline members 0 0 (representable_of_laidOut members directory encoded laid).sizes

theorem payloadSize_eq (members : List Member) (directory : Directory) (encoded : Bytes)
    (laid : Directory.LaidOut (members.map Member.outline) directory encoded) :
    directory.payloadSize.toNat = contentBytes members := by
  rw [← payloadTotal_eq members directory encoded laid]
  exact Directory.payloadSize_toNat directory (Directory.laidOut_follows _ directory encoded laid)

theorem containerOf_length (members : List Member) (directory : Directory) (encoded : Bytes)
    (laid : Directory.LaidOut (members.map Member.outline) directory encoded) :
    ((containerOf members).length : Int) =
      directory.dataStart.toInt + directory.payloadSize.toNat := by
  have start := Directory.toInt_encoded_length directory encoded laid.written
  rw [payloadSize_eq members directory encoded laid, containerOf_eq members directory encoded laid,
    laid.dataStart, start, List.length_append, payloads_length]
  omega

end IgaArchive.Archive

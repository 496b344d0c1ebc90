import IgaArchive.Proofs.Archive.Format
import IgaArchive.Proofs.Archive.Opening
import IgaArchive.Proofs.Archive.Transfer

/-!
A container that was written can be opened again. Its directory tells where each member is, and what is
extracted from there under the key by name are the contents that were put in.
-/

namespace IgaArchive.Archive

def entryAfter (front : List Member) (member : Member) : Entry :=
  ⟨(nameBytes front).toUInt32, member.name, (contentBytes front).toUInt32,
    member.contents.length.toUInt32⟩

theorem consecutive_cons (earlier members : List Member) (member : Member) :
    Directory.consecutive (nameBytes earlier) (contentBytes earlier)
        ((member :: members).map Member.outline) =
      entryAfter earlier member ::
        Directory.consecutive (nameBytes (earlier ++ [member])) (contentBytes (earlier ++ [member]))
          (members.map Member.outline) := by
  rw [nameBytes_append, contentBytes_append]
  rfl

theorem consecutive_append (earlier front back : List Member) :
    Directory.consecutive (nameBytes earlier) (contentBytes earlier)
        ((front ++ back).map Member.outline) =
      Directory.consecutive (nameBytes earlier) (contentBytes earlier) (front.map Member.outline) ++
        Directory.consecutive (nameBytes (earlier ++ front)) (contentBytes (earlier ++ front))
          (back.map Member.outline) := by
  induction front generalizing earlier with
  | nil => simp [Directory.consecutive]
  | cons member front ih =>
      rw [List.cons_append, consecutive_cons, consecutive_cons, ih, List.append_assoc,
        List.singleton_append, List.cons_append]

def lastNamed? (members : List Member) (name : Bytes) : Option Member :=
  members.reverse.find? fun member => member.name = name

theorem lastNamed?_eq_some (members : List Member) (name : Bytes) (member : Member)
    (found : lastNamed? members name = some member) :
    member.name = name ∧ ∃ front back, members = front ++ member :: back ∧
      ∀ other ∈ back, other.name ≠ name := by
  obtain ⟨named, back, front, shape, others⟩ := List.find?_eq_some_iff_append.mp found
  refine ⟨by simpa using named, front.reverse, back.reverse, ?_, ?_⟩
  · rw [← members.reverse_reverse, shape]
    simp
  · intro other inside
    simpa using others other (List.mem_reverse.mp inside)

theorem lastNamed?_eq_none (members : List Member) (name : Bytes)
    (missing : lastNamed? members name = none) : ∀ member ∈ members, member.name ≠ name := by
  intro member inside
  simpa using List.find?_eq_none.mp missing member (List.mem_reverse.mpr inside)

theorem split_at {members : List Member} (i : Nat) (member : Member)
    (listed : members[i]? = some member) :
    members = members.take i ++ member :: members.drop (i + 1) := by
  obtain ⟨inside, rfl⟩ := List.getElem?_eq_some_iff.mp listed
  rw [List.getElem_cons_drop, List.take_append_drop]

section Written

variable {members : List Member} {directory : Directory} {encoded : Bytes}
variable (laid : Directory.LaidOut (members.map Member.outline) directory encoded)
include laid

theorem entries_split (front back : List Member) (member : Member)
    (shape : members = front ++ member :: back) :
    directory.entries =
      Directory.consecutive 0 0 (front.map Member.outline) ++ entryAfter front member ::
        Directory.consecutive (nameBytes (front ++ [member])) (contentBytes (front ++ [member]))
          (back.map Member.outline) := by
  have split := consecutive_append [] front (member :: back)
  rw [List.nil_append, consecutive_cons] at split
  rw [laid.entries, shape]
  exact split

theorem entries_names : directory.entries.map Entry.name = members.map Member.name := by
  rw [laid.entries, Directory.consecutive_names, List.map_map]
  rfl

theorem containerOf_short : (containerOf members).length < 0x4000000000000000 := by
  have total := Directory.Follows.payloadTotal_lt _ (Directory.laidOut_follows _ directory encoded laid)
  rw [payloadTotal_eq members directory encoded laid] at total
  have short := Directory.encoded_length_lt directory encoded laid.written
  rw [containerOf_eq members directory encoded laid, List.length_append, payloads_length]
  omega

/-- Where the payload of a member is. No number on the way has wrapped around. -/
theorem payload_range (front back : List Member) (member : Member)
    (shape : members = front ++ member :: back) :
    directory.start (entryAfter front member) = Int64.ofNat (encoded.length + contentBytes front) ∧
      (entryAfter front member).size.toNat = member.contents.length ∧
      encoded.length + contentBytes front + member.contents.length ≤ (containerOf members).length := by
  have fits := representable_of_laidOut members directory encoded laid
  have offset := fits.offsets front.length (by simp [shape])
  have size := fits.sizes member (by simp [shape])
  have sum : contentBytes members =
      contentBytes front + (member.contents.length + contentBytes back) := by
    rw [shape, contentBytes_append]
    rfl
  rw [shape, List.take_left] at offset
  simp only [Directory.maxField] at offset size
  refine ⟨?_, ?_, ?_⟩
  · have field : (entryAfter front member).offset.toNat = contentBytes front := by
      simp only [entryAfter, Nat.toUInt32_eq, UInt32.toNat_ofNat']
      omega
    rw [Directory.start, laid.dataStart, field, ← Int64.ofNat_add]
  · simp only [entryAfter, Nat.toUInt32_eq, UInt32.toNat_ofNat']
    omega
  · rw [containerOf_eq members directory encoded laid, List.length_append, payloads_length]
    omega

theorem start_member (front back : List Member) (member : Member)
    (shape : members = front ++ member :: back) :
    (directory.start (entryAfter front member)).toNatClampNeg =
      encoded.length + contentBytes front := by
  obtain ⟨position, _, inside⟩ := payload_range laid front back member shape
  have short := containerOf_short laid
  rw [position, Int64.toNatClampNeg, Int64.toInt_ofNat_of_lt (by omega)]
  omega

theorem ciphertext_member (front back : List Member) (member : Member)
    (shape : members = front ++ member :: back) :
    ciphertext (containerOf members) directory (entryAfter front member) = sealed member := by
  obtain ⟨_, size, _⟩ := payload_range laid front back member shape
  have skipped : (encoded ++ front.flatMap sealed).length = encoded.length + contentBytes front := by
    rw [List.length_append, payloads_length]
  have parts : containerOf members =
      (encoded ++ front.flatMap sealed) ++ (sealed member ++ back.flatMap sealed) := by
    rw [containerOf_eq members directory encoded laid, shape]
    simp
  rw [ciphertext, start_member laid front back member shape, size, parts, ← skipped,
    List.drop_left, ← sealed_length, List.take_left]

theorem plaintext_member (front back : List Member) (member : Member)
    (shape : members = front ++ member :: back) :
    plaintext (containerOf members) directory (Payload.key member.name .byName)
      (entryAfter front member) = member.contents := by
  rw [plaintext, ciphertext_member laid front back member shape, ← transform_eq_sealed,
    Payload.transform_transform]

theorem entries_lastNamed (name : Bytes) (member : Member)
    (found : lastNamed? members name = some member) :
    ∃ front entry back, directory.entries = front ++ entry :: back ∧ entry.name = name ∧
      (∀ other ∈ back, other.name ≠ name) ∧
      plaintext (containerOf members) directory (Payload.key entry.name .byName) entry =
        member.contents := by
  obtain ⟨named, front, back, shape, others⟩ := lastNamed?_eq_some members name member found
  refine ⟨_, entryAfter front member, _, entries_split laid front back member shape, named, ?_,
    plaintext_member laid front back member shape⟩
  intro entry inside
  have listed := List.mem_map_of_mem (f := Entry.name) inside
  rw [Directory.consecutive_names, List.map_map] at listed
  obtain ⟨later, behind, same⟩ := List.mem_map.mp listed
  rw [← same]
  exact others later behind

theorem resolve_written :
    directory.resolve (Int64.ofNat (containerOf members).length) = .ok () := by
  have short := containerOf_short laid
  have near := Directory.encoded_length_lt directory encoded laid.written
  have length := containerOf_length members directory encoded laid
  have start := Directory.dataStart_toInt directory _ laid.dataStart (by omega)
  have extent := Directory.extent_of_follows directory _ laid.dataStart (by omega)
    (Directory.laidOut_follows _ directory encoded laid)
  rw [Directory.resolve_eq_ok_iff directory _ laid.dataStart (by omega) _ (by omega)]
  exact ((Directory.extent_le_iff directory _).mp (by omega)).2

theorem read_written : Directory.read (containerOf members) = .ok directory := by
  rw [containerOf_eq members directory encoded laid]
  exact Directory.read_laidOut _ directory encoded laid _

theorem openAt_holding (path file : Bytes) (location : Location) (wrapped : Bool) (before : Workspace)
    (opens : before.store.openForReading path = .ok (location, .file (.ofBytes file)))
    (held : containerIn wrapped file = .ok (containerOf members)) :
    ∃ archive opened, (openAt path wrapped).runOn before = (.ok archive, opened) ∧
      archive.directory = directory := by
  have whole := Store.readWhole_file before.store path location _ opens
  rw [Contents.toBytes_ofBytes] at whole
  obtain ⟨messages, place, run⟩ := openAt_of_container path file _ wrapped before whole held
  rw [(verdict_eq_ok _ directory).mpr ⟨read_written laid, resolve_written laid⟩] at run
  exact ⟨_, _, run, rfl⟩

theorem openAt_written (path : Bytes) (location : Location) (before : Workspace)
    (opens : before.store.openForReading path = .ok (location, .file (.ofBytes (containerOf members)))) :
    ∃ archive opened, (openAt path false).runOn before = (.ok archive, opened) ∧
      archive.directory = directory :=
  openAt_holding laid path (containerOf members) location false before opens rfl

theorem entry_at (i : Nat) (member : Member) (listed : members[i]? = some member) :
    directory.entries[i]? = some (entryAfter (members.take i) member) := by
  have shape := split_at i member listed
  have inside := (List.getElem?_eq_some_iff.mp listed).1
  have before : (Directory.consecutive 0 0 ((members.take i).map Member.outline)).length = i := by
    have names := congrArg List.length
      (Directory.consecutive_names 0 0 ((members.take i).map Member.outline))
    simp only [List.length_map, List.length_take] at names
    omega
  rw [entries_split laid _ _ member shape, List.getElem?_append_right (Nat.le_of_eq before), before,
    Nat.sub_self, List.getElem?_cons_zero]

end Written

end IgaArchive.Archive

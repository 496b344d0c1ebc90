import IgaArchive.Proofs.Directory.Blocks

/-!
Laying out a directory. Members that are accepted follow each other without gaps, and no offset loses a
bit on its way into a 32-bit field.
-/

namespace IgaArchive.Directory

/-- The entries of members with the given names and sizes that follow each other from the given
offsets on. -/
def consecutive (nameOffset offset : Nat) : List (Bytes × Nat) → List Entry
  | [] => []
  | (name, size) :: members =>
    ⟨nameOffset.toUInt32, name, offset.toUInt32, size.toUInt32⟩ ::
      consecutive (nameOffset + name.length) (offset + size) members

def FieldsFit (nameOffset offset : Nat) : List (Bytes × Nat) → Prop
  | [] => True
  | (name, size) :: members =>
    nameOffset ≤ maxField ∧ offset ≤ maxField ∧ size ≤ maxField ∧
      FieldsFit (nameOffset + name.length) (offset + size) members

def measured (member : Bytes × Int64) : Bytes × Nat :=
  (member.1, member.2.toNatClampNeg)

theorem consecutive_names (nameOffset offset : Nat) (members : List (Bytes × Nat)) :
    (consecutive nameOffset offset members).map Entry.name = members.map Prod.fst := by
  induction members generalizing nameOffset offset with
  | nil => rfl
  | cons member members ih => simp [consecutive, ih]

theorem placeAfter_names (placed : List Entry) (nameOffset offset : UInt64)
    (members : List (Bytes × Int64)) (entries : List Entry)
    (accepted : placeAfter placed nameOffset offset members = .ok entries) :
    entries.map Entry.name = (placed.map Entry.name).reverse ++ members.map Prod.fst := by
  induction members generalizing placed nameOffset offset with
  | nil =>
      cases accepted
      simp
  | cons member members ih =>
      rw [placeAfter] at accepted
      split at accepted
      · cases accepted
      · split at accepted
        · cases accepted
        · simpa using ih _ _ _ accepted

theorem size_refused_iff (size : Int64) :
    (size < 0 ∨ size.toInt > maxField) ↔ ¬ (0 ≤ size ∧ size.toNatClampNeg ≤ maxField) := by
  rw [Int64.lt_iff_toInt_lt, Int64.le_iff_toInt_le]
  simp only [Int64.toNatClampNeg]
  omega

theorem placed_exactly (nameOffset offset : UInt64) (name : Bytes) (size : Int64)
    (nameFits : name.length ≤ maxField) (nonnegative : 0 ≤ size) (sizeFits : size.toNatClampNeg ≤ maxField)
    (nameOffsetFits : nameOffset.toNat ≤ maxField) (offsetFits : offset.toNat ≤ maxField) :
    (nameOffset + name.length.toUInt64).toNat = nameOffset.toNat + name.length ∧
      (offset + size.toUInt64).toNat = offset.toNat + size.toNatClampNeg ∧
      size.toUInt64.toUInt32 = size.toNatClampNeg.toUInt32 := by
  have sizeNat := Int64.toNat_toUInt64_of_le nonnegative
  simp only [maxField] at *
  refine ⟨?_, ?_, ?_⟩
  · simp only [UInt64.toNat_add, Nat.toUInt64_eq, UInt64.toNat_ofNat']
    omega
  · rw [UInt64.toNat_add, sizeNat]
    omega
  · apply UInt32.toNat_inj.mp
    simp [sizeNat]

/-- Members with names of moderate length are placed just when no size is negative and all fields fit, and
then their entries are consecutive. -/
theorem placeAfter_eq_ok_iff (placed : List Entry) (nameOffset offset : UInt64)
    (members : List (Bytes × Int64)) (entries : List Entry)
    (short : ∀ member ∈ members, member.1.length ≤ maxField) :
    placeAfter placed nameOffset offset members = .ok entries ↔
      (∀ member ∈ members, 0 ≤ member.2) ∧
      FieldsFit nameOffset.toNat offset.toNat (members.map measured) ∧
      entries = placed.reverse ++
        consecutive nameOffset.toNat offset.toNat (members.map measured) := by
  induction members generalizing placed nameOffset offset with
  | nil => simp [placeAfter, FieldsFit, consecutive, eq_comm]
  | cons member members ih =>
      obtain ⟨name, size⟩ := member
      obtain ⟨nameFits, laterShort⟩ := List.forall_mem_cons.mp short
      rw [placeAfter, List.map_cons, FieldsFit, List.forall_mem_cons]
      split
      · rename_i refused
        refine ⟨nofun, ?_⟩
        rintro ⟨⟨nonnegative, _⟩, ⟨_, _, sizeFits, _⟩, _⟩
        exact absurd ⟨nonnegative, sizeFits⟩ ((size_refused_iff size).mp refused)
      · rename_i sizeAccepted
        split
        · rename_i refused
          refine ⟨nofun, ?_⟩
          rintro ⟨_, ⟨nameOffsetFits, offsetFits, _⟩, _⟩
          omega
        · rename_i offsetsAccepted
          rw [size_refused_iff, Decidable.not_not] at sizeAccepted
          obtain ⟨nonnegative, sizeFits⟩ := sizeAccepted
          obtain ⟨nextName, nextOffset, sizeField⟩ := placed_exactly nameOffset offset name size nameFits
            nonnegative sizeFits (by omega) (by omega)
          rw [ih _ _ _ laterShort, nextName, nextOffset, sizeField, List.reverse_cons, List.append_assoc]
          constructor
          · rintro ⟨later, fit, same⟩
            exact ⟨⟨nonnegative, later⟩, ⟨by omega, by omega, sizeFits, fit⟩, same⟩
          · rintro ⟨⟨_, later⟩, ⟨_, _, _, fit⟩, same⟩
            exact ⟨later, fit, same⟩

theorem consecutive_stepsMatchNames (nameOffset offset : Nat) (members : List (Bytes × Nat))
    (fit : FieldsFit nameOffset offset members) :
    StepsMatchNames (consecutive nameOffset offset members) := by
  induction members generalizing nameOffset offset with
  | nil =>
      intro i inside
      simp [consecutive] at inside
  | cons member members ih =>
      cases members with
      | nil => exact stepsMatchNames_single _
      | cons next members =>
          obtain ⟨nameFits, offsetFits, sizeFits, later⟩ := fit
          refine (stepsMatchNames_cons _ _ _).mpr ⟨?_, ih _ _ later⟩
          have nextFits := later.1
          simp only [maxField] at nameFits nextFits
          simp only [Nat.toUInt32_eq, UInt32.toNat_ofNat']
          omega

theorem name_length_le (entries : List Entry) (name : Bytes) (named : name ∈ entries.map Entry.name) :
    name.length ≤ (encodeNames entries).length := by
  have long := PackedString.length_le_encode name
  induction entries with
  | nil => cases named
  | cons head tail ih =>
      rw [encodeNames_cons, List.length_append]
      rcases List.mem_cons.mp named with rfl | inside
      · omega
      · have rest := ih inside
        omega

/-- What a directory laid out for members with the given names and sizes is, and what it is written
as. -/
structure LaidOut (members : List (Bytes × Nat)) (directory : Directory) (encoded : Bytes) : Prop where
  header : directory.header = .standard
  fields : FieldsFit 0 0 members
  entries : directory.entries = consecutive 0 0 members
  written : directory.encode = .ok encoded
  dataStart : directory.dataStart = Int64.ofNat encoded.length

theorem layout_eq_ok_iff (names : List Bytes) (sizes : List Int64) (directory : Directory) :
    layout names sizes = .ok directory ↔
      names.length = sizes.length ∧ ∃ entries encoded,
        placeAfter [] 0 0 (names.zip sizes) = .ok entries ∧
        encode { header := .standard, entries, dataStart := 0 } = .ok encoded ∧
        directory = { header := .standard, entries, dataStart := Int64.ofNat encoded.length } := by
  rw [layout]
  split
  · rename_i differing
    exact ⟨nofun, fun accepted => absurd accepted.1 differing⟩
  · rename_i matching
    rw [Decidable.not_not] at matching
    simp only [matching, true_and]
    cases placing : placeAfter [] 0 0 (names.zip sizes) with
    | error error => simp [bind, Except.bind]
    | ok entries =>
        cases writing : encode { header := .standard, entries, dataStart := 0 } with
        | error error => simp [writing, bind, Except.bind]
        | ok encoded => simp [writing, bind, Except.bind, pure, Except.pure, eq_comm]

theorem placed_names_short (members : List (Bytes × Int64)) (entries : List Entry)
    (placing : placeAfter [] 0 0 members = .ok entries)
    (block : (encodeNames entries).length ≤ maxField) :
    ∀ member ∈ members, member.1.length ≤ maxField := by
  intro member inside
  refine Nat.le_trans (name_length_le entries member.1 ?_) block
  rw [placeAfter_names _ _ _ _ _ placing]
  exact List.mem_append_right _ (List.mem_map_of_mem inside)

theorem layout_eq_ok (names : List Bytes) (sizes : List Int64) (directory : Directory)
    (accepted : layout names sizes = .ok directory) :
    names.length = sizes.length ∧
      ∃ encoded, LaidOut ((names.zip sizes).map measured) directory encoded := by
  obtain ⟨matching, entries, encoded, placing, writing, rfl⟩ := (layout_eq_ok_iff _ _ _).mp accepted
  have short := placed_names_short _ _ placing (encode_eq_ok _ _ writing).2.1
  obtain ⟨_, fit, shape⟩ := (placeAfter_eq_ok_iff _ _ _ _ _ short).mp placing
  exact ⟨matching, encoded, rfl, fit, by simpa using shape, writing, rfl⟩

theorem layout_sizes_nonnegative (names : List Bytes) (sizes : List Int64) (directory : Directory)
    (accepted : layout names sizes = .ok directory) : ∀ size ∈ sizes, 0 ≤ size := by
  obtain ⟨matching, entries, encoded, placing, writing, _⟩ := (layout_eq_ok_iff _ _ _).mp accepted
  have short := placed_names_short _ _ placing (encode_eq_ok _ _ writing).2.1
  obtain ⟨nonnegative, _⟩ := (placeAfter_eq_ok_iff _ _ _ _ _ short).mp placing
  have all : (names.zip sizes).map Prod.snd = sizes := List.map_snd_zip (by omega)
  intro size inside
  rw [← all] at inside
  obtain ⟨member, present, rfl⟩ := List.mem_map.mp inside
  exact nonnegative member present

end IgaArchive.Directory

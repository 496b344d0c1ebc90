import IgaArchive.Failure
import IgaArchive.Proofs.Directory.Extent

/-!
Which names and sizes can be laid out, told from the lists alone, and how the payloads of a directory that was
laid out divide up what lies behind it.
-/

namespace IgaArchive.Directory

def namesBefore (names : List Bytes) (i : Nat) : Nat :=
  (names.take i).foldr (fun name total => name.length + total) 0

def sizesBefore (sizes : List Int64) (i : Nat) : Int :=
  (sizes.take i).foldr (fun size total => size.toInt + total) 0

def amountsBefore (amounts : List Nat) (i : Nat) : Nat :=
  (amounts.take i).foldr (fun amount total => amount + total) 0

/-- The entries that members with the given names and sizes should get. -/
def planned (names : List Bytes) (sizes : List Int64) : List Entry :=
  consecutive 0 0 ((names.zip sizes).map measured)

/-- Names and sizes that the format can hold. -/
structure Representable (names : List Bytes) (sizes : List Int64) : Prop where
  matching : names.length = sizes.length
  amounts : ∀ size ∈ sizes, 0 ≤ size.toInt ∧ size.toInt ≤ maxField
  offsets : ∀ i < names.length, namesBefore names i ≤ maxField ∧ sizesBefore sizes i ≤ maxField
  table : (encodeTable (planned names sizes)).length ≤ maxField
  block : (names.flatMap PackedString.encode).length ≤ maxField

theorem namesBefore_cons (name : Bytes) (names : List Bytes) (i : Nat) :
    namesBefore (name :: names) (i + 1) = name.length + namesBefore names i := rfl

theorem amountsBefore_cons (amount : Nat) (amounts : List Nat) (i : Nat) :
    amountsBefore (amount :: amounts) (i + 1) = amount + amountsBefore amounts i := rfl

theorem amountsBefore_sizes (sizes : List Int64) (nonnegative : ∀ size ∈ sizes, 0 ≤ size.toInt) (i : Nat) :
    (amountsBefore (sizes.map Int64.toNatClampNeg) i : Int) = sizesBefore sizes i := by
  induction sizes generalizing i with
  | nil => simp [amountsBefore, sizesBefore]
  | cons size sizes ih =>
      obtain ⟨here, later⟩ := List.forall_mem_cons.mp nonnegative
      have exactly : (size.toNatClampNeg : Int) = size.toInt := Int.toNat_of_nonneg here
      cases i with
      | zero => rfl
      | succ i =>
          rw [List.map_cons, amountsBefore_cons, Int.natCast_add, ih later, exactly]
          rfl

section Sums

variable (nameOffset offset : Nat) (members : List (Bytes × Nat))

theorem fieldsFit_iff :
    FieldsFit nameOffset offset members ↔
      ∀ i member, members[i]? = some member →
        nameOffset + namesBefore (members.map Prod.fst) i ≤ maxField ∧
        offset + amountsBefore (members.map Prod.snd) i ≤ maxField ∧ member.2 ≤ maxField := by
  induction members generalizing nameOffset offset with
  | nil => simp [FieldsFit]
  | cons first members ih =>
      rw [FieldsFit, ih]
      constructor
      · rintro ⟨nameOffsetFits, offsetFits, sizeFits, later⟩ i member found
        cases i with
        | zero =>
            cases found
            exact ⟨nameOffsetFits, offsetFits, sizeFits⟩
        | succ i =>
            rw [List.map_cons, List.map_cons, namesBefore_cons, amountsBefore_cons, ← Nat.add_assoc,
              ← Nat.add_assoc]
            exact later i member found
      · intro all
        obtain ⟨nameOffsetFits, offsetFits, sizeFits⟩ := all 0 first rfl
        refine ⟨nameOffsetFits, offsetFits, sizeFits, ?_⟩
        intro i member found
        have later := all (i + 1) member found
        rwa [List.map_cons, List.map_cons, namesBefore_cons, amountsBefore_cons, ← Nat.add_assoc,
          ← Nat.add_assoc] at later

theorem consecutive_getElem? (i : Nat) :
    (consecutive nameOffset offset members)[i]? = members[i]?.map fun member =>
      ⟨(nameOffset + namesBefore (members.map Prod.fst) i).toUInt32, member.1,
        (offset + amountsBefore (members.map Prod.snd) i).toUInt32, member.2.toUInt32⟩ := by
  induction members generalizing nameOffset offset i with
  | nil => simp [consecutive]
  | cons first members ih =>
      cases i with
      | zero => rfl
      | succ i =>
          rw [consecutive, List.getElem?_cons_succ, List.getElem?_cons_succ, ih, List.map_cons,
            List.map_cons, namesBefore_cons, amountsBefore_cons, Nat.add_assoc, Nat.add_assoc]

end Sums

section Members

variable (names : List Bytes) (sizes : List Int64) (matching : names.length = sizes.length)
include matching

theorem members_getElem? (i : Nat) (inside : i < names.length) :
    ∃ name size, names[i]? = some name ∧ sizes[i]? = some size ∧
      ((names.zip sizes).map measured)[i]? = some (name, size.toNatClampNeg) := by
  have name : names[i]? = some names[i] := List.getElem?_eq_getElem inside
  have size : sizes[i]? = some sizes[i] := List.getElem?_eq_getElem (by omega)
  have member : (names.zip sizes)[i]? = some (names[i], sizes[i]) :=
    List.getElem?_zip_eq_some.mpr ⟨name, size⟩
  exact ⟨_, _, name, size, by rw [List.getElem?_map, member]; rfl⟩

theorem members_names : ((names.zip sizes).map measured).map Prod.fst = names := by
  rw [List.map_map]
  exact List.map_fst_zip (by omega)

theorem members_sizes :
    ((names.zip sizes).map measured).map Prod.snd = sizes.map Int64.toNatClampNeg := by
  have all : (names.zip sizes).map Prod.snd = sizes := List.map_snd_zip (by omega)
  conv => rhs; rw [← all]
  rw [List.map_map, List.map_map]
  rfl

end Members

theorem fieldsFit_members_iff (names : List Bytes) (sizes : List Int64)
    (matching : names.length = sizes.length) (nonnegative : ∀ size ∈ sizes, 0 ≤ size.toInt) :
    FieldsFit 0 0 ((names.zip sizes).map measured) ↔
      (∀ size ∈ sizes, size.toInt ≤ maxField) ∧
      ∀ i < names.length, namesBefore names i ≤ maxField ∧ sizesBefore sizes i ≤ maxField := by
  have sums := amountsBefore_sizes sizes nonnegative
  simp only [fieldsFit_iff, members_names names sizes matching, members_sizes names sizes matching,
    Nat.zero_add]
  constructor
  · intro fit
    constructor
    · intro size inside
      obtain ⟨i, bound, found⟩ := List.mem_iff_getElem.mp inside
      obtain ⟨name, same, _, here, member⟩ := members_getElem? names sizes matching i (by omega)
      have fits := (fit i _ member).2.2
      rw [List.getElem?_eq_getElem bound, found] at here
      cases here
      simp only [Int64.toNatClampNeg] at fits
      omega
    · intro i inside
      obtain ⟨name, size, _, _, member⟩ := members_getElem? names sizes matching i inside
      obtain ⟨nameOffsetFits, offsetFits, _⟩ := fit i _ member
      have sum := sums i
      exact ⟨nameOffsetFits, by omega⟩
  · rintro ⟨amounts, offsets⟩ i member found
    have inside : i < names.length := by
      have bound := (List.getElem?_eq_some_iff.mp found).1
      rw [List.length_map, List.length_zip] at bound
      omega
    obtain ⟨name, size, _, here, shape⟩ := members_getElem? names sizes matching i inside
    rw [found] at shape
    cases shape
    have amount := amounts size (List.mem_of_getElem? here)
    have sum := sums i
    obtain ⟨nameOffsetFits, offsetFits⟩ := offsets i inside
    refine ⟨nameOffsetFits, by omega, ?_⟩
    simp only [Int64.toNatClampNeg]
    omega

theorem planned_names (names : List Bytes) (sizes : List Int64) (matching : names.length = sizes.length) :
    (planned names sizes).map Entry.name = names := by
  rw [planned, consecutive_names, members_names names sizes matching]

theorem encodeNames_planned (names : List Bytes) (sizes : List Int64)
    (matching : names.length = sizes.length) :
    encodeNames (planned names sizes) = names.flatMap PackedString.encode := by
  conv => rhs; rw [← planned_names names sizes matching]
  rw [encodeNames, List.flatMap_map]

theorem layout_of_representable (names : List Bytes) (sizes : List Int64)
    (representable : Representable names sizes) : ∃ directory, layout names sizes = .ok directory := by
  have matching := representable.matching
  have nonnegative size (inside : size ∈ sizes) := (representable.amounts size inside).1
  have fit := (fieldsFit_members_iff names sizes matching nonnegative).mpr
    ⟨fun size inside => (representable.amounts size inside).2, representable.offsets⟩
  have block := representable.block
  rw [← encodeNames_planned names sizes matching] at block
  have short : ∀ member ∈ names.zip sizes, member.1.length ≤ maxField := by
    intro member inside
    refine Nat.le_trans (name_length_le (planned names sizes) member.1 ?_) block
    rw [planned_names names sizes matching]
    exact (List.of_mem_zip inside).1
  have placing : placeAfter [] 0 0 (names.zip sizes) = .ok (planned names sizes) := by
    rw [placeAfter_eq_ok_iff _ _ _ _ _ short]
    refine ⟨?_, fit, rfl⟩
    intro member inside
    rw [Int64.le_iff_toInt_le]
    exact nonnegative _ (List.of_mem_zip inside).2
  have writing : encode { header := .standard, entries := planned names sizes, dataStart := 0 } =
      .ok _ := if_neg (by have table := representable.table; simp only; omega)
  exact ⟨_, (layout_eq_ok_iff names sizes _).mpr ⟨matching, _, _, placing, writing, rfl⟩⟩

theorem representable_of_layout (names : List Bytes) (sizes : List Int64) (directory : Directory)
    (accepted : layout names sizes = .ok directory) : Representable names sizes := by
  obtain ⟨matching, encoded, laid⟩ := layout_eq_ok names sizes directory accepted
  have nonnegative : ∀ size ∈ sizes, 0 ≤ size.toInt := by
    intro size inside
    exact Int64.le_iff_toInt_le.mp (layout_sizes_nonnegative names sizes directory accepted size inside)
  obtain ⟨amounts, offsets⟩ := (fieldsFit_members_iff names sizes matching nonnegative).mp laid.fields
  obtain ⟨table, block, _⟩ := encode_eq_ok directory encoded laid.written
  rw [laid.entries] at table block
  refine ⟨matching, fun size inside => ⟨nonnegative size inside, amounts size inside⟩, offsets, table, ?_⟩
  rw [← encodeNames_planned names sizes matching]
  exact block

/-- Lists of different lengths apart, whatever cannot be laid out is too large. -/
theorem placeAfter_error_kind (placed : List Entry) (nameOffset offset : UInt64)
    (members : List (Bytes × Int64)) (error : LayoutError)
    (refused : placeAfter placed nameOffset offset members = .error error) :
    (Failure.layout error).kind = .tooLarge := by
  induction members generalizing placed nameOffset offset with
  | nil => cases refused
  | cons member members ih =>
      rw [placeAfter] at refused
      split at refused
      · cases refused
        rfl
      · split at refused
        · cases refused
          rfl
        · exact ih _ _ _ refused

theorem encode_error_kind (directory : Directory) (error : LayoutError)
    (refused : directory.encode = .error error) : (Failure.layout error).kind = .tooLarge := by
  rw [encode] at refused
  split at refused
  · cases refused
    rfl
  · cases refused

theorem layout_error_kind (names : List Bytes) (sizes : List Int64) (error : LayoutError)
    (refused : layout names sizes = .error error) :
    (Failure.layout error).kind = if names.length = sizes.length then .tooLarge else .other := by
  rw [layout] at refused
  split at refused
  · rename_i differing
    cases refused
    rw [if_neg differing]
    rfl
  · rename_i matching
    rw [if_pos (Decidable.not_not.mp matching)]
    cases placing : placeAfter [] 0 0 (names.zip sizes) with
    | error other =>
        simp only [placing, bind, Except.bind, Except.error.injEq] at refused
        rw [← refused]
        exact placeAfter_error_kind _ _ _ _ _ placing
    | ok entries =>
        cases writing : encode { header := .standard, entries, dataStart := 0 } with
        | error other =>
            simp only [placing, writing, bind, Except.bind, Except.error.injEq] at refused
            rw [← refused]
            exact encode_error_kind _ _ writing
        | ok encoded => simp [placing, writing, bind, Except.bind, pure, Except.pure] at refused

def Covers (directory : Directory) (i : Nat) (position : Int) : Prop :=
  ∃ entry, directory.entries[i]? = some entry ∧
    (directory.start entry).toInt ≤ position ∧ position < directory.ending entry

/-- The payloads stand one behind the other, from the end of the directory to the total of their sizes, and
every position there belongs to just one of them. -/
structure Tiles (directory : Directory) : Prop where
  first : ∀ entry, directory.entries.head? = some entry →
    (directory.start entry).toInt = directory.dataStart.toInt
  next : ∀ i entry following, directory.entries[i]? = some entry →
    directory.entries[i + 1]? = some following → (directory.start following).toInt = directory.ending entry
  last : ∀ entry, directory.entries.getLast? = some entry →
    directory.ending entry = directory.dataStart.toInt + directory.payloadSize.toNat
  covered : ∀ position, (∃ i, directory.Covers i position) ↔
    directory.dataStart.toInt ≤ position ∧
      position < directory.dataStart.toInt + directory.payloadSize.toNat
  disjoint : ∀ i j position, directory.Covers i position → directory.Covers j position → i = j

theorem payloadTotal_append (front back : List Entry) :
    payloadTotal (front ++ back) = payloadTotal front + payloadTotal back := by
  induction front with
  | nil => simp [payloadTotal]
  | cons entry front ih => rw [List.cons_append, payloadTotal_cons, payloadTotal_cons, ih, Nat.add_assoc]

theorem payloadTotal_take_succ (entries : List Entry) (i : Nat) (entry : Entry)
    (found : entries[i]? = some entry) :
    payloadTotal (entries.take (i + 1)) = payloadTotal (entries.take i) + entry.size.toNat := by
  rw [List.take_add_one, found, payloadTotal_append]
  rfl

theorem payloadTotal_take_le (entries : List Entry) (i j : Nat) (before : i ≤ j) :
    payloadTotal (entries.take i) ≤ payloadTotal (entries.take j) := by
  obtain ⟨more, rfl⟩ := Nat.exists_eq_add_of_le before
  rw [List.take_add, payloadTotal_append]
  omega

theorem payloadTotal_take_le_total (entries : List Entry) (i : Nat) :
    payloadTotal (entries.take i) ≤ payloadTotal entries := by
  have parts := payloadTotal_append (entries.take i) (entries.drop i)
  rw [List.take_append_drop] at parts
  omega

theorem payloadTotal_covered (entries : List Entry) (position : Nat)
    (inside : position < payloadTotal entries) :
    ∃ i entry, entries[i]? = some entry ∧ payloadTotal (entries.take i) ≤ position ∧
      position < payloadTotal (entries.take (i + 1)) := by
  induction entries generalizing position with
  | nil => exact absurd inside (Nat.not_lt_zero _)
  | cons entry entries ih =>
      rw [payloadTotal_cons] at inside
      by_cases here : position < entry.size.toNat
      · exact ⟨0, entry, rfl, Nat.zero_le _, here⟩
      · obtain ⟨i, other, found, least, most⟩ := ih (position - entry.size.toNat) (by omega)
        refine ⟨i + 1, other, found, ?_, ?_⟩
        · rw [List.take_succ_cons, payloadTotal_cons]
          omega
        · rw [List.take_succ_cons, payloadTotal_cons]
          omega

theorem Follows.offset_eq (offset : Nat) (entries : List Entry) (follows : Follows offset entries) (i : Nat)
    (entry : Entry) (found : entries[i]? = some entry) :
    entry.offset.toNat = offset + payloadTotal (entries.take i) := by
  induction entries generalizing offset i with
  | nil => simp at found
  | cons first entries ih =>
      obtain ⟨here, later⟩ := follows
      cases i with
      | zero =>
          cases found
          exact here
      | succ i =>
          rw [ih _ later i found, List.take_succ_cons, payloadTotal_cons, Nat.add_assoc]

section Following

variable (directory : Directory) (start : Nat)
variable (begins : directory.dataStart = Int64.ofNat start) (near : start + 0x200000000 ≤ 0x8000000000000000)
variable (follows : Follows 0 directory.entries)
include begins near follows

theorem bounds_of_follows (i : Nat) (entry : Entry) (found : directory.entries[i]? = some entry) :
    (directory.start entry).toInt = start + payloadTotal (directory.entries.take i) ∧
      directory.ending entry = start + payloadTotal (directory.entries.take (i + 1)) := by
  have offset := follows.offset_eq 0 _ i entry found
  have size := payloadTotal_take_succ _ i entry found
  rw [start_toInt directory start begins near, ending_eq directory start begins near]
  omega

theorem covers_iff (i : Nat) (position : Int) :
    directory.Covers i position ↔
      start + payloadTotal (directory.entries.take i) ≤ position ∧
        position < start + payloadTotal (directory.entries.take (i + 1)) := by
  constructor
  · rintro ⟨entry, found, inside⟩
    obtain ⟨begun, ended⟩ := bounds_of_follows directory start begins near follows i entry found
    rwa [begun, ended] at inside
  · intro inside
    cases found : directory.entries[i]? with
    | none =>
        -- Behind the last entry the total no longer grows, so there is nothing in between.
        have whole : directory.entries.take (i + 1) = directory.entries.take i := by
          rw [List.take_add_one, found]
          exact List.append_nil _
        rw [whole] at inside
        omega
    | some entry =>
        obtain ⟨begun, ended⟩ := bounds_of_follows directory start begins near follows i entry found
        refine ⟨entry, found, ?_⟩
        rwa [begun, ended]

theorem tiles_of_follows : Tiles directory := by
  have bounds := bounds_of_follows directory start begins near follows
  have covers := covers_iff directory start begins near follows
  have position := dataStart_toInt directory start begins near
  have total := payloadSize_toNat directory follows
  refine ⟨?_, ?_, ?_, ?_, ?_⟩
  · intro entry found
    rw [List.head?_eq_getElem?] at found
    have begun := (bounds 0 entry found).1
    rw [List.take_zero] at begun
    simp only [payloadTotal] at begun
    omega
  · intro i entry following found after
    rw [(bounds i entry found).2, (bounds (i + 1) following after).1]
  · intro entry found
    rw [List.getLast?_eq_getElem?] at found
    have ended := (bounds _ entry found).2
    rw [List.take_of_length_le (by omega)] at ended
    omega
  · intro point
    constructor
    · rintro ⟨i, covered⟩
      have inside := (covers i point).mp covered
      have within := payloadTotal_take_le_total directory.entries (i + 1)
      omega
    · rintro ⟨low, high⟩
      obtain ⟨i, entry, found, least, most⟩ :=
        payloadTotal_covered directory.entries (point - start).toNat (by omega)
      exact ⟨i, (covers i point).mpr (by omega)⟩
  · intro i j point left right
    have first := (covers i point).mp left
    have second := (covers j point).mp right
    rcases Nat.lt_trichotomy i j with before | same | behind
    · have apart := payloadTotal_take_le directory.entries (i + 1) j before
      omega
    · exact same
    · have apart := payloadTotal_take_le directory.entries (j + 1) i behind
      omega

theorem resolve_iff_of_follows (fileSize : Int64) :
    directory.resolve fileSize = .ok () ↔
      directory.entries = [] ∨
        directory.dataStart.toInt + directory.payloadSize.toNat ≤ fileSize.toInt := by
  have endings := ending_eq directory start begins near
  have position := dataStart_toInt directory start begins near
  obtain ⟨within, reached⟩ := Follows.reach 0 _ follows
  rw [resolve_eq_ok_iff_toInt directory start begins near, payloadSize_toNat directory follows, position]
  constructor
  · intro inside
    by_cases none : directory.entries = []
    · exact .inl none
    · obtain ⟨last, member, ends⟩ := reached none
      have bound := inside last member
      rw [endings] at bound
      exact .inr (by omega)
  · rintro (none | enough) entry member
    · simp [none] at member
    · have bound := within entry member
      rw [endings]
      omega

end Following

theorem layout_getElem? (names : List Bytes) (sizes : List Int64) (directory : Directory)
    (accepted : layout names sizes = .ok directory) (i : Nat) (inside : i < names.length) :
    ∃ entry size, directory.entries[i]? = some entry ∧ sizes[i]? = some size ∧
      names[i]? = some entry.name ∧ (entry.size.toNat : Int) = size.toInt ∧
      entry.nameOffset.toNat = namesBefore names i ∧ (entry.offset.toNat : Int) = sizesBefore sizes i := by
  obtain ⟨matching, encoded, laid⟩ := layout_eq_ok names sizes directory accepted
  have representable := representable_of_layout names sizes directory accepted
  have nonnegative size (inside : size ∈ sizes) := (representable.amounts size inside).1
  obtain ⟨name, size, named, sized, member⟩ := members_getElem? names sizes matching i inside
  have amount := representable.amounts size (List.mem_of_getElem? sized)
  have offsets := representable.offsets i inside
  have sum := amountsBefore_sizes sizes nonnegative i
  have entry := consecutive_getElem? 0 0 ((names.zip sizes).map measured) i
  rw [← laid.entries, member, members_names names sizes matching, members_sizes names sizes matching] at entry
  refine ⟨_, size, entry, sized, named, ?_⟩
  simp only [Int64.toNatClampNeg, Nat.toUInt32_eq, UInt32.toNat_ofNat', maxField] at *
  omega

/-- Just the representable layouts are accepted, and an accepted one tiles what lies behind its directory. Every
entry has its own name and size and the exact sums of those before it, the payloads begin where the written
directory ends, and the range check asks for the whole of them. -/
theorem layout_tiles_payload (names : List Bytes) (sizes : List Int64) :
    ((∃ directory, layout names sizes = .ok directory) ↔ Representable names sizes) ∧
    (∀ error, layout names sizes = .error error →
      (Failure.layout error).kind = if names.length = sizes.length then .tooLarge else .other) ∧
    ∀ directory, layout names sizes = .ok directory →
      directory.entries.length = names.length ∧
      (∀ i < names.length, ∃ entry size, directory.entries[i]? = some entry ∧ sizes[i]? = some size ∧
        names[i]? = some entry.name ∧ (entry.size.toNat : Int) = size.toInt ∧
        entry.nameOffset.toNat = namesBefore names i ∧ (entry.offset.toNat : Int) = sizesBefore sizes i) ∧
      (∃ encoded, directory.encode = .ok encoded ∧ directory.dataStart.toInt = encoded.length) ∧
      Tiles directory ∧
      ∀ fileSize, directory.resolve fileSize = .ok () ↔
        directory.entries = [] ∨
          directory.dataStart.toInt + directory.payloadSize.toNat ≤ fileSize.toInt := by
  refine ⟨⟨?_, layout_of_representable names sizes⟩, layout_error_kind names sizes, ?_⟩
  · rintro ⟨directory, accepted⟩
    exact representable_of_layout names sizes directory accepted
  · intro directory accepted
    obtain ⟨matching, encoded, laid⟩ := layout_eq_ok names sizes directory accepted
    have near := encoded_length_lt directory encoded laid.written
    have follows := laidOut_follows _ directory encoded laid
    have count : directory.entries.length = names.length := by
      have named := congrArg List.length (planned_names names sizes matching)
      rwa [List.length_map, planned, ← laid.entries] at named
    exact ⟨count, layout_getElem? names sizes directory accepted,
      ⟨encoded, laid.written, dataStart_toInt directory _ laid.dataStart (by omega)⟩,
      tiles_of_follows directory _ laid.dataStart (by omega) follows,
      resolve_iff_of_follows directory _ laid.dataStart (by omega) follows⟩

/-- The last of two members may end beyond 32 bits. -/
theorem layout_tiles_payload_past_32_bits :
    ∃ directory, layout [utf8 "a", utf8 "bc"] [3, 0xFFFFFFFF] = .ok directory ∧ Tiles directory ∧
      ∀ fileSize, directory.resolve fileSize = .ok () ↔ directory.entries = [] ∨
        directory.dataStart.toInt + directory.payloadSize.toNat ≤ fileSize.toInt := by
  obtain ⟨accepts, _, laidOut⟩ := layout_tiles_payload [utf8 "a", utf8 "bc"] [3, 0xFFFFFFFF]
  obtain ⟨directory, accepted⟩ :=
    accepts.mpr ⟨rfl, by simp [maxField], by decide, by decide +kernel, by decide +kernel⟩
  obtain ⟨_, _, _, tiles, resolved⟩ := laidOut directory accepted
  exact ⟨directory, accepted, tiles, resolved⟩

end IgaArchive.Directory

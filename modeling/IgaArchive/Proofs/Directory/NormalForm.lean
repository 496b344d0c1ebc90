import IgaArchive.Proofs.Directory.StrayZeros

/-!
The normal form of a directory. Many byte strings are read as one directory: numbers behind zero bytes,
characters of which only the low byte counts, a name block that no entry uses. Writing the directory again
gives one byte string for all of them, no longer than any, and it is read as the same directory.
-/

namespace IgaArchive.Header

theorem toList_fieldAt (n offset : Nat) (bytes : Bytes) (inside : offset + n ≤ bytes.length) :
    (fieldAt n bytes offset).toList = (bytes.drop offset).take n := by
  apply List.ext_getElem
  · simp
    omega
  · intro i below _
    have bound : offset + i < bytes.length := by
      rw [Vector.length_toList] at below
      omega
    simp [fieldAt, List.getElem?_eq_getElem bound]

theorem encode_ofBytes (bytes : Bytes) (enough : size ≤ bytes.length) :
    (ofBytes bytes).encode = bytes.take size := by
  rw [size] at *
  rw [encode, ofBytes, toList_fieldAt 4 0 bytes (by omega), toList_fieldAt 4 4 bytes (by omega),
    toList_fieldAt 8 8 bytes (by omega), List.drop_zero, ← List.take_add, ← List.take_add]

theorem read_eq_ok (bytes rest : Bytes) (header : Header) (finished : read bytes = (.ok header, rest)) :
    header.isValid = true ∧ bytes = header.encode ++ rest := by
  rw [read] at finished
  split at finished
  · cases finished
  · split at finished
    · cases finished
    · rename_i signature
      split at finished
      · cases finished
      · rename_i long
        cases finished
        have enough : size ≤ bytes.length := by
          rw [List.length_drop] at long
          rw [size]
          omega
        refine ⟨?_, ?_⟩
        · simpa [isValid, ofBytes] using signature
        · rw [encode_ofBytes bytes enough, List.drop_drop]
          exact (List.take_append_drop size bytes).symm

end IgaArchive.Header

namespace IgaArchive.Directory

theorem readBlock_eq_ok (bytes block rest : Bytes) (finished : readBlock bytes = .ok (block, rest)) :
    block.length ≤ maxField ∧ ∃ zeros, bytes = paddedBlock zeros block ++ rest := by
  rw [readBlock] at finished
  split at finished
  · cases finished
  · rename_i length behind read
    obtain ⟨zeros, rfl⟩ := (VarUint.read_eq_ok_iff bytes behind length).mp read
    rw [List.splitAt_eq] at finished
    simp only at finished
    split at finished
    · cases finished
    · rename_i whole
      cases finished
      have exactly : (behind.take length.toNat).length = length.toNat := by
        rw [List.length_take] at *
        omega
      have small : length.toNat < 4294967296 := length.toNat_lt
      refine ⟨by rw [exactly, maxField]; omega, zeros, ?_⟩
      rw [paddedBlock, exactly, Nat.toUInt32_eq, UInt32.ofNat_toNat, List.append_assoc,
        List.take_append_drop]

theorem readEntry_eq_ok (bytes rest : Bytes) (entry : Entry)
    (finished : readEntry bytes = (.ok entry, rest)) :
    ∃ numbers, numbers.map Prod.snd = entry.numbers ∧ bytes = VarUint.spell numbers ++ rest := by
  rw [readEntry] at finished
  split at finished
  · cases finished
  · rename_i nameOffset afterFirst first
    split at finished
    · cases finished
    · rename_i offset afterSecond second
      split at finished
      · cases finished
      · rename_i size afterThird third
        cases finished
        obtain ⟨before, rfl⟩ := (VarUint.read_eq_ok_iff _ _ _).mp first
        obtain ⟨between, rfl⟩ := (VarUint.read_eq_ok_iff _ _ _).mp second
        obtain ⟨last, rfl⟩ := (VarUint.read_eq_ok_iff _ _ _).mp third
        refine ⟨[(before, nameOffset), (between, offset), (last, size)], rfl, ?_⟩
        simp [VarUint.spell]

theorem readTableAfter_eq_ok (found : List Entry) (table : Bytes) (entries : List Entry)
    (finished : readTableAfter found table = .ok entries) :
    ∃ later numbers, entries = found.reverse ++ later ∧
      numbers.map Prod.snd = later.flatMap Entry.numbers ∧ table = VarUint.spell numbers := by
  induction length : table.length using Nat.strongRecOn generalizing found table with
  | ind n ih =>
      cases table with
      | nil =>
          rw [readTableAfter] at finished
          cases finished
          exact ⟨[], [], by simp, rfl, rfl⟩
      | cons head tail =>
          rw [readTableAfter_step _ _ (by simp)] at finished
          split at finished
          · rename_i entry rest first
            have shorter := readEntry_rest_length head tail
            simp only [first] at shorter
            obtain ⟨front, spelled, shape⟩ := readEntry_eq_ok _ _ _ first
            obtain ⟨later, numbers, rfl, others, rfl⟩ := ih rest.length (by omega) _ rest finished rfl
            refine ⟨entry :: later, front ++ numbers, by simp, ?_, ?_⟩
            · rw [List.map_append, spelled, others, List.flatMap_cons]
            · rw [shape, VarUint.spell_append]
          · cases finished

theorem readTable_eq_ok (table : Bytes) (entries : List Entry)
    (finished : readTable table = .ok entries) :
    ∃ numbers, numbers.map Prod.snd = entries.flatMap Entry.numbers ∧
      table = VarUint.spell numbers := by
  obtain ⟨later, numbers, rfl, spelled, shape⟩ := readTableAfter_eq_ok [] table entries finished
  exact ⟨numbers, by simpa using spelled, shape⟩

/-- Names that were read fill the steps between their offsets, and are made of the characters of the whole
block; only where there are no entries the block is not looked at. -/
theorem readNamesAfter_eq_ok (named entries : List Entry) (names : Bytes) (result : List Entry)
    (finished : readNamesAfter named entries names = (result, none)) :
    ∃ later, result = named.reverse ++ later ∧ later.map unnamed = entries.map unnamed ∧
      StepsMatchNames later ∧
      (entries ≠ [] → ∃ numbers, names = VarUint.spell numbers ∧
        PackedString.letters numbers = later.flatMap Entry.name) := by
  fun_induction readNamesAfter named entries names with
  | case1 named names =>
      cases finished
      refine ⟨[], by simp, rfl, ?_, fun some => absurd rfl some⟩
      intro i inside
      cases inside
  | case2 named entry names name rest read =>
      cases finished
      obtain ⟨numbers, rfl, rfl⟩ := PackedString.readAll_eq_ok _ _ _ read
      exact ⟨[{ entry with name := PackedString.letters numbers }], by simp, rfl,
        stepsMatchNames_single _, fun _ => ⟨numbers, rfl, by simp⟩⟩
  | case3 => cases finished
  | case4 => cases finished
  | case5 named entry next entries names length accepted name rest read ih =>
      obtain ⟨later, rfl, same, steps, text⟩ := ih finished
      obtain ⟨numbers, count, rfl, rfl⟩ := PackedString.readExactly_eq_ok _ _ _ _ read
      obtain ⟨behind, rfl, letters⟩ := text (by simp)
      rw [List.map_cons, List.map_eq_cons_iff] at same
      obtain ⟨other, others, rfl, sameNext, sameOthers⟩ := same
      have offset : other.nameOffset = next.nameOffset := by
        simpa [unnamed] using congrArg Entry.nameOffset sameNext
      refine ⟨{ entry with name := PackedString.letters numbers } :: other :: others, by simp, ?_, ?_, ?_⟩
      · rw [List.map_cons, List.map_cons, List.map_cons, List.map_cons, sameNext, sameOthers]
        rfl
      · refine (stepsMatchNames_cons _ _ _).mpr ⟨?_, steps⟩
        simp only [offset, PackedString.letters, List.length_map, count]
        omega
      · intro _
        refine ⟨numbers ++ behind, (VarUint.spell_append _ _).symm, ?_⟩
        rw [PackedString.letters] at letters
        rw [PackedString.letters, List.map_append, letters]
        rfl
  | case6 => cases finished

theorem readNames_eq_ok (listed entries : List Entry) (names : Bytes)
    (finished : readNames listed names = (entries, none)) :
    entries.map unnamed = listed.map unnamed ∧ StepsMatchNames entries ∧
      (listed ≠ [] → ∃ numbers, names = VarUint.spell numbers ∧
        PackedString.letters numbers = entries.flatMap Entry.name) := by
  obtain ⟨later, shape, same, steps, text⟩ := readNamesAfter_eq_ok [] listed names entries finished
  rw [List.reverse_nil, List.nil_append] at shape
  rw [shape]
  exact ⟨same, steps, text⟩

theorem encodeNames_length_le (listed entries : List Entry) (names : Bytes)
    (finished : readNames listed names = (entries, none)) :
    (encodeNames entries).length ≤ names.length := by
  obtain ⟨same, _, text⟩ := readNames_eq_ok listed entries names finished
  by_cases none : listed = []
  · rw [none, List.map_nil, List.map_eq_nil_iff] at same
    simp [same, encodeNames]
  · obtain ⟨numbers, rfl, letters⟩ := text none
    have whole : encodeNames entries = PackedString.encode (entries.flatMap Entry.name) :=
      List.flatMap_assoc.symm
    rw [whole, ← letters]
    exact PackedString.encode_letters_length_le numbers

theorem numbers_unnamed (entry : Entry) : (unnamed entry).numbers = entry.numbers := rfl

theorem encodeTable_eq (entries : List Entry) :
    encodeTable entries = ((entries.map unnamed).flatMap Entry.numbers).flatMap VarUint.encode := by
  induction entries with
  | nil => rfl
  | cons entry entries ih =>
      rw [encodeTable, List.flatMap_cons, List.map_cons, List.flatMap_cons, List.flatMap_append, ← ih,
        numbers_unnamed]
      simp [encodeEntry, Entry.numbers, encodeTable]

theorem encodeBlock_length_le (zeros : Nat) (small block : Bytes) (shorter : small.length ≤ block.length)
    (fits : block.length ≤ maxField) :
    (encodeBlock small).length ≤ (paddedBlock zeros block).length := by
  have lengths := VarUint.encode_length_mono small.length.toUInt32 block.length.toUInt32 (by
    simp [maxField] at *
    omega)
  rw [encodeBlock, paddedBlock, List.length_append, List.length_append, VarUint.padded_length]
  omega

/-- The parts that a directory was read from, and where its payloads start. -/
structure ReadFrom (directory : Directory) (front table names : Bytes) (listed : List Entry) : Prop where
  valid : directory.header.isValid = true
  shape : ∃ tableZeros namesZeros, front = directory.header.encode ++ paddedBlock tableZeros table ++
    paddedBlock namesZeros names
  tableFits : table.length ≤ maxField
  namesFit : names.length ≤ maxField
  table : readTable table = .ok listed
  names : readNames listed names = (directory.entries, none)
  dataStart : directory.dataStart = Int64.ofNat front.length

theorem read_eq_ok (bytes : Bytes) (directory : Directory) (accepted : read bytes = .ok directory) :
    ∃ front rest table names listed, bytes = front ++ rest ∧
      ReadFrom directory front table names listed := by
  cases first : Header.read bytes with
  | mk result behind =>
      cases result with
      | error error =>
          simp only [read, first] at accepted
          cases accepted
      | ok header =>
          rw [read_of_header bytes behind header first] at accepted
          obtain ⟨valid, rfl⟩ := Header.read_eq_ok bytes behind header first
          obtain ⟨⟨table, names, rest⟩, blocks, assembled⟩ := Result.bind_eq_ok accepted
          obtain ⟨⟨_, between⟩, tableRead, others⟩ := Result.bind_eq_ok blocks
          obtain ⟨⟨_, _⟩, namesRead, same⟩ := Result.bind_eq_ok others
          cases same
          obtain ⟨tableFits, tableZeros, rfl⟩ :=
            readBlock_eq_ok _ _ _ (Result.mapError_eq_ok.mp tableRead)
          obtain ⟨namesFit, namesZeros, rfl⟩ :=
            readBlock_eq_ok _ _ _ (Result.mapError_eq_ok.mp namesRead)
          have start := assemble_dataStart _ _ _ _ _ assembled
          obtain ⟨listed, entries, naming⟩ := Result.bind_eq_ok assembled
          split at naming
          · cases naming
          · rename_i filled named
            cases naming
            refine ⟨header.encode ++ paddedBlock tableZeros table ++ paddedBlock namesZeros names, rest,
              table, names, listed, by simp only [List.append_assoc], valid, ⟨tableZeros, namesZeros, rfl⟩,
              tableFits, namesFit, Result.mapError_eq_ok.mp entries, named, ?_⟩
            rw [start]
            congr 1
            simp only [List.length_append]
            omega

theorem ReadFrom.encode {directory : Directory} {front table names : Bytes} {listed : List Entry}
    (source : ReadFrom directory front table names listed) :
    StepsMatchNames directory.entries ∧
      ∃ encoded, directory.encode = .ok encoded ∧ encoded.length ≤ front.length := by
  obtain ⟨numbers, spelled, tableShape⟩ := readTable_eq_ok table listed source.table
  have namesRoom := encodeNames_length_le listed directory.entries names source.names
  obtain ⟨unnamedSame, steps, _⟩ := readNames_eq_ok listed _ names source.names
  obtain ⟨tableZeros, namesZeros, shape⟩ := source.shape
  have tableRoom : (encodeTable directory.entries).length ≤ table.length := by
    have listedNumbers : (listed.map unnamed).flatMap Entry.numbers = listed.flatMap Entry.numbers := by
      rw [List.flatMap_map]
      rfl
    rw [encodeTable_eq, unnamedSame, listedNumbers, ← spelled, tableShape]
    exact VarUint.flatMap_encode_length_le numbers
  have tableFits := source.tableFits
  have namesFit := source.namesFit
  refine ⟨steps, _, if_neg (by omega), ?_⟩
  have tableBlock := encodeBlock_length_le tableZeros _ table tableRoom tableFits
  have namesBlock := encodeBlock_length_le namesZeros _ names namesRoom namesFit
  rw [shape]
  simp only [List.length_append]
  omega

/-- Writing a directory that was read gives its normal form: no longer than the bytes up to its payloads, read
as the same header and entries, and written as itself again. -/
theorem encode_is_normal_form (bytes : Bytes) (directory : Directory)
    (short : bytes.length < 0x4000000000000000) (accepted : read bytes = .ok directory) :
    ∃ encoded again, directory.encode = .ok encoded ∧
      (encoded.length : Int) ≤ directory.dataStart.toInt ∧
      read encoded = .ok again ∧ again.header = directory.header ∧
      again.entries = directory.entries ∧ again.dataStart.toInt = encoded.length ∧
      again.encode = .ok encoded := by
  obtain ⟨front, rest, table, names, listed, rfl, source⟩ := read_eq_ok bytes directory accepted
  obtain ⟨steps, encoded, written, room⟩ := source.encode
  have reading := (read_append_encode directory encoded source.valid written []).mpr steps
  rw [List.append_nil] at reading
  rw [List.length_append] at short
  refine ⟨encoded, _, written, ?_, reading, rfl, rfl, toInt_encoded_length directory encoded written,
    written⟩
  rw [source.dataStart, Int64.toInt_ofNat_of_lt (by omega)]
  omega

/-- The directory of `twoByteContainer` with zero bytes before a length and a number, and its name spelled
by the number `0x161`. -/
def paddedTwoByte : Bytes :=
  [0x49, 0x47, 0x41, 0x30, 0, 0, 0, 0, 2, 0, 0, 0, 2, 0, 0, 0, 0, 9, 1, 0, 1, 5, 5, 4, 195]

def namesWithoutEntries : Bytes :=
  [0x49, 0x47, 0x41, 0x30, 7, 7, 7, 7, 2, 0, 0, 0, 2, 0, 0, 0, 1, 5, 0xAA, 0xBC]

theorem encode_is_normal_form_padded :
    (∃ directory again, read paddedTwoByte = .ok directory ∧ directory.dataStart.toInt = 25 ∧
      directory.encode = .ok (twoByteContainer.take 22) ∧ read (twoByteContainer.take 22) = .ok again ∧
      again.entries = directory.entries ∧ again.encode = .ok (twoByteContainer.take 22)) ∧
    ∃ directory again, read namesWithoutEntries = .ok directory ∧ directory.dataStart.toInt = 20 ∧
      directory.encode = .ok (namesWithoutEntries.take 16 ++ [1, 1]) ∧
      read (namesWithoutEntries.take 16 ++ [1, 1]) = .ok again ∧
      again.header = directory.header ∧ again.entries = [] := by
  have sprawling : read paddedTwoByte = .ok { twoByteDirectory with dataStart := 25 } :=
    Result.eq_ok_of_toOption (by decide +kernel)
  have unused : read namesWithoutEntries =
      .ok { header := .ofBytes namesWithoutEntries, entries := [], dataStart := 20 } :=
    Result.eq_ok_of_toOption (by decide +kernel)
  have written : encode { twoByteDirectory with dataStart := 25 } = .ok (twoByteContainer.take 22) :=
    Result.eq_ok_of_toOption (by decide +kernel)
  have bare : encode { header := .ofBytes namesWithoutEntries, entries := [], dataStart := 20 } =
      .ok (namesWithoutEntries.take 16 ++ [1, 1]) :=
    Result.eq_ok_of_toOption (by decide +kernel)
  constructor
  · obtain ⟨encoded, again, encoding, _, reading, _, entries, _, same⟩ :=
      encode_is_normal_form paddedTwoByte _ (by decide) sprawling
    cases written.symm.trans encoding
    exact ⟨_, again, sprawling, by decide, written, reading, entries, same⟩
  · obtain ⟨encoded, again, encoding, _, reading, header, entries, _⟩ :=
      encode_is_normal_form namesWithoutEntries _ (by decide) unused
    cases bare.symm.trans encoding
    exact ⟨_, again, unused, by decide, bare, reading, header, entries⟩

end IgaArchive.Directory

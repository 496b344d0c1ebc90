import IgaArchive.Proofs.Directory.Finality
import IgaArchive.Proofs.Directory.RoundTrip
import IgaArchive.Proofs.Spelling

/-!
Directories with stray zero bytes. Some writers put zero bytes in front of numbers of the entry table, of
characters of the names, or of the length of a block. Name offsets count characters and not bytes, so the
entries are read as they would be without the zeros; only the payloads start later.
-/

namespace IgaArchive.Entry

def numbers (entry : Entry) : List UInt32 :=
  [entry.nameOffset, entry.offset, entry.size]

def characters (entry : Entry) : List UInt32 :=
  entry.name.map UInt8.toUInt32

end IgaArchive.Entry

namespace IgaArchive.Directory

/-- A block whose length stands behind a count of zero bytes. -/
def paddedBlock (zeros : Nat) (block : Bytes) : Bytes :=
  VarUint.padded zeros block.length.toUInt32 ++ block

theorem readBlock_paddedBlock (zeros : Nat) (block rest : Bytes) (fits : block.length ≤ maxField) :
    readBlock (paddedBlock zeros block ++ rest) = .ok (block, rest) := by
  have length : block.length.toUInt32.toNat = block.length := by
    simp [maxField] at *
    omega
  rw [paddedBlock, List.append_assoc, readBlock, VarUint.read_padded]
  simp [length, List.splitAt_eq]

theorem readEntry_padded (first second third : Nat) (entry : Entry) (rest : Bytes) :
    readEntry (VarUint.padded first entry.nameOffset ++ (VarUint.padded second entry.offset ++
        (VarUint.padded third entry.size ++ rest))) = (.ok (unnamed entry), rest) := by
  simp only [readEntry, VarUint.read_padded]
  rfl

theorem readTableAfter_spell (found entries : List Entry) (table : List (Nat × UInt32))
    (spelled : table.map Prod.snd = entries.flatMap Entry.numbers) :
    readTableAfter found (VarUint.spell table) = .ok (found.reverse ++ entries.map unnamed) := by
  induction entries generalizing found table with
  | nil =>
      have none : table = [] := by simpa using spelled
      simp [none, VarUint.spell, readTableAfter]
  | cons entry entries ih =>
      rw [List.flatMap_cons, Entry.numbers, List.cons_append, List.map_eq_cons_iff] at spelled
      obtain ⟨first, afterFirst, rfl, nameOffset, later⟩ := spelled
      rw [List.cons_append, List.map_eq_cons_iff] at later
      obtain ⟨second, afterSecond, rfl, offset, later⟩ := later
      rw [List.cons_append, List.map_eq_cons_iff] at later
      obtain ⟨third, rest, rfl, size, later⟩ := later
      rw [VarUint.spell_cons, VarUint.spell_cons, VarUint.spell_cons, nameOffset, offset, size,
        readTableAfter_step _ _ (by simp [VarUint.padded_ne_nil]), readEntry_padded]
      simp [ih _ _ later]

theorem readTable_spell (entries : List Entry) (table : List (Nat × UInt32))
    (spelled : table.map Prod.snd = entries.flatMap Entry.numbers) :
    readTable (VarUint.spell table) = .ok (entries.map unnamed) := by
  simp [readTable, readTableAfter_spell [] entries table spelled]

/-- Names are found by counting characters, each of which takes at least one byte; so the bytes left are
never too few for the step to the next name. -/
theorem readNamesAfter_spell (named listed entries : List Entry) (block : List (Nat × UInt32))
    (same : entries.map unnamed = listed.map unnamed) (steps : StepsMatchNames entries)
    (spelled : PackedString.letters block = entries.flatMap Entry.name) :
    readNamesAfter named listed (VarUint.spell block) = (named.reverse ++ entries, none) := by
  induction entries generalizing named listed block with
  | nil =>
      have none : listed = [] := by simpa using same.symm
      simp [none, readNamesAfter]
  | cons entry entries ih =>
      rw [List.map_cons, eq_comm, List.map_eq_cons_iff] at same
      obtain ⟨found, others, rfl, foundSame, others_same⟩ := same
      have filled : { found with name := entry.name } = entry :=
        congrArg (fun bare : Entry => { bare with name := entry.name }) foundSame
      cases entries with
      | nil =>
          have none : others = [] := by simpa using others_same
          have text : PackedString.letters block = entry.name := by simpa using spelled
          simp [none, readNamesAfter, PackedString.readAll_spell, text, filled]
      | cons next entries =>
          obtain ⟨step, later⟩ := (stepsMatchNames_cons _ _ _).mp steps
          obtain ⟨front, back, rfl, text, others_text⟩ := List.map_eq_append_iff.mp spelled
          have count : front.length = entry.name.length := by
            rw [← text, List.length_map]
          have room := VarUint.length_le_spell front
          have rest := ih (entry :: named) others back others_same.symm later others_text
          rw [List.map_cons, List.map_eq_cons_iff] at others_same
          obtain ⟨after, beyond, rfl, afterSame, _⟩ := others_same
          have here : found.nameOffset = entry.nameOffset := by
            simpa [unnamed] using congrArg Entry.nameOffset foundSame
          have there : after.nameOffset = next.nameOffset := by
            simpa [unnamed] using congrArg Entry.nameOffset afterSame
          rw [VarUint.spell_append, readNamesAfter]
          simp only [here, there, step, Int.toNat_natCast, List.length_append]
          rw [if_neg (by omega), ← count, PackedString.readExactly_spell, PackedString.letters, text]
          simp only [← here, filled]
          simpa using rest

theorem read_paddedBlocks (header : Header) (valid : header.isValid = true)
    (tableZeros namesZeros : Nat) (table names rest : Bytes) (tableFits : table.length ≤ maxField)
    (namesFit : names.length ≤ maxField) :
    read (header.encode ++ paddedBlock tableZeros table ++ paddedBlock namesZeros names ++ rest) =
      assemble header table names
        (header.encode ++ paddedBlock tableZeros table ++ paddedBlock namesZeros names).length := by
  have blocks : readBlocks (paddedBlock tableZeros table ++ (paddedBlock namesZeros names ++ rest)) =
      .ok (table, names, rest) := by
    simp only [readBlocks, readBlock_paddedBlock _ _ _ tableFits, readBlock_paddedBlock _ _ _ namesFit,
      Result.mapError_ok, bind, Except.bind]
    rfl
  have position : (header.encode ++ paddedBlock tableZeros table ++ paddedBlock namesZeros names ++
      rest).length - rest.length =
      (header.encode ++ paddedBlock tableZeros table ++ paddedBlock namesZeros names).length := by
    simp only [List.length_append]
    omega
  rw [read_of_header _ _ header (by rw [List.append_assoc, List.append_assoc, Header.read_encode _ valid]),
    blocks]
  simp only [Except.bind, position]

theorem assemble_spell (members : List (Bytes × Nat)) (directory : Directory) (encoded : Bytes)
    (laid : LaidOut members directory encoded) (table block : List (Nat × UInt32))
    (tableSpelled : table.map Prod.snd = directory.entries.flatMap Entry.numbers)
    (blockSpelled : block.map Prod.snd = directory.entries.flatMap Entry.characters) (position : Nat) :
    assemble directory.header (VarUint.spell table) (VarUint.spell block) position =
      .ok { directory with dataStart := Int64.ofNat position } := by
  have steps := laidOut_stepsMatchNames members directory encoded laid
  have text : PackedString.letters block = directory.entries.flatMap Entry.name := by
    apply PackedString.letters_of_text
    rw [blockSpelled, List.map_flatMap]
    rfl
  have named := readNamesAfter_spell [] (directory.entries.map unnamed) directory.entries block
    (by simp [unnamed]) steps text
  simp only [assemble, readTable_spell _ _ tableSpelled, readNames, named, Result.mapError_ok, bind,
    Except.bind, List.reverse_nil, List.nil_append]

/-- Stray zero bytes are harmless. Whatever the counts of zero bytes before the numbers of the table, the
characters of the names and the lengths of both blocks, a directory that was laid out is read with the same
header and the same entries, and its payloads start behind the last of the bytes. -/
theorem read_ignores_stray_zeros (names : List Bytes) (sizes : List Int64) (directory : Directory)
    (accepted : layout names sizes = .ok directory) (table block : List (Nat × UInt32))
    (tableSpelled : table.map Prod.snd = directory.entries.flatMap Entry.numbers)
    (blockSpelled : block.map Prod.snd = directory.entries.flatMap Entry.characters)
    (tableFits : (VarUint.spell table).length ≤ maxField)
    (blockFits : (VarUint.spell block).length ≤ maxField) (tableZeros blockZeros : Nat)
    (strayed payload : Bytes)
    (shape : strayed = directory.header.encode ++ paddedBlock tableZeros (VarUint.spell table) ++
      paddedBlock blockZeros (VarUint.spell block)) :
    ∃ found, read (strayed ++ payload) = .ok found ∧ found.header = directory.header ∧
      found.entries = directory.entries ∧ found.dataStart = Int64.ofNat strayed.length ∧
      (strayed.length < 0x8000000000000000 → found.dataStart.toInt = strayed.length) := by
  obtain ⟨_, encoded, laid⟩ := layout_eq_ok names sizes directory accepted
  have valid : directory.header.isValid = true := by
    rw [laid.header]
    decide
  refine ⟨{ directory with dataStart := Int64.ofNat strayed.length }, ?_, rfl, rfl, rfl, ?_⟩
  · rw [shape, read_paddedBlocks _ valid _ _ _ _ _ tableFits blockFits,
      assemble_spell _ directory encoded laid table block tableSpelled blockSpelled]
  · exact fun short => Int64.toInt_ofNat_of_lt short

def scriptAndAccented : Directory where
  header := .standard
  entries := [⟨0, [0x62, 0x2E, 0x73], 0, 300⟩, ⟨3, [0xE9], 300, 0⟩]
  dataStart := 31

/-- Zeros within both entries, before the letters of the first name, before the first byte of the two-byte
character, and before both lengths: ten bytes more than the directory has by itself. -/
theorem read_ignores_stray_zeros_everywhere :
    ∃ found, read ([0x49, 0x47, 0x41, 0x30, 0, 0, 0, 0, 2, 0, 0, 0, 2, 0, 0, 0] ++
        [0, 23, 1, 0, 1, 4, 89, 0, 0, 7, 4, 89, 1] ++ [0, 0, 19, 0, 197, 93, 0, 231, 0, 0, 2, 211] ++
          List.replicate 300 0) = .ok found ∧
      found.header = scriptAndAccented.header ∧ found.entries = scriptAndAccented.entries ∧
      found.dataStart.toInt = 41 := by
  have accepted : layout [[0x62, 0x2E, 0x73], [0xE9]] [300, 0] = .ok scriptAndAccented :=
    Result.eq_ok_of_toOption (by decide +kernel)
  obtain ⟨found, read, header, entries, _, start⟩ := read_ignores_stray_zeros _ _ scriptAndAccented accepted
    [(0, 0), (1, 0), (0, 300), (2, 3), (0, 300), (0, 0)] [(1, 0x62), (0, 0x2E), (1, 0x73), (2, 0xE9)]
    (by decide) (by decide) (by decide +kernel) (by decide +kernel) 1 2 _ (List.replicate 300 0) rfl
  have bytes : scriptAndAccented.header.encode ++
      paddedBlock 1 (VarUint.spell [(0, 0), (1, 0), (0, 300), (2, 3), (0, 300), (0, 0)]) ++
      paddedBlock 2 (VarUint.spell [(1, 0x62), (0, 0x2E), (1, 0x73), (2, 0xE9)]) =
      [0x49, 0x47, 0x41, 0x30, 0, 0, 0, 0, 2, 0, 0, 0, 2, 0, 0, 0] ++
        [0, 23, 1, 0, 1, 4, 89, 0, 0, 7, 4, 89, 1] ++
        [0, 0, 19, 0, 197, 93, 0, 231, 0, 0, 2, 211] := by
    decide +kernel
  rw [bytes] at read start
  exact ⟨found, read, header, entries, start (by decide)⟩

end IgaArchive.Directory

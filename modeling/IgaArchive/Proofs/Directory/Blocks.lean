import IgaArchive.Directory.Decode
import IgaArchive.Directory.Encode
import IgaArchive.Proofs.VarUint

/-!
The parts of a directory read back: header, blocks, entry table and name block. The table carries no
names and the name block no boundaries, so names come back right exactly when the steps between name
offsets are the lengths of the names.
-/

namespace IgaArchive.Header

theorem encode_length (header : Header) : header.encode.length = size := by
  simp [encode, size]

theorem fieldAt_eq (n : Nat) (before after : Bytes) (field : Vector UInt8 n) :
    fieldAt n (before ++ (field.toList ++ after)) before.length = field := by
  apply Vector.ext
  intro i inside
  have bound : i < field.toList.length := by simpa using inside
  rw [fieldAt, Vector.getElem_ofFn, List.getD_eq_getElem?_getD,
    List.getElem?_append_right (by omega), Nat.add_sub_cancel_left,
    List.getElem?_append_left bound]
  simp [inside]

theorem ofBytes_encode (header : Header) (rest : Bytes) :
    ofBytes (header.encode ++ rest) = header := by
  have first := fieldAt_eq 4 [] (header.unknown.toList ++ (header.padding.toList ++ rest))
    header.signature
  have second := fieldAt_eq 4 header.signature.toList (header.padding.toList ++ rest) header.unknown
  have third := fieldAt_eq 8 (header.signature.toList ++ header.unknown.toList) rest header.padding
  simp only [Vector.length_toList, List.length_append, List.length_nil, List.nil_append,
    List.append_assoc] at first second third
  simp only [ofBytes, encode, List.append_assoc, first, second, third]

theorem read_encode (header : Header) (valid : header.isValid = true) (rest : Bytes) :
    read (header.encode ++ rest) = (.ok header, rest) := by
  have signature : fieldAt 4 (header.encode ++ rest) 0 = header.signature := by
    exact congrArg Header.signature (ofBytes_encode header rest)
  have length := encode_length header
  have matching : header.signature = magic := by simpa [isValid] using valid
  rw [size] at length
  have behind : ((header.encode ++ rest).drop 4).drop 12 = rest := by
    rw [List.drop_drop]
    exact List.drop_left' length
  have long : ¬ (header.encode ++ rest).length < 4 := by
    rw [List.length_append, length]
    omega
  have longer : ¬ ((header.encode ++ rest).drop 4).length < 12 := by
    rw [List.length_drop, List.length_append, length]
    omega
  simp only [read, if_neg long, if_neg longer, signature, matching, ne_eq, not_true_eq_false,
    if_false, behind, ofBytes_encode]

end IgaArchive.Header

namespace IgaArchive.Directory

def unnamed (entry : Entry) : Entry :=
  { entry with name := [] }

/-- Every name but the last is as long as the step to the next name offset. -/
def StepsMatchNames (entries : List Entry) : Prop :=
  ∀ i, (inside : i + 1 < entries.length) →
    (entries[i + 1].nameOffset.toNat : Int) - entries[i].nameOffset.toNat = entries[i].name.length

theorem stepsMatchNames_single (entry : Entry) : StepsMatchNames [entry] := by
  intro i inside
  simp at inside

theorem stepsMatchNames_cons (entry next : Entry) (entries : List Entry) :
    StepsMatchNames (entry :: next :: entries) ↔
      (next.nameOffset.toNat : Int) - entry.nameOffset.toNat = entry.name.length ∧
        StepsMatchNames (next :: entries) := by
  constructor
  · intro steps
    refine ⟨steps 0 (by simp), ?_⟩
    intro i inside
    exact steps (i + 1) (by simpa using inside)
  · rintro ⟨first, later⟩ i inside
    cases i with
    | zero => exact first
    | succ i => exact later i (by simpa using inside)

theorem readBlock_encodeBlock (block rest : Bytes) (fits : block.length ≤ maxField) :
    readBlock (encodeBlock block ++ rest) = .ok (block, rest) := by
  have length : block.length.toUInt32.toNat = block.length := by
    simp [maxField] at *
    omega
  rw [encodeBlock, List.append_assoc, readBlock, VarUint.read_encode]
  simp [length, List.splitAt_eq]

theorem readEntry_encodeEntry (entry : Entry) (rest : Bytes) :
    readEntry (encodeEntry entry ++ rest) = (.ok (unnamed entry), rest) := by
  rw [encodeEntry, List.append_assoc, List.append_assoc]
  simp only [readEntry, VarUint.read_encode]
  rfl

theorem encodeEntry_ne_nil (entry : Entry) : encodeEntry entry ≠ [] := by
  simp [encodeEntry, VarUint.encode_ne_nil]

theorem readTableAfter_step (found : List Entry) (table : Bytes) (nonempty : table ≠ []) :
    readTableAfter found table =
      match readEntry table with
      | (.ok entry, rest) => readTableAfter (entry :: found) rest
      | (.error error, _) => .error (.entry found.length error) := by
  cases table with
  | nil => exact absurd rfl nonempty
  | cons head tail =>
      rw [readTableAfter]
      split <;> rename_i step <;> rw [step]

theorem readTableAfter_encodeTable (found entries : List Entry) :
    readTableAfter found (encodeTable entries) = .ok (found.reverse ++ entries.map unnamed) := by
  induction entries generalizing found with
  | nil => simp [encodeTable, readTableAfter]
  | cons entry entries ih =>
      have split : encodeTable (entry :: entries) = encodeEntry entry ++ encodeTable entries := by
        simp [encodeTable]
      rw [split, readTableAfter_step _ _ (by simp [encodeEntry_ne_nil]), readEntry_encodeEntry]
      simp [ih]

theorem readTable_encodeTable (entries : List Entry) :
    readTable (encodeTable entries) = .ok (entries.map unnamed) := by
  simp [readTable, readTableAfter_encodeTable]

theorem encodeNames_cons (entry : Entry) (entries : List Entry) :
    encodeNames (entry :: entries) = PackedString.encode entry.name ++ encodeNames entries := by
  simp [encodeNames]

theorem readNamesAfter_keeps (named entries : List Entry) (names : Bytes) :
    ∃ rest, (readNamesAfter named entries names).1 = named.reverse ++ rest := by
  fun_induction readNamesAfter named entries names with
  | case1 named names => exact ⟨[], by simp⟩
  | case2 named entry names name rest read => exact ⟨[{ entry with name }], by simp⟩
  | case3 named entry names error rest read => exact ⟨[entry], by simp⟩
  | case4 named entry next entries names length refused =>
      exact ⟨entry :: next :: entries, by simp [List.reverseAux_eq]⟩
  | case5 named entry next entries names length accepted name rest read ih =>
      obtain ⟨later, shape⟩ := ih
      exact ⟨{ entry with name } :: later, by simp [shape]⟩
  | case6 named entry next entries names length accepted error rest read =>
      exact ⟨entry :: next :: entries, by simp [List.reverseAux_eq]⟩

theorem readNamesAfter_first_length (named : List Entry) (entry next : Entry) (entries : List Entry)
    (names : Bytes) (head : Entry) (tail : List Entry)
    (finished : readNamesAfter named (entry :: next :: entries) names =
      (named.reverse ++ head :: tail, none)) :
    (next.nameOffset.toNat : Int) - entry.nameOffset.toNat = head.name.length := by
  rw [readNamesAfter] at finished
  split at finished
  · simp at finished
  · rename_i accepted
    split at finished
    · rename_i name rest read
      obtain ⟨later, shape⟩ :=
        readNamesAfter_keeps ({ entry with name } :: named) (next :: entries) rest
      rw [finished] at shape
      have length := PackedString.readExactly_length _ _ _ _ read
      simp only [List.reverse_cons, List.append_assoc, List.append_cancel_left_eq,
        List.cons_append, List.nil_append, List.cons.injEq] at shape
      rw [shape.1]
      simp only
      omega
    · simp at finished

/-- What a directory is encoded as, and the bounds that the encoder has checked. -/
theorem encode_eq_ok (directory : Directory) (encoded : Bytes)
    (written : directory.encode = .ok encoded) :
    (encodeTable directory.entries).length ≤ maxField ∧
      (encodeNames directory.entries).length ≤ maxField ∧
      encoded = directory.header.encode ++ encodeBlock (encodeTable directory.entries) ++
        encodeBlock (encodeNames directory.entries) := by
  rw [encode] at written
  split at written
  · cases written
  · rename_i within
    cases written
    exact ⟨by omega, by omega, rfl⟩

theorem encoded_length_le (directory : Directory) (encoded : Bytes)
    (written : directory.encode = .ok encoded) :
    encoded.length ≤ Header.size + 2 * (5 + maxField) := by
  obtain ⟨table, names, shape⟩ := encode_eq_ok directory encoded written
  have tableLength := VarUint.encode_length_le (encodeTable directory.entries).length.toUInt32
  have namesLength := VarUint.encode_length_le (encodeNames directory.entries).length.toUInt32
  have header := Header.encode_length directory.header
  rw [shape]
  simp only [encodeBlock, List.length_append, header]
  omega

theorem encoded_length_lt (directory : Directory) (encoded : Bytes)
    (written : directory.encode = .ok encoded) : encoded.length < 0x400000000 :=
  Nat.lt_of_le_of_lt (encoded_length_le directory encoded written) (by decide)

end IgaArchive.Directory

import IgaArchive.Proofs.Directory.Layout
import IgaArchive.Proofs.Result

/-!
Reading a directory undoes writing it, exactly when every name but the last fills the step to the next
name offset. The payloads behind the directory play no part.
-/

namespace IgaArchive.Directory

theorem readNamesAfter_encodeNames (named entries : List Entry) :
    readNamesAfter named (entries.map unnamed) (encodeNames entries) =
        (named.reverse ++ entries, none) ↔
      StepsMatchNames entries := by
  induction entries generalizing named with
  | nil => simp [readNamesAfter, StepsMatchNames]
  | cons entry entries ih =>
      cases entries with
      | nil =>
          have read := PackedString.readAll_encode entry.name
          simp [readNamesAfter, encodeNames, read, stepsMatchNames_single, unnamed]
      | cons next entries =>
          rw [stepsMatchNames_cons, List.map_cons, List.map_cons, encodeNames_cons]
          have long := PackedString.length_le_encode entry.name
          by_cases step : (next.nameOffset.toNat : Int) - entry.nameOffset.toNat = entry.name.length
          · -- The name is read by its own length, so the rest of the block is what was written.
            have exact_name := PackedString.readExactly_encode entry.name (encodeNames (next :: entries))
            have rest := ih (entry :: named)
            rw [readNamesAfter]
            simp only [unnamed, step, Int.toNat_natCast, List.length_append, exact_name]
            rw [if_neg (by omega)]
            simpa [unnamed, step] using rest
          · -- A name read by another length differs from the one that was written.
            simp only [step, false_and, iff_false]
            intro finished
            exact step (readNamesAfter_first_length named (unnamed entry) (unnamed next) _ _ entry
              (next :: entries) finished)

theorem readNames_encodeNames (entries : List Entry) :
    readNames (entries.map unnamed) (encodeNames entries) = (entries, none) ↔
      StepsMatchNames entries := by
  simpa [readNames] using readNamesAfter_encodeNames [] entries

theorem read_encoded (directory : Directory) (encoded : Bytes)
    (valid : directory.header.isValid = true) (written : directory.encode = .ok encoded)
    (payload : Bytes) :
    read (encoded ++ payload) =
      match readNames (directory.entries.map unnamed) (encodeNames directory.entries) with
      | (_, some error) => .error (.block error)
      | (entries, none) =>
        .ok { header := directory.header, entries, dataStart := Int64.ofNat encoded.length } := by
  obtain ⟨table, names, shape⟩ := encode_eq_ok directory encoded written
  have consumed : (encoded ++ payload).length - payload.length = encoded.length := by simp
  have blocks : encoded ++ payload = directory.header.encode ++
      (encodeBlock (encodeTable directory.entries) ++
        (encodeBlock (encodeNames directory.entries) ++ payload)) := by
    simp [shape]
  have header : Header.read (encoded ++ payload) = (.ok directory.header,
      encodeBlock (encodeTable directory.entries) ++
        (encodeBlock (encodeNames directory.entries) ++ payload)) := by
    rw [blocks, Header.read_encode _ valid]
  cases naming : readNames (directory.entries.map unnamed) (encodeNames directory.entries) with
  | mk entries error =>
      cases error <;>
        simp only [read, header, readBlock_encodeBlock _ _ table, readBlock_encodeBlock _ _ names,
          readTable_encodeTable, Result.mapError_ok, bind, Except.bind, consumed, naming]

/-- Whatever follows an encoded directory, reading gives the directory back just when the steps
between name offsets are the lengths of the names. -/
theorem read_append_encode (directory : Directory) (encoded : Bytes)
    (valid : directory.header.isValid = true) (written : directory.encode = .ok encoded)
    (payload : Bytes) :
    read (encoded ++ payload) =
        .ok { directory with dataStart := Int64.ofNat encoded.length } ↔
      StepsMatchNames directory.entries := by
  rw [read_encoded directory encoded valid written payload, ← readNames_encodeNames]
  cases naming : readNames (directory.entries.map unnamed) (encodeNames directory.entries) with
  | mk entries error =>
      cases error with
      | none => simp
      | some error => simp

theorem laidOut_stepsMatchNames (members : List (Bytes × Nat)) (directory : Directory)
    (encoded : Bytes) (laid : LaidOut members directory encoded) :
    StepsMatchNames directory.entries := by
  rw [laid.entries]
  exact consecutive_stepsMatchNames 0 0 members laid.fields

theorem read_laidOut (members : List (Bytes × Nat)) (directory : Directory) (encoded : Bytes)
    (laid : LaidOut members directory encoded) (payload : Bytes) :
    read (encoded ++ payload) = .ok directory := by
  have valid : directory.header.isValid = true := by
    rw [laid.header]
    decide
  have steps := laidOut_stepsMatchNames members directory encoded laid
  rw [(read_append_encode directory encoded valid laid.written payload).mpr steps, ← laid.dataStart]

theorem toInt_encoded_length (directory : Directory) (encoded : Bytes)
    (written : directory.encode = .ok encoded) :
    (Int64.ofNat encoded.length).toInt = encoded.length := by
  have short := encoded_length_lt directory encoded written
  exact Int64.toInt_ofNat_of_lt (by omega)

/-- Decoding undoes encoding exactly when it can, and always for a directory that was laid out. -/
theorem decode_undoes_encode :
    (∀ (directory : Directory) (encoded payload : Bytes), directory.header.isValid = true →
      directory.encode = .ok encoded →
      ((∃ result, read (encoded ++ payload) = .ok result ∧ result.header = directory.header ∧
          result.entries = directory.entries ∧ result.dataStart.toInt = encoded.length) ↔
        StepsMatchNames directory.entries)) ∧
    (∀ (names : List Bytes) (sizes : List Int64) (directory : Directory),
      layout names sizes = .ok directory →
      StepsMatchNames directory.entries ∧
        ∃ encoded, directory.encode = .ok encoded ∧ directory.dataStart.toInt = encoded.length ∧
          ∀ payload, read (encoded ++ payload) = .ok directory) := by
  constructor
  · intro directory encoded payload valid written
    have length := toInt_encoded_length directory encoded written
    rw [← read_append_encode directory encoded valid written payload]
    constructor
    · rintro ⟨result, found, header, entries, dataStart⟩
      have position : result.dataStart = Int64.ofNat encoded.length :=
        Int64.toInt_inj.mp (dataStart.trans length.symm)
      rw [found, ← header, ← entries, ← position]
    · intro found
      exact ⟨_, found, rfl, rfl, length⟩
  · intro names sizes directory accepted
    obtain ⟨_, encoded, laid⟩ := layout_eq_ok names sizes directory accepted
    refine ⟨laidOut_stepsMatchNames _ directory encoded laid, encoded, laid.written, ?_, ?_⟩
    · rw [laid.dataStart]
      exact toInt_encoded_length directory encoded laid.written
    · exact read_laidOut _ directory encoded laid

/-- An entry whose successor starts three name bytes later, although its own name takes one. -/
def gapped : Directory where
  header := .standard
  entries := [⟨0, [0xE9], 0, 300⟩, ⟨3, [0x61, 0x2E, 0x73], 300, 0⟩]
  dataStart := 0

/-- Both halves at work: a directory with a gap between its names is not read back whatever follows
it, and the same members laid out are. -/
theorem decode_undoes_encode_accented :
    (∀ encoded payload, gapped.encode = .ok encoded →
      ¬ ∃ result, read (encoded ++ payload) = .ok result ∧ result.header = gapped.header ∧
          result.entries = gapped.entries ∧ result.dataStart.toInt = encoded.length) ∧
    gapped.encode.toOption.isSome = true ∧
    ∃ directory encoded, layout [[0xE9], [0x61, 0x2E, 0x73]] [300, 0] = .ok directory ∧
      directory.encode = .ok encoded ∧ ∀ payload, read (encoded ++ payload) = .ok directory := by
  refine ⟨?_, by decide +kernel, ?_⟩
  · intro encoded payload written
    rw [decode_undoes_encode.1 gapped encoded payload (by decide) written]
    intro steps
    exact absurd (steps 0 (by decide)) (by decide)
  · have fine : (layout [[0xE9], [0x61, 0x2E, 0x73]] [300, 0]).toOption.isSome = true := by
      decide +kernel
    cases accepted : layout [[0xE9], [0x61, 0x2E, 0x73]] [300, 0] with
    | error error =>
        rw [accepted] at fine
        cases fine
    | ok directory =>
        obtain ⟨_, encoded, written, _, same⟩ := decode_undoes_encode.2 _ _ _ accepted
        exact ⟨directory, encoded, rfl, written, same⟩

end IgaArchive.Directory

import IgaArchive.Proofs.VarUint

/-!
Spellings of numbers. Zero bytes in front of a number carry nothing, and that is all the freedom there is: a
number is read just from some zero bytes followed by its encoding, so of all its spellings the encoding is the
shortest. A packed string may besides spell a byte by any number with that low byte.
-/

namespace IgaArchive.VarUint

/-- A number behind a count of zero bytes. -/
def padded (zeros : Nat) (v : UInt32) : Bytes :=
  List.replicate zeros 0 ++ encode v

/-- Numbers one after another, each behind a count of zero bytes of its own. -/
def spell (numbers : List (Nat × UInt32)) : Bytes :=
  numbers.flatMap fun number => padded number.1 number.2

theorem padded_zero (v : UInt32) : padded 0 v = encode v := rfl

theorem padded_length (zeros : Nat) (v : UInt32) :
    (padded zeros v).length = zeros + (encode v).length := by
  simp [padded]

theorem padded_ne_nil (zeros : Nat) (v : UInt32) : padded zeros v ≠ [] := by
  simp [padded, encode_ne_nil]

theorem spell_cons (number : Nat × UInt32) (numbers : List (Nat × UInt32)) :
    spell (number :: numbers) = padded number.1 number.2 ++ spell numbers := by
  simp [spell]

theorem spell_append (front back : List (Nat × UInt32)) :
    spell (front ++ back) = spell front ++ spell back := by
  simp [spell]

theorem length_le_spell (numbers : List (Nat × UInt32)) : numbers.length ≤ (spell numbers).length := by
  induction numbers with
  | nil => simp
  | cons number numbers ih =>
      have some := List.length_pos_iff.mpr (padded_ne_nil number.1 number.2)
      rw [spell_cons, List.length_append, List.length_cons]
      omega

theorem readOn_zeros (zeros : Nat) (rest : Bytes) :
    readOn 0 (List.replicate zeros 0 ++ rest) = readOn 0 rest := by
  induction zeros with
  | zero => rfl
  | succ zeros ih =>
      rw [List.replicate_succ, List.cons_append, readOn_cons 0 0 _ (by decide)]
      simpa using ih

theorem read_padded (zeros : Nat) (v : UInt32) (rest : Bytes) :
    read (padded zeros v ++ rest) = (.ok v, rest) := by
  rw [read_eq_readOn _ (by simp [padded_ne_nil]), padded, List.append_assoc, readOn_zeros,
    ← read_eq_readOn _ (by simp [encode_ne_nil]), read_encode]

theorem leadingGroups_push (n : Nat) (b : UInt8) (even : b.toNat % 2 = 0)
    (positive : n * 128 + b.toNat / 2 ≠ 0) :
    leadingGroups (n * 128 + b.toNat / 2) = leadingGroups n ++ [b] := by
  have byte : b.toNat < 256 := b.toNat_lt
  have before : (n * 128 + b.toNat / 2) / 128 = n := by omega
  have group : (n * 128 + b.toNat / 2) % 128 * 2 = b.toNat := by omega
  rw [leadingGroups_step _ positive, before, group]
  simp

theorem encode_push (n : Nat) (b : UInt8) (odd : b.toNat % 2 = 1)
    (bound : n * 128 + b.toNat / 2 ≤ 0xFFFFFFFF) :
    encode (n * 128 + b.toNat / 2).toUInt32 = leadingGroups n ++ [b] := by
  have byte : b.toNat < 256 := b.toNat_lt
  have value : (n * 128 + b.toNat / 2).toUInt32.toNat = n * 128 + b.toNat / 2 := by
    simp
    omega
  have before : (n * 128 + b.toNat / 2) / 128 = n := by omega
  have group : (n * 128 + b.toNat / 2) % 128 * 2 + 1 = b.toNat := by omega
  rw [encode, value, before, group]
  simp

/-- Whatever a reader has taken of a number, with what it still takes that is the number behind zero
bytes. -/
theorem readOn_eq_ok (n : Nat) (bytes rest : Bytes) (v : UInt32) (bound : n ≤ 0xFFFFFFFF)
    (finished : readOn (n * 2).toUInt64 bytes = (.ok v, rest)) :
    ∃ zeros used, bytes = used ++ rest ∧ leadingGroups n ++ used = padded zeros v := by
  induction bytes generalizing n with
  | nil => cases finished
  | cons b bytes ih =>
      have byte : b.toNat < 256 := b.toNat_lt
      have soFar : (n * 2).toUInt64.toNat = n * 2 := by
        simp
        omega
      rw [readOn_cons _ _ _ (by omega), soFar] at finished
      split at finished
      · cases finished
      · rename_i fits
        split at finished
        · rename_i odd
          have half : (n * 2 * 128 + b.toNat) / 2 = n * 128 + b.toNat / 2 := by omega
          rw [half] at finished
          cases finished
          refine ⟨0, [b], rfl, ?_⟩
          rw [padded_zero, encode_push n b odd (by omega)]
        · rename_i between
          have even : b.toNat % 2 = 0 := by omega
          have next : n * 2 * 128 + b.toNat = (n * 128 + b.toNat / 2) * 2 := by omega
          rw [next] at finished
          obtain ⟨zeros, used, rfl, spelled⟩ := ih _ (by omega) finished
          by_cases nothing : n * 128 + b.toNat / 2 = 0
          · -- Nothing but zeros so far: this byte is one more of them.
            have zero : b = 0 := UInt8.toNat_inj.mp (by simp; omega)
            have none : n = 0 := by omega
            rw [nothing, leadingGroups_zero, List.nil_append] at spelled
            refine ⟨zeros + 1, b :: used, rfl, ?_⟩
            rw [none, leadingGroups_zero, List.nil_append, zero, spelled, padded, padded,
              List.replicate_succ, List.cons_append]
          · refine ⟨zeros, b :: used, rfl, ?_⟩
            rw [leadingGroups_push n b even nothing, List.append_assoc, List.singleton_append] at spelled
            exact spelled

theorem read_eq_ok_iff (bytes rest : Bytes) (v : UInt32) :
    read bytes = (.ok v, rest) ↔ ∃ zeros, bytes = padded zeros v ++ rest := by
  constructor
  · intro finished
    cases bytes with
    | nil => cases finished
    | cons b bytes =>
        obtain ⟨zeros, used, shape, spelled⟩ := readOn_eq_ok 0 (b :: bytes) rest v (by decide) finished
        rw [leadingGroups_zero, List.nil_append] at spelled
        exact ⟨zeros, by rw [shape, spelled]⟩
  · rintro ⟨zeros, rfl⟩
    exact read_padded zeros v rest

theorem leadingGroups_length_mono (n m : Nat) (below : n ≤ m) :
    (leadingGroups n).length ≤ (leadingGroups m).length := by
  induction m using Nat.strongRecOn generalizing n with
  | ind m ih =>
      by_cases zero : n = 0
      · simp [zero, leadingGroups_zero]
      · have rest := ih (m / 128) (by omega) (n / 128) (Nat.div_le_div_right below)
        rw [leadingGroups_step n zero, leadingGroups_step m (by omega), List.length_append,
          List.length_append, List.length_singleton, List.length_singleton]
        omega

theorem encode_length_mono (v w : UInt32) (below : v.toNat ≤ w.toNat) :
    (encode v).length ≤ (encode w).length := by
  have groups := leadingGroups_length_mono _ _ (Nat.div_le_div_right (c := 128) below)
  rw [encode, encode, List.length_append, List.length_append, List.length_singleton,
    List.length_singleton]
  omega

theorem flatMap_encode_length_le (numbers : List (Nat × UInt32)) :
    ((numbers.map Prod.snd).flatMap encode).length ≤ (spell numbers).length := by
  induction numbers with
  | nil => simp
  | cons number numbers ih =>
      rw [List.map_cons, List.flatMap_cons, spell_cons, List.length_append, List.length_append,
        padded_length]
      omega

end IgaArchive.VarUint

namespace IgaArchive.PackedString

/-- The text that numbers stand for: the low byte of each. -/
def letters (numbers : List (Nat × UInt32)) : Bytes :=
  numbers.map fun number => number.2.toUInt8

theorem letters_of_text (numbers : List (Nat × UInt32)) (text : Bytes)
    (spelled : numbers.map Prod.snd = text.map UInt8.toUInt32) : letters numbers = text := by
  have low := congrArg (List.map UInt32.toUInt8) spelled
  simpa [letters, Function.comp_def] using low

theorem readByte_padded (zeros : Nat) (v : UInt32) (rest : Bytes) :
    readByte (VarUint.padded zeros v ++ rest) = (.ok v.toUInt8, rest) := by
  simp [readByte, VarUint.read_padded]

theorem readByte_eq_ok (bytes rest : Bytes) (b : UInt8) (finished : readByte bytes = (.ok b, rest)) :
    ∃ zeros v, bytes = VarUint.padded zeros v ++ rest ∧ b = v.toUInt8 := by
  rw [readByte] at finished
  split at finished
  · rename_i v after read
    cases finished
    obtain ⟨zeros, shape⟩ := (VarUint.read_eq_ok_iff bytes _ v).mp read
    exact ⟨zeros, v, shape, rfl⟩
  · cases finished

theorem readExactlyAfter_spell (found : Bytes) (numbers : List (Nat × UInt32)) (rest : Bytes) :
    readExactlyAfter found numbers.length (VarUint.spell numbers ++ rest) =
      (.ok (found.reverse ++ letters numbers), rest) := by
  induction numbers generalizing found with
  | nil => simp [readExactlyAfter, VarUint.spell, letters]
  | cons number numbers ih =>
      rw [VarUint.spell_cons, List.append_assoc, List.length_cons, readExactlyAfter, readByte_padded]
      simp [ih, letters]

theorem readExactly_spell (numbers : List (Nat × UInt32)) (rest : Bytes) :
    readExactly numbers.length (VarUint.spell numbers ++ rest) = (.ok (letters numbers), rest) := by
  simp [readExactly, readExactlyAfter_spell]

theorem readAllAfter_spell (found : Bytes) (numbers : List (Nat × UInt32)) :
    readAllAfter found (VarUint.spell numbers) = (.ok (found.reverse ++ letters numbers), []) := by
  induction numbers generalizing found with
  | nil => simp [readAllAfter, VarUint.spell, letters]
  | cons number numbers ih =>
      rw [VarUint.spell_cons, readAllAfter_step _ _ (by simp [VarUint.padded_ne_nil]), readByte_padded]
      simp [ih, letters]

theorem readAll_spell (numbers : List (Nat × UInt32)) :
    readAll (VarUint.spell numbers) = (.ok (letters numbers), []) := by
  simp [readAll, readAllAfter_spell]

theorem readExactlyAfter_eq_ok (found : Bytes) (count : Nat) (bytes text rest : Bytes)
    (finished : readExactlyAfter found count bytes = (.ok text, rest)) :
    ∃ numbers, numbers.length = count ∧ bytes = VarUint.spell numbers ++ rest ∧
      text = found.reverse ++ letters numbers := by
  induction count generalizing found bytes with
  | zero =>
      cases finished
      exact ⟨[], rfl, rfl, by simp [letters]⟩
  | succ count ih =>
      rw [readExactlyAfter] at finished
      split at finished
      · rename_i b after first
        obtain ⟨zeros, v, rfl, rfl⟩ := readByte_eq_ok bytes after b first
        obtain ⟨numbers, rfl, rfl, rfl⟩ := ih _ _ finished
        exact ⟨(zeros, v) :: numbers, rfl, by rw [VarUint.spell_cons, List.append_assoc],
          by simp [letters]⟩
      · cases finished

theorem readExactly_eq_ok (count : Nat) (bytes text rest : Bytes)
    (finished : readExactly count bytes = (.ok text, rest)) :
    ∃ numbers, numbers.length = count ∧ bytes = VarUint.spell numbers ++ rest ∧
      text = letters numbers := by
  simpa using readExactlyAfter_eq_ok [] count bytes text rest finished

theorem readAllAfter_eq_ok (found bytes text rest : Bytes)
    (finished : readAllAfter found bytes = (.ok text, rest)) :
    ∃ numbers, bytes = VarUint.spell numbers ∧ text = found.reverse ++ letters numbers := by
  induction length : bytes.length using Nat.strongRecOn generalizing found bytes with
  | ind n ih =>
      cases bytes with
      | nil =>
          rw [readAllAfter] at finished
          cases finished
          exact ⟨[], rfl, by simp [letters]⟩
      | cons head tail =>
          rw [readAllAfter_step _ _ (by simp)] at finished
          split at finished
          · rename_i b after first
            have shorter := readByte_rest_length head tail
            simp only [first] at shorter
            obtain ⟨zeros, v, shape, rfl⟩ := readByte_eq_ok _ after b first
            obtain ⟨numbers, rfl, rfl⟩ := ih after.length (by omega) _ after finished rfl
            exact ⟨(zeros, v) :: numbers, by rw [shape, VarUint.spell_cons], by simp [letters]⟩
          · cases finished

theorem readAll_eq_ok (bytes text rest : Bytes) (finished : readAll bytes = (.ok text, rest)) :
    ∃ numbers, bytes = VarUint.spell numbers ∧ text = letters numbers := by
  simpa using readAllAfter_eq_ok [] bytes text rest finished

theorem encode_letters_length_le (numbers : List (Nat × UInt32)) :
    (encode (letters numbers)).length ≤ (VarUint.spell numbers).length := by
  induction numbers with
  | nil => simp [letters, encode]
  | cons number numbers ih =>
      have low : number.2.toUInt8.toUInt32.toNat ≤ number.2.toNat := by
        simp
        omega
      have first := VarUint.encode_length_mono _ _ low
      rw [letters, List.map_cons, encode_cons, VarUint.spell_cons, List.length_append,
        List.length_append, VarUint.padded_length]
      rw [letters] at ih
      omega

end IgaArchive.PackedString

import IgaArchive.PackedString

/-!
Reading back variable-length numbers and packed strings. A reader that stands before an encoded number
gives that number and stops right behind it, whatever follows.
-/

namespace IgaArchive.VarUint

theorem leadingGroups_zero : leadingGroups 0 = [] := by
  rw [leadingGroups]
  simp

theorem leadingGroups_step (n : Nat) (positive : n ≠ 0) :
    leadingGroups n = leadingGroups (n / 128) ++ [(n % 128 * 2).toUInt8] := by
  rw [leadingGroups]
  simp [positive]

theorem accumulate_toNat (value : UInt64) (b : UInt8) (bound : value.toNat ≤ 0x1FFFFFFFF) :
    (value * 128 + b.toUInt64).toNat = value.toNat * 128 + b.toNat := by
  have byte : b.toNat < 256 := b.toNat_lt
  simp only [UInt64.toNat_add, UInt64.toNat_mul, UInt8.toNat_toUInt64, UInt64.reduceToNat]
  omega

/-- Reading a byte on, with the accumulator seen as a natural number. -/
theorem readOn_cons (value : UInt64) (b : UInt8) (rest : Bytes) (bound : value.toNat ≤ 0x1FFFFFFFF) :
    readOn value (b :: rest) =
      if value.toNat * 128 + b.toNat > 0x1FFFFFFFF then (.error .overflow, rest)
      else if b.toNat % 2 = 1 then
        (.ok ((value.toNat * 128 + b.toNat) / 2).toUInt32, rest)
      else readOn (value.toNat * 128 + b.toNat).toUInt64 rest := by
  have next := accumulate_toNat value b bound
  have byte : b.toNat < 256 := b.toNat_lt
  have above : ((value * 128 + b.toUInt64) / 2 > 0xFFFFFFFF) ↔
      value.toNat * 128 + b.toNat > 0x1FFFFFFFF := by
    rw [gt_iff_lt, UInt64.lt_iff_toNat_lt, UInt64.toNat_div, next]
    simp only [UInt64.reduceToNat]
    omega
  have last : ((value * 128 + b.toUInt64) % 2 = 1) ↔ b.toNat % 2 = 1 := by
    rw [← UInt64.toNat_inj, UInt64.toNat_mod, next]
    simp only [UInt64.reduceToNat]
    omega
  have whole : value * 128 + b.toUInt64 = (value.toNat * 128 + b.toNat).toUInt64 := by
    apply UInt64.toNat_inj.mp
    rw [next]
    simp
    omega
  have half : ((value * 128 + b.toUInt64) / 2).toUInt32 =
      ((value.toNat * 128 + b.toNat) / 2).toUInt32 := by
    apply UInt32.toNat_inj.mp
    rw [UInt64.toNat_toUInt32, UInt64.toNat_div, next]
    simp
  simp only [readOn, above, last, half, ← whole]

theorem readOn_leadingGroups (n : Nat) (bound : n ≤ 0x1FFFFFF) (rest : Bytes) :
    readOn 0 (leadingGroups n ++ rest) = readOn (n * 2).toUInt64 rest := by
  induction n using Nat.strongRecOn generalizing rest with
  | ind n ih =>
      by_cases zero : n = 0
      · subst zero
        simp [leadingGroups_zero]
      · have group : (n % 128 * 2).toUInt8.toNat = n % 128 * 2 := by
          simp
          omega
        have before : (n / 128 * 2).toUInt64.toNat = n / 128 * 2 := by
          simp
          omega
        rw [leadingGroups_step n zero, List.append_assoc, ih (n / 128) (by omega) (by omega)]
        rw [List.singleton_append, readOn_cons _ _ _ (by omega), group, before]
        have sum : n / 128 * 2 * 128 + n % 128 * 2 = n * 2 := by omega
        rw [sum, if_neg (by omega), if_neg (by omega)]

theorem leadingGroups_length_le (groups n : Nat) (bound : n < Nat.pow 128 groups) :
    (leadingGroups n).length ≤ groups := by
  induction groups generalizing n with
  | zero =>
      have zero : n = 0 := Nat.lt_one_iff.mp bound
      subst zero
      simp [leadingGroups_zero]
  | succ groups ih =>
      by_cases zero : n = 0
      · subst zero
        simp [leadingGroups_zero]
      · have rest := ih (n / 128) (Nat.div_lt_of_lt_mul (by rwa [Nat.mul_comm]))
        rw [leadingGroups_step n zero, List.length_append, List.length_singleton]
        omega

theorem encode_length_le (v : UInt32) : (encode v).length ≤ 5 := by
  have small : v.toNat < 4294967296 := v.toNat_lt
  have groups := leadingGroups_length_le 4 (v.toNat / 128) (by
    change v.toNat / 128 < 268435456
    omega)
  rw [encode, List.length_append, List.length_singleton]
  omega

theorem encode_ne_nil (v : UInt32) : encode v ≠ [] := by
  simp [encode]

theorem read_eq_readOn (bytes : Bytes) (nonempty : bytes ≠ []) : read bytes = readOn 0 bytes := by
  cases bytes with
  | nil => exact absurd rfl nonempty
  | cons b rest => rfl

theorem read_encode (v : UInt32) (rest : Bytes) : read (encode v ++ rest) = (.ok v, rest) := by
  have small : v.toNat < 4294967296 := v.toNat_lt
  have before : (v.toNat / 128 * 2).toUInt64.toNat = v.toNat / 128 * 2 := by
    simp
    omega
  have group : (v.toNat % 128 * 2 + 1).toUInt8.toNat = v.toNat % 128 * 2 + 1 := by
    simp
    omega
  rw [read_eq_readOn _ (by simp [encode]), encode, List.append_assoc,
    readOn_leadingGroups _ (by omega), List.singleton_append, readOn_cons _ _ _ (by omega), group,
    before]
  have sum : v.toNat / 128 * 2 * 128 + (v.toNat % 128 * 2 + 1) = v.toNat * 2 + 1 := by omega
  have half : (v.toNat * 2 + 1) / 2 = v.toNat := by omega
  rw [sum, if_neg (by omega), if_pos (by omega), half]
  simp

end IgaArchive.VarUint

namespace IgaArchive.PackedString

theorem encode_cons (b : UInt8) (text : Bytes) :
    encode (b :: text) = VarUint.encode b.toUInt32 ++ encode text := by
  simp [encode]

theorem length_le_encode (text : Bytes) : text.length ≤ (encode text).length := by
  induction text with
  | nil => simp
  | cons b text ih =>
      have nonempty := List.length_pos_iff.mpr (VarUint.encode_ne_nil b.toUInt32)
      rw [encode_cons, List.length_append, List.length_cons]
      omega

theorem readByte_encode (b : UInt8) (rest : Bytes) :
    readByte (VarUint.encode b.toUInt32 ++ rest) = (.ok b, rest) := by
  simp [readByte, VarUint.read_encode]

theorem readExactlyAfter_encode (found text rest : Bytes) :
    readExactlyAfter found text.length (encode text ++ rest) = (.ok (found.reverse ++ text), rest) := by
  induction text generalizing found with
  | nil => simp [readExactlyAfter, encode]
  | cons b text ih =>
      rw [encode_cons, List.append_assoc, List.length_cons, readExactlyAfter, readByte_encode]
      simp [ih]

theorem readExactly_encode (text rest : Bytes) :
    readExactly text.length (encode text ++ rest) = (.ok text, rest) := by
  simp [readExactly, readExactlyAfter_encode]

theorem readAllAfter_step (found bytes : Bytes) (nonempty : bytes ≠ []) :
    readAllAfter found bytes =
      match readByte bytes with
      | (.ok b, rest) => readAllAfter (b :: found) rest
      | (.error error, rest) => (.error error, rest) := by
  cases bytes with
  | nil => exact absurd rfl nonempty
  | cons head tail =>
      rw [readAllAfter]
      split <;> rename_i step <;> rw [step]

theorem readAllAfter_encode (found text : Bytes) :
    readAllAfter found (encode text) = (.ok (found.reverse ++ text), []) := by
  induction text generalizing found with
  | nil => simp [encode, readAllAfter]
  | cons b text ih =>
      rw [encode_cons, readAllAfter_step _ _ (by simp [VarUint.encode_ne_nil]), readByte_encode]
      simp [ih]

theorem readAll_encode (text : Bytes) : readAll (encode text) = (.ok text, []) := by
  simp [readAll, readAllAfter_encode]

theorem readExactlyAfter_length (found : Bytes) (count : Nat) (bytes text rest : Bytes)
    (finished : readExactlyAfter found count bytes = (.ok text, rest)) :
    text.length = found.length + count := by
  induction count generalizing found bytes with
  | zero =>
      rw [readExactlyAfter] at finished
      cases finished
      simp
  | succ count ih =>
      rw [readExactlyAfter] at finished
      split at finished
      · rename_i b after first
        have total := ih (b :: found) after finished
        rw [List.length_cons] at total
        omega
      · cases finished

theorem readExactly_length (count : Nat) (bytes text rest : Bytes)
    (finished : readExactly count bytes = (.ok text, rest)) : text.length = count := by
  simpa using readExactlyAfter_length [] count bytes text rest finished

end IgaArchive.PackedString

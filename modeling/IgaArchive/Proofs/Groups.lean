import IgaArchive.Proofs.Spelling
import Mathlib.Data.List.Induction
import Mathlib.Data.Nat.Size

/-!
Reading a number from any bytes, told by their seven-bit groups. Reading goes on over bytes whose bit 0 is
clear. It ends with the first byte that has bit 0 set, before that with the group that takes the value past
32 bits, or else where the bytes end. The groups taken so far always have room in the accumulator.
-/

namespace IgaArchive.VarUint

/-- A byte behind which a number goes on: its bit 0 is clear. -/
def Continues (b : UInt8) : Prop :=
  b.toNat % 2 = 0

def groupsAfter (value : Nat) (bytes : Bytes) : Nat :=
  bytes.foldl (fun value b => value * 128 + b.toNat / 2) value

/-- The number that the seven-bit groups of some bytes make up, whatever their flags. -/
def groups (bytes : Bytes) : Nat :=
  groupsAfter 0 bytes

theorem groupsAfter_cons (value : Nat) (b : UInt8) (bytes : Bytes) :
    groupsAfter value (b :: bytes) = groupsAfter (value * 128 + b.toNat / 2) bytes := rfl

theorem groupsAfter_append (value : Nat) (front back : Bytes) :
    groupsAfter value (front ++ back) = groupsAfter (groupsAfter value front) back :=
  List.foldl_append

theorem le_groupsAfter (value : Nat) (bytes : Bytes) : value ≤ groupsAfter value bytes := by
  induction bytes generalizing value with
  | nil => exact Nat.le_refl _
  | cons b bytes ih =>
      have later := ih (value * 128 + b.toNat / 2)
      rw [groupsAfter_cons]
      omega

theorem groups_mono (front bytes : Bytes) (starts : front <+: bytes) : groups front ≤ groups bytes := by
  obtain ⟨back, rfl⟩ := starts
  rw [groups, groups, groupsAfter_append]
  exact le_groupsAfter _ back

/-- How reading goes on behind groups of the given value: from the bytes to the result and what is left
unread. -/
inductive Course (value : Nat) : Bytes → Except ReadError UInt32 × Bytes → Prop
  | finished (front : Bytes) (last : UInt8) (rest : Bytes) (more : ∀ b ∈ front, Continues b)
      (ends : ¬ Continues last) (fits : groupsAfter value (front ++ [last]) ≤ 0xFFFFFFFF) :
      Course value (front ++ last :: rest)
        (.ok (groupsAfter value (front ++ [last])).toUInt32, rest)
  | overflowed (front : Bytes) (last : UInt8) (rest : Bytes) (more : ∀ b ∈ front, Continues b)
      (fits : groupsAfter value front ≤ 0xFFFFFFFF)
      (exceeds : 0xFFFFFFFF < groupsAfter value (front ++ [last])) :
      Course value (front ++ last :: rest) (.error .overflow, rest)
  | cut (bytes : Bytes) (more : ∀ b ∈ bytes, Continues b)
      (fits : groupsAfter value bytes ≤ 0xFFFFFFFF) :
      Course value bytes (.error .unexpectedEnd, [])

theorem Course.cons {value : Nat} {b : UInt8} {bytes : Bytes}
    {outcome : Except ReadError UInt32 × Bytes} (even : Continues b)
    (later : Course (value * 128 + b.toNat / 2) bytes outcome) : Course value (b :: bytes) outcome := by
  cases later with
  | finished front last rest more ends fits =>
      exact .finished (b :: front) last rest (List.forall_mem_cons.mpr ⟨even, more⟩) ends fits
  | overflowed front last rest more fits exceeds =>
      exact .overflowed (b :: front) last rest (List.forall_mem_cons.mpr ⟨even, more⟩) fits exceeds
  | cut bytes more fits => exact .cut (b :: bytes) (List.forall_mem_cons.mpr ⟨even, more⟩) fits

theorem readOn_course (value : Nat) (bytes : Bytes) (bound : value ≤ 0xFFFFFFFF) :
    Course value bytes (readOn (value * 2).toUInt64 bytes) := by
  induction bytes generalizing value with
  | nil => exact .cut [] nofun bound
  | cons b bytes ih =>
      have byte : b.toNat < 256 := b.toNat_lt
      have soFar : (value * 2).toUInt64.toNat = value * 2 := by
        simp
        omega
      have last : groupsAfter value ([] ++ [b]) = value * 128 + b.toNat / 2 := rfl
      rw [readOn_cons _ _ _ (by omega), soFar]
      split
      · exact .overflowed [] b bytes nofun bound (by omega)
      · split
        · rename_i odd
          have half : (value * 2 * 128 + b.toNat) / 2 = groupsAfter value ([] ++ [b]) := by omega
          rw [half]
          exact .finished [] b bytes nofun (by rw [Continues]; omega) (by omega)
        · have next : value * 2 * 128 + b.toNat = (value * 128 + b.toNat / 2) * 2 := by omega
          rw [next]
          exact (ih _ (by omega)).cons (by rw [Continues]; omega)

theorem read_course (bytes : Bytes) (nonempty : bytes ≠ []) : Course 0 bytes (read bytes) := by
  rw [read_eq_readOn bytes nonempty]
  exact readOn_course 0 bytes (by decide)

/-- Bytes at the start of a number whose groups exceed 32 bits; the last of them may have bit 0 set. -/
structure Overflows (bytes : Bytes) : Prop where
  more : ∀ b ∈ bytes.dropLast, Continues b
  exceeds : 0xFFFFFFFF < groups bytes

/-- The bytes of an overflowing number that a reader takes: no fewer of them overflow. -/
structure FirstOverflow (front bytes : Bytes) : Prop where
  overflows : Overflows front
  starts : front <+: bytes
  shortest : ∀ shorter, shorter <+: bytes → Overflows shorter → front.length ≤ shorter.length

theorem not_overflows_of_fits (front bytes : Bytes) (starts : front <+: bytes)
    (fits : groups bytes ≤ 0xFFFFFFFF) : ¬ Overflows front := by
  intro overflows
  have within := groups_mono front bytes starts
  have exceeds := overflows.exceeds
  omega

theorem not_overflows_of_ends (front behind taken : Bytes) (last : UInt8) (ends : ¬ Continues last)
    (fits : groups (front ++ [last]) ≤ 0xFFFFFFFF) (starts : taken <+: front ++ last :: behind) :
    ¬ Overflows taken := by
  intro overflows
  have whole : front ++ [last] <+: front ++ last :: behind := ⟨behind, by simp⟩
  by_cases short : taken.length ≤ (front ++ [last]).length
  · exact not_overflows_of_fits taken _ (List.prefix_of_prefix_length_le starts whole short) fits overflows
  · obtain ⟨extra, shape⟩ := List.prefix_of_prefix_length_le whole starts (by omega)
    have some : extra ≠ [] := by
      intro none
      rw [none, List.append_nil] at shape
      rw [shape] at short
      exact short (Nat.le_refl _)
    apply ends
    apply overflows.more
    rw [← shape, List.dropLast_append_of_ne_nil some]
    simp

theorem firstOverflow_of_exceeds (front rest : Bytes) (last : UInt8) (more : ∀ b ∈ front, Continues b)
    (fits : groups front ≤ 0xFFFFFFFF) (exceeds : 0xFFFFFFFF < groups (front ++ [last])) :
    FirstOverflow (front ++ [last]) (front ++ last :: rest) := by
  refine ⟨⟨by simpa using more, exceeds⟩, ⟨rest, by simp⟩, ?_⟩
  intro shorter starts overflows
  apply Nat.not_lt.mp
  intro less
  rw [List.length_append, List.length_singleton] at less
  have inside : shorter <+: front :=
    List.prefix_of_prefix_length_le starts ⟨last :: rest, rfl⟩ (by omega)
  exact not_overflows_of_fits shorter front inside fits overflows

theorem read_eq_endOfInput_iff (bytes : Bytes) :
    (read bytes).1 = .error .endOfInput ↔ bytes = [] := by
  by_cases empty : bytes = []
  · simp [empty, read]
  · have course := read_course bytes empty
    generalize read bytes = outcome at course
    cases course <;> simp [empty]

theorem read_eq_unexpectedEnd_iff (bytes : Bytes) :
    (read bytes).1 = .error .unexpectedEnd ↔
      bytes ≠ [] ∧ (∀ b ∈ bytes, Continues b) ∧ groups bytes ≤ 0xFFFFFFFF := by
  by_cases empty : bytes = []
  · simp [empty, read]
  · have course := read_course bytes empty
    generalize read bytes = outcome at course
    cases course with
    | finished front last rest _ ends _ =>
        simp only [reduceCtorEq, false_iff, not_and]
        intro _ more
        exact absurd (more last (by simp)) ends
    | overflowed front last rest _ _ exceeds =>
        have within := groups_mono (front ++ [last]) (front ++ last :: rest) ⟨rest, by simp⟩
        have beyond : 0xFFFFFFFF < groups (front ++ [last]) := exceeds
        simp only [Except.error.injEq, reduceCtorEq, false_iff, not_and]
        omega
    | cut _ more fits => exact ⟨fun _ => ⟨empty, more, fits⟩, fun _ => rfl⟩

theorem read_eq_overflow_iff (bytes : Bytes) :
    (read bytes).1 = .error .overflow ↔ ∃ front, front <+: bytes ∧ Overflows front := by
  by_cases empty : bytes = []
  · subst empty
    simp only [read, Except.error.injEq, reduceCtorEq, false_iff, not_exists, not_and]
    intro front starts
    exact not_overflows_of_fits front [] starts (by decide)
  · have course := read_course bytes empty
    generalize read bytes = outcome at course
    cases course with
    | finished front last rest _ ends fits =>
        simp only [reduceCtorEq, false_iff, not_exists, not_and]
        intro taken starts
        exact not_overflows_of_ends front rest taken last ends fits starts
    | overflowed front last rest more fits exceeds =>
        have first := firstOverflow_of_exceeds front rest last more fits exceeds
        exact ⟨fun _ => ⟨_, first.starts, first.overflows⟩, fun _ => rfl⟩
    | cut _ _ fits =>
        simp only [Except.error.injEq, reduceCtorEq, false_iff, not_exists, not_and]
        intro taken starts
        exact not_overflows_of_fits taken bytes starts fits

theorem read_takes_firstOverflow (bytes : Bytes) (failed : (read bytes).1 = .error .overflow) :
    ∃ front, bytes = front ++ (read bytes).2 ∧ FirstOverflow front bytes := by
  have nonempty : bytes ≠ [] := by
    intro empty
    rw [empty] at failed
    cases failed
  have course := read_course bytes nonempty
  generalize read bytes = outcome at course failed
  cases course with
  | finished => cases failed
  | overflowed front last rest more fits exceeds =>
      exact ⟨front ++ [last], by simp, firstOverflow_of_exceeds front rest last more fits exceeds⟩
  | cut => cases failed

/-- What the reader's accumulator comes to over some bytes. -/
def accumulated (bytes : Bytes) : UInt64 :=
  bytes.foldl (fun value b => value * 128 + b.toUInt64) 0

/-- A byte that the reader gets to: those before it go on, and their groups fit. -/
structure Reached (front : Bytes) : Prop where
  more : ∀ b ∈ front, Continues b
  fits : groups front ≤ 0xFFFFFFFF

theorem Reached.shorter {front : Bytes} {last : UInt8} (reached : Reached (front ++ [last])) :
    Reached front ∧ Continues last := by
  have within := groups_mono front (front ++ [last]) ⟨[last], rfl⟩
  have fits := reached.fits
  refine ⟨⟨?_, by omega⟩, reached.more last (by simp)⟩
  intro b member
  exact reached.more b (List.mem_append_left _ member)

theorem accumulated_toNat (front : Bytes) (reached : Reached front) :
    (accumulated front).toNat = groups front * 2 := by
  induction front using List.reverseRecOn with
  | nil => rfl
  | append_singleton front last ih =>
      obtain ⟨earlier, even⟩ := reached.shorter
      have soFar := ih earlier
      have fits := earlier.fits
      have step : accumulated (front ++ [last]) = accumulated front * 128 + last.toUInt64 := by
        simp [accumulated]
      have next : groups (front ++ [last]) = groups front * 128 + last.toNat / 2 := by
        simp [groups, groupsAfter]
      rw [Continues] at even
      rw [step, accumulate_toNat _ _ (by omega), next, soFar]
      omega

theorem accumulated_or (front : Bytes) (b : UInt8) (reached : Reached front) :
    (accumulated front <<< 7 ||| b.toUInt64).toNat = (accumulated front).toNat * 128 + b.toNat := by
  have fits := reached.fits
  have byte : b.toNat < 2 ^ 8 := b.toNat_lt
  have shifted : groups front * 2 * 2 ^ 7 = groups front <<< 8 := by
    rw [Nat.shiftLeft_eq]
    omega
  have small : groups front * 2 * 2 ^ 7 < 2 ^ 64 := by omega
  have joined : (accumulated front <<< 7 ||| b.toUInt64).toNat = groups front <<< 8 + b.toNat := by
    rw [UInt64.toNat_or, UInt64.toNat_shiftLeft, accumulated_toNat front reached,
      UInt8.toNat_toUInt64, show (7 : UInt64).toNat % 64 = 7 from rfl, Nat.shiftLeft_eq,
      Nat.mod_eq_of_lt small, shifted, ← Nat.shiftLeft_add_eq_or_of_lt byte]
  rw [joined, accumulated_toNat front reached]
  omega

theorem Reached.of_starts {front bytes : Bytes} (starts : front <+: bytes) (reached : Reached bytes) :
    Reached front := by
  refine ⟨fun b member => reached.more b (starts.subset member), ?_⟩
  exact Nat.le_trans (groups_mono front bytes starts) reached.fits

theorem reached_of_taken (front rest : Bytes) (b : UInt8)
    (taken : (read (front ++ b :: rest)).2.length ≤ rest.length) : Reached front := by
  have course := read_course (front ++ b :: rest) (by simp)
  generalize whole : front ++ b :: rest = bytes at course taken
  generalize read bytes = outcome at course taken
  have starts : front <+: bytes := ⟨b :: rest, whole⟩
  have length := congrArg List.length whole
  simp only [List.length_append, List.length_cons] at length
  cases course with
  | finished before last left more ends fits =>
      simp only [List.length_append, List.length_cons] at length taken
      have inside : front <+: before :=
        List.prefix_of_prefix_length_le starts ⟨last :: left, rfl⟩ (by omega)
      have within := groups_mono before (before ++ [last]) ⟨[last], rfl⟩
      exact Reached.of_starts inside ⟨more, Nat.le_trans within fits⟩
  | overflowed before last left more fits _ =>
      simp only [List.length_append, List.length_cons] at length taken
      have inside : front <+: before :=
        List.prefix_of_prefix_length_le starts ⟨last :: left, rfl⟩ (by omega)
      exact Reached.of_starts inside ⟨more, fits⟩
  | cut _ more fits => exact Reached.of_starts starts ⟨more, fits⟩

theorem readOn_reached (front rest : Bytes) (reached : Reached front) :
    readOn 0 (front ++ rest) = readOn (accumulated front) rest := by
  induction front using List.reverseRecOn generalizing rest with
  | nil => rfl
  | append_singleton front last ih =>
      obtain ⟨earlier, even⟩ := reached.shorter
      have byte : last.toNat < 256 := last.toNat_lt
      have soFar := accumulated_toNat front earlier
      have within := earlier.fits
      have fits := reached.fits
      have whole := accumulated_toNat _ reached
      have next : groups (front ++ [last]) = groups front * 128 + last.toNat / 2 := by
        simp [groups, groupsAfter]
      rw [Continues] at even
      rw [List.append_assoc, List.singleton_append, ih _ earlier, readOn_cons _ _ _ (by omega),
        if_neg (by omega), if_neg (by omega)]
      congr 1
      apply UInt64.toNat_inj.mp
      rw [whole, soFar]
      simp
      omega

theorem leadingGroups_length_le_iff (count n : Nat) :
    (leadingGroups n).length ≤ count ↔ n < Nat.pow 128 count := by
  induction count generalizing n with
  | zero =>
      by_cases zero : n = 0
      · simp [zero, leadingGroups_zero]
      · rw [leadingGroups_step n zero]
        simp [zero]
  | succ count ih =>
      by_cases zero : n = 0
      · rw [zero, leadingGroups_zero]
        exact iff_of_true (Nat.zero_le _) (Nat.pow_pos (by decide))
      · have step : Nat.pow 128 (count + 1) = Nat.pow 128 count * 128 := rfl
        rw [leadingGroups_step n zero, List.length_append, List.length_singleton, Nat.add_le_add_iff_right,
          ih, step]
        exact Nat.div_lt_iff_lt_mul (by decide)

theorem encode_length (v : UInt32) :
    (encode v).length = (leadingGroups (v.toNat / 128)).length + 1 := by
  rw [encode, List.length_append, List.length_singleton]

theorem encode_length_eq (v : UInt32) :
    (encode v).length = max 1 ((Nat.size v.toNat + 6) / 7) := by
  have bits : ∀ count, (encode v).length ≤ count + 1 ↔ Nat.size v.toNat ≤ 7 * (count + 1) := by
    intro count
    have power : 2 ^ (7 * (count + 1)) = Nat.pow 128 count * 128 := Nat.pow_mul 2 7 (count + 1)
    rw [encode_length, Nat.add_le_add_iff_right, leadingGroups_length_le_iff, Nat.size_le, power]
    exact Nat.div_lt_iff_lt_mul (by decide)
  have least := (bits ((encode v).length - 1)).mp (by omega)
  have enough := (bits (max 1 ((Nat.size v.toNat + 6) / 7) - 1)).mpr (by omega)
  have some := encode_length v
  omega

theorem encode_shortest (v : UInt32) (bytes : Bytes) (spelled : read bytes = (.ok v, [])) :
    (encode v).length ≤ bytes.length ∧ (bytes.length = (encode v).length → bytes = encode v) := by
  obtain ⟨zeros, shape⟩ := (read_eq_ok_iff bytes [] v).mp spelled
  rw [List.append_nil] at shape
  rw [shape, padded_length]
  refine ⟨by omega, ?_⟩
  intro short
  have none : zeros = 0 := by omega
  rw [none, padded_zero]

theorem read_takes_iff (bytes : Bytes) (v : UInt32) (k : Nat) :
    read bytes = (.ok v, bytes.drop k) ↔
      ∃ zeros, bytes.take k = List.replicate zeros 0 ++ encode v := by
  rw [read_eq_ok_iff]
  constructor
  · rintro ⟨zeros, shape⟩
    have joined : bytes.take k ++ bytes.drop k = padded zeros v ++ bytes.drop k := by
      rw [List.take_append_drop]
      exact shape
    exact ⟨zeros, List.append_cancel_right joined⟩
  · rintro ⟨zeros, shape⟩
    exact ⟨zeros, by rw [padded, ← shape, List.take_append_drop]⟩

theorem readUntilError_step (bytes : Bytes) (found : List (UInt32 × Nat)) (v : UInt32) (rest : Bytes)
    (first : read bytes = (.ok v, rest)) :
    readUntilError bytes found = readUntilError rest ((v, rest.length) :: found) := by
  cases bytes with
  | nil => cases first
  | cons b tail =>
      rw [readUntilError]
      split
      · rename_i w after again
        rw [first] at again
        cases again
        rfl
      · rename_i error after again
        rw [first] at again
        cases again

theorem readUntilError_spell (numbers : List (Nat × UInt32)) (found : List (UInt32 × Nat)) :
    (readUntilError (spell numbers) found).1.map Prod.fst =
        (found.map Prod.fst).reverse ++ numbers.map Prod.snd ∧
      (readUntilError (spell numbers) found).2 = (.endOfInput, 0) := by
  induction numbers generalizing found with
  | nil => simp [spell, readUntilError]
  | cons number numbers ih =>
      rw [spell_cons, readUntilError_step _ _ number.2 _ (read_padded number.1 number.2 _)]
      simpa using ih ((number.2, (spell numbers).length) :: found)

/-- What a reader makes of any bytes. A number is read from the first `k` of them just when these are zero
bytes and its encoding. Reading fails for want of a byte, where the bytes end within a number, or with the
first byte that takes the groups past 32 bits; no byte that it takes overflows the accumulator. So a number has
one shortest spelling, whose length is that of its bits, and encoded numbers are read one after another. -/
theorem read_accepts_padded_encodings (bytes : Bytes) :
    (∀ v k, read bytes = (.ok v, bytes.drop k) ↔
      ∃ zeros, bytes.take k = List.replicate zeros 0 ++ encode v) ∧
    ((read bytes).1 = .error .endOfInput ↔ bytes = []) ∧
    ((read bytes).1 = .error .overflow ↔ ∃ front, front <+: bytes ∧ Overflows front) ∧
    ((read bytes).1 = .error .overflow →
      ∃ front, bytes = front ++ (read bytes).2 ∧ FirstOverflow front bytes) ∧
    ((read bytes).1 = .error .unexpectedEnd ↔
      bytes ≠ [] ∧ (∀ b ∈ bytes, Continues b) ∧ groups bytes ≤ 0xFFFFFFFF) ∧
    (∀ (front rest : Bytes) (b : UInt8), bytes = front ++ b :: rest →
      (read bytes).2.length ≤ rest.length →
      read bytes = readOn (accumulated front) (b :: rest) ∧
      accumulated front * (128 : UInt64) + b.toUInt64 = accumulated front <<< 7 ||| b.toUInt64 ∧
      (accumulated front * 128 + b.toUInt64).toNat = (accumulated front).toNat * 128 + b.toNat ∧
      (accumulated front).toNat = groups front * 2) ∧
    (∀ v, read bytes = (.ok v, []) →
      (encode v).length ≤ bytes.length ∧ (bytes.length = (encode v).length → bytes = encode v)) ∧
    (∀ v, (encode v).length = max 1 ((Nat.size v.toNat + 6) / 7) ∧ (encode v).length ≤ 5) ∧
    ∀ values, (readUntilError (values.flatMap encode) []).1.map Prod.fst = values ∧
      (readUntilError (values.flatMap encode) []).2 = (.endOfInput, 0) := by
  refine ⟨read_takes_iff bytes, read_eq_endOfInput_iff bytes, read_eq_overflow_iff bytes,
    read_takes_firstOverflow bytes, read_eq_unexpectedEnd_iff bytes, ?_,
    fun v => encode_shortest v bytes, fun v => ⟨encode_length_eq v, encode_length_le v⟩, ?_⟩
  · rintro front rest b rfl taken
    have reached := reached_of_taken front rest b taken
    have held := accumulated_toNat front reached
    have fits := reached.fits
    have added := accumulate_toNat (accumulated front) b (by omega)
    refine ⟨?_, ?_, added, held⟩
    · rw [read_eq_readOn _ (by simp), readOn_reached front _ reached]
    · apply UInt64.toNat_inj.mp
      rw [added, accumulated_or front b reached]
  · intro values
    have encoded : spell (values.map (Prod.mk 0)) = values.flatMap encode := by
      rw [spell, List.flatMap_map]
      rfl
    have read := readUntilError_spell (values.map (Prod.mk 0)) []
    rw [encoded] at read
    simpa [Function.comp_def] using read

/-- Behind a zero byte the groups of the largest number, which do not end it: the next byte goes past 32 bits,
though it has bit 0 set. -/
theorem read_accepts_padded_encodings_overlong :
    (read [0, 0x1E, 0xFE, 0xFE, 0xFE, 0xFE, 1, 7]).1 = .error .overflow ∧
      ∃ front, [0, 0x1E, 0xFE, 0xFE, 0xFE, 0xFE, 1, 7] = front ++ [7] ∧
        FirstOverflow front [0, 0x1E, 0xFE, 0xFE, 0xFE, 0xFE, 1, 7] := by
  have failed : read [0, 0x1E, 0xFE, 0xFE, 0xFE, 0xFE, 1, 7] = (.error .overflow, [7]) := by
    decide +kernel
  obtain ⟨-, -, -, taken, -⟩ :=
    read_accepts_padded_encodings [0, 0x1E, 0xFE, 0xFE, 0xFE, 0xFE, 1, 7]
  refine ⟨congrArg Prod.fst failed, ?_⟩
  have first := taken (congrArg Prod.fst failed)
  rwa [failed] at first

end IgaArchive.VarUint

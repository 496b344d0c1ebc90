import IgaArchive.Proofs.Lz4.Search

/-!
Packed blocks. A block whose sequences cover some content reads back to it, since each sequence takes the
output from one place in the content to the next. A block that reads back on its own does so behind any
other output too.
-/

namespace IgaArchive.Lz4.Block

theorem pushAll_eq_append (output : ByteArray) (bytes : Bytes) :
    pushAll output bytes = output ++ Bytes.toByteArray bytes := by
  apply ByteArray.ext
  induction bytes generalizing output with
  | nil => simp [pushAll, Bytes.toByteArray]
  | cons b bytes ih =>
      have rest := ih (output.push b)
      simp only [pushAll, List.foldl_cons] at rest ⊢
      rw [rest]
      simp [Bytes.toByteArray]

theorem push_append (earlier output : ByteArray) (b : UInt8) :
    (earlier ++ output).push b = earlier ++ output.push b := by
  apply ByteArray.ext
  simp

theorem getElem?_append_right (earlier output : ByteArray) (offset : Nat) (positive : offset ≠ 0)
    (within : offset ≤ output.size) :
    (earlier ++ output)[(earlier ++ output).size - offset]? = output[output.size - offset]? := by
  rw [getElem?_pos _ _ (by rw [ByteArray.size_append]; omega), getElem?_pos _ _ (by omega),
    ByteArray.getElem_append_right (by rw [ByteArray.size_append]; omega)]
  congr 2
  rw [ByteArray.size_append]
  omega

/-- A stretch that reaches back into its own block does not see what stands before the block. -/
theorem copyBack_append (earlier output : ByteArray) (offset count : Nat) (positive : offset ≠ 0)
    (within : offset ≤ output.size) :
    copyBack offset count (earlier ++ output) = earlier ++ copyBack offset count output := by
  induction count generalizing output with
  | zero => rfl
  | succ count ih =>
      rw [copyBack, copyBack, getElem?_append_right earlier output offset positive within, push_append]
      exact ih _ (by rw [ByteArray.size_push]; omega)

theorem pushAll_append (earlier output : ByteArray) (bytes : Bytes) :
    pushAll (earlier ++ output) bytes = earlier ++ pushAll output bytes := by
  rw [pushAll_eq_append, pushAll_eq_append, ByteArray.append_assoc]

/-- What is decoded without reaching before its block is decoded behind any other output, with more room
as well. -/
theorem decodeSequences_append (earlier output result : ByteArray) (limit room fuel : Nat)
    (block : Bytes) (enough : limit ≤ room)
    (decoded : decodeSequences 0 limit fuel block output = some result) :
    decodeSequences earlier.size (earlier.size + room) fuel block (earlier ++ output) =
      some (earlier ++ result) := by
  fun_induction decodeSequences 0 limit fuel block output with
  | case1 fuel output =>
      cases decoded
      rw [decodeSequences]
  | case2 => cases decoded
  | case3 fuel token rest output ih =>
      obtain ⟨⟨literalCount, behind⟩, counted, decoded⟩ := Option.bind_eq_some_iff.mp decoded
      simp only [decodeSequences, counted, Option.bind_eq_bind, Option.bind_some] at decoded ⊢
      split at decoded
      · cases decoded
      · rename_i fits
        rw [if_neg (by rw [ByteArray.size_append]; omega), pushAll_append]
        split at decoded
        · split at decoded
          · cases decoded
            rw [if_pos (by assumption)]
          · cases decoded
        · cases decoded
        · -- The offset was checked against this block's own output, so the copy stays inside it.
          obtain ⟨⟨count, later⟩, measured, decoded⟩ := Option.bind_eq_some_iff.mp decoded
          simp only [measured, Option.bind_some] at decoded ⊢
          split at decoded
          · cases decoded
          · rw [if_neg (by rw [ByteArray.size_append]; omega),
              copyBack_append _ _ _ _ (by omega) (by omega)]
            exact ih _ _ _ _ _ decoded

theorem decode_behind (output content : ByteArray) (room wide : Nat) (block : Bytes)
    (enough : room ≤ wide) (decoded : decode 0 room block ByteArray.empty = some content) :
    decode output.size wide block output = some (output ++ content) := by
  rw [decode, ByteArray.size_empty, Nat.zero_add] at decoded
  have behind := decodeSequences_append output _ content room wide _ block enough decoded
  rwa [ByteArray.append_empty] at behind

end IgaArchive.Lz4.Block

namespace IgaArchive.Lz4.Packing

open Block (readLength extendLength copyBack pushAll decodeSequences)

section Length

theorem extendLength_full (length count : Nat) (last : UInt8) (rest : Bytes) (ends : last ≠ 255) :
    extendLength length (List.replicate count 255 ++ last :: rest) =
      some (length + 255 * count + last.toNat, rest) := by
  induction count generalizing length with
  | zero => simp [extendLength, ends]
  | succ count ih =>
      rw [List.replicate_succ, List.cons_append, extendLength, if_pos rfl, ih]
      congr 2
      omega

theorem readLength_lengthBytes (length : Nat) (rest : Bytes) :
    readLength (min length 15) (lengthBytes length ++ rest) = some (length, rest) := by
  rw [readLength, lengthBytes]
  by_cases short : length < 15
  · rw [if_neg (by omega), if_pos short, Nat.min_eq_left (by omega)]
    rfl
  · have part : ((length - 15) % 255).toUInt8.toNat = (length - 15) % 255 := by
      rw [Nat.toUInt8_eq, UInt8.toNat_ofNat']
      omega
    have ends : ((length - 15) % 255).toUInt8 ≠ 255 := by
      intro full
      rw [full] at part
      have bound := Nat.mod_lt (length - 15) (by decide : 255 > 0)
      rw [← part] at bound
      exact absurd bound (by decide)
    rw [if_pos (by omega), if_neg short, List.append_assoc, List.singleton_append,
      extendLength_full 15 _ _ rest ends, part]
    congr 2
    omega

theorem token_fields (literals extra : Nat) :
    (min literals 15 * 16 + min extra 15).toUInt8.toNat / 16 = min literals 15 ∧
      (min literals 15 * 16 + min extra 15).toUInt8.toNat % 16 = min extra 15 := by
  rw [Nat.toUInt8_eq, UInt8.toNat_ofNat']
  omega

end Length

section Content

variable (content : ByteArray)

theorem literalsAt_length (position count : Nat) (inside : position + count ≤ content.size) :
    (literalsAt content position count).length = count := by
  rw [literalsAt, Bytes.ofByteArray, Array.length_toList, ByteArray.size_data, ByteArray.size_extract]
  omega

/-- Literals take the output from one place in the content to the next. -/
theorem pushAll_literalsAt (position count : Nat) :
    pushAll (content.extract 0 position) (literalsAt content position count) =
      content.extract 0 (position + count) := by
  have whole : Bytes.toByteArray (literalsAt content position count) =
      content.extract position (position + count) := rfl
  rw [Block.pushAll_eq_append, whole, ByteArray.extract_append_extract, Nat.zero_min,
    Nat.max_eq_right (Nat.le_add_right _ _)]

theorem push_byte (position : Nat) (inside : position < content.size) :
    (content.extract 0 position).push content[position] = content.extract 0 (position + 1) := by
  rw [ByteArray.extract_eq_extract_append_extract position (Nat.zero_le _) (Nat.le_succ position),
    ByteArray.extract_add_one inside, ByteArray.append_toByteArray_singleton]

/-- A stretch does as well, if it repeats what stands an offset before it. -/
theorem copyBack_repeats (offset start count : Nat) (positive : offset ≠ 0) (within : offset ≤ start)
    (inside : start + count ≤ content.size) (repeats : Repeats content offset start (start + count)) :
    copyBack offset count (content.extract 0 start) = content.extract 0 (start + count) := by
  induction count generalizing start with
  | zero => rfl
  | succ count ih =>
      have size : (content.extract 0 start).size = start := by
        rw [ByteArray.size_extract]
        omega
      have source : (content.extract 0 start)[start - offset]?.getD 0 = content[start - offset] := by
        rw [getElem?_pos _ _ (by omega), Option.getD_some, ByteArray.getElem_extract]
        simp only [Nat.zero_add]
      have same := repeats start (Nat.le_refl _) (by omega)
      rw [byteAt, byteAt, getElem?_pos _ _ (by omega), getElem?_pos _ _ (by omega)] at same
      have byte : content[start] = content[start - offset] := UInt8.toUInt64_inj.mp same
      rw [copyBack, size, source, ← byte, push_byte content start (by omega),
        ih (start + 1) (by omega) (by omega) fun position after before =>
          repeats position (by omega) (by omega)]
      congr 1
      omega

end Content

section Decode

variable (content : ByteArray)

/-- Reading one sequence takes the output from where it starts to where its stretch ends. -/
theorem decodeSequences_renderOne (fuel position : Nat) (sequence : Sequence) (rest : Bytes)
    (stands : sequence.Stands content (position + sequence.literals)) :
    decodeSequences 0 content.size (fuel + 1) (renderOne content position sequence ++ rest)
        (content.extract 0 position) =
      decodeSequences 0 content.size fuel rest
        (content.extract 0 (position + sequence.literals + sequence.length)) := by
  obtain ⟨positive, near, within, long, inside, repeats⟩ := stands
  rw [minMatch] at long
  rw [window] at near
  have size : (content.extract 0 position).size = position := by
    rw [ByteArray.size_extract]
    omega
  have sizeToo : (content.extract 0 (position + sequence.literals)).size =
      position + sequence.literals := by
    rw [ByteArray.size_extract]
    omega
  have literals := literalsAt_length content position sequence.literals (by omega)
  have low : sequence.offset.toUInt8.toNat + 256 * (sequence.offset / 256).toUInt8.toNat =
      sequence.offset := by
    rw [Nat.toUInt8_eq, Nat.toUInt8_eq, UInt8.toNat_ofNat', UInt8.toNat_ofNat']
    omega
  obtain ⟨count, extra⟩ := token_fields sequence.literals (sequence.length - minMatch)
  simp only [renderOne, opening, List.cons_append, List.append_assoc, List.nil_append]
  rw [decodeSequences, count, readLength_lengthBytes]
  simp only [Option.bind_eq_bind, Option.bind_some, List.splitAt_eq, List.take_left' literals,
    List.drop_left' literals, literals, size]
  rw [if_neg (by omega), extra, readLength_lengthBytes, low, pushAll_literalsAt, sizeToo]
  simp only [Option.bind_some]
  rw [if_neg (by rw [minMatch]; omega), minMatch, Nat.sub_add_cancel long,
    copyBack_repeats content _ _ _ positive within inside repeats]

theorem decodeSequences_render (fuel position finish : Nat) (sequences : List Sequence) (rest : Bytes)
    (covers : Covers content position sequences finish) :
    decodeSequences 0 content.size (sequences.length + fuel)
        ((render content position sequences).flatten ++ rest) (content.extract 0 position) =
      decodeSequences 0 content.size fuel rest (content.extract 0 finish) := by
  induction sequences generalizing position with
  | nil =>
      cases covers
      rw [List.length_nil, Nat.zero_add]
      rfl
  | cons sequence sequences ih =>
      rw [List.length_cons, render, List.flatten_cons, List.append_assoc,
        show sequences.length + 1 + fuel = sequences.length + fuel + 1 by omega,
        decodeSequences_renderOne content _ position sequence _ covers.1]
      exact ih _ covers.2

theorem decodeSequences_last (fuel position : Nat) (inside : position ≤ content.size) :
    decodeSequences 0 content.size (fuel + 1)
        (opening (content.size - position) 0 ++ literalsAt content position (content.size - position))
        (content.extract 0 position) = some content := by
  have size : (content.extract 0 position).size = position := by
    rw [ByteArray.size_extract]
    omega
  have literals := literalsAt_length content position (content.size - position) (by omega)
  obtain ⟨count, extra⟩ := token_fields (content.size - position) 0
  simp only [opening, List.cons_append]
  rw [decodeSequences, count, readLength_lengthBytes]
  simp only [Option.bind_eq_bind, Option.bind_some, List.splitAt_eq]
  rw [List.take_of_length_le (Nat.le_of_eq literals), List.drop_of_length_le (Nat.le_of_eq literals),
    literals, size, if_neg (by omega), extra, if_pos (by omega), pushAll_literalsAt,
    Nat.add_sub_cancel' inside, ByteArray.extract_zero_size]

theorem length_render (position : Nat) (sequences : List Sequence) :
    sequences.length ≤ (render content position sequences).flatten.length := by
  induction sequences generalizing position with
  | nil => exact Nat.zero_le _
  | cons sequence sequences ih =>
      have some : 1 ≤ (renderOne content position sequence).length := by
        simp [renderOne, opening]
      rw [render, List.flatten_cons, List.length_append, List.length_cons]
      have rest := ih (position + sequence.literals + sequence.length)
      omega

/-- A packed block reads back to its content and is shorter. -/
theorem pack?_eq_some (packed : Bytes) (packing : pack? content = some packed) :
    Block.decode 0 content.size packed ByteArray.empty = some content ∧ packed ≠ [] ∧
      packed.length < content.size := by
  obtain ⟨covers, inside⟩ := search_covers content
  rw [pack?] at packing
  generalize search content = searched at packing covers inside
  obtain ⟨sequences, anchor⟩ := searched
  obtain ⟨shorter, same⟩ := Option.ite_none_right_eq_some.mp packing
  cases same
  refine ⟨?_, by simp [opening], shorter⟩
  have few := length_render content 0 sequences
  have start : ByteArray.empty = content.extract 0 0 := ByteArray.extract_same.symm
  rw [Block.decode, ByteArray.size_empty, Nat.zero_add, List.append_assoc]
  -- Every sequence takes a byte, and the literals at the end one more.
  have more : sequences.length + 1 ≤ ((render content 0 sequences).flatten ++
      (opening (content.size - anchor) 0 ++ literalsAt content anchor (content.size - anchor))).length := by
    simp only [List.length_append, opening, List.length_cons]
    omega
  obtain ⟨fuel, enough⟩ := Nat.exists_eq_add_of_le more
  rw [Nat.add_assoc, Nat.add_comm 1] at enough
  rw [enough, start, decodeSequences_render content _ _ _ _ _ covers,
    decodeSequences_last content _ _ inside]

end Decode

end IgaArchive.Lz4.Packing

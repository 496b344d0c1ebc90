import IgaArchive.Lz4.Frame
import IgaArchive.Proofs.Lz4.Packing
import IgaArchive.Proofs.Result

/-!
What a frame holds, and what a limited reading makes of it. The content of a frame is that of all its blocks,
none of which may exceed the maximum that the frame gives. A reading that stops early gets the whole content
if there is room for it, and else as much as it was to stop at.
-/

namespace IgaArchive.Lz4.Block

theorem decodeSequences_wider (oldest limit wide fuel : Nat) (block : Bytes) (output result : ByteArray)
    (wider : limit ≤ wide) (decoded : decodeSequences oldest limit fuel block output = some result) :
    decodeSequences oldest wide fuel block output = some result := by
  fun_induction decodeSequences oldest limit fuel block output with
  | case1 fuel output =>
      cases decoded
      rw [decodeSequences]
  | case2 => cases decoded
  | case3 fuel token rest output ih =>
      obtain ⟨⟨literalCount, behind⟩, counted, decoded⟩ := Option.bind_eq_some_iff.mp decoded
      simp only [decodeSequences, counted, Option.bind_eq_bind, Option.bind_some] at decoded ⊢
      split at decoded
      · cases decoded
      · rw [if_neg (by omega)]
        split at decoded
        · exact decoded
        · cases decoded
        · obtain ⟨⟨count, later⟩, measured, decoded⟩ := Option.bind_eq_some_iff.mp decoded
          simp only [measured, Option.bind_some] at decoded ⊢
          split at decoded
          · cases decoded
          · rw [if_neg (by omega)]
            exact ih _ _ _ _ _ decoded

theorem decode_wider (oldest room wide : Nat) (block : Bytes) (output result : ByteArray)
    (wider : room ≤ wide) (decoded : decode oldest room block output = some result) :
    decode oldest wide block output = some result :=
  decodeSequences_wider _ _ _ _ _ _ _ (Nat.add_le_add_left wider _) decoded

theorem size_pushAll (output : ByteArray) (bytes : Bytes) :
    (pushAll output bytes).size = output.size + bytes.length := by
  induction bytes generalizing output with
  | nil => rfl
  | cons b bytes ih =>
      have rest := ih (output.push b)
      rw [ByteArray.size_push] at rest
      rw [List.length_cons, pushAll, List.foldl_cons]
      rw [pushAll] at rest
      omega

theorem size_copyBack (offset count : Nat) (output : ByteArray) :
    (copyBack offset count output).size = output.size + count := by
  induction count generalizing output with
  | zero => rfl
  | succ count ih =>
      rw [copyBack, ih, ByteArray.size_push]
      omega

theorem decodeSequences_grows (oldest limit fuel : Nat) (block : Bytes) (output result : ByteArray)
    (decoded : decodeSequences oldest limit fuel block output = some result) :
    output.size ≤ result.size := by
  fun_induction decodeSequences oldest limit fuel block output with
  | case1 fuel output =>
      cases decoded
      exact Nat.le_refl _
  | case2 => cases decoded
  | case3 fuel token rest output ih =>
      obtain ⟨⟨literalCount, behind⟩, counted, decoded⟩ := Option.bind_eq_some_iff.mp decoded
      simp only at decoded
      have literals := size_pushAll output (behind.splitAt literalCount).1
      split at decoded
      · cases decoded
      · split at decoded
        · split at decoded
          · cases decoded
            omega
          · cases decoded
        · cases decoded
        · obtain ⟨⟨count, later⟩, measured, decoded⟩ := Option.bind_eq_some_iff.mp decoded
          simp only at decoded
          split at decoded
          · cases decoded
          · have rest := ih _ _ _ _ _ decoded
            rw [size_copyBack] at rest
            omega

end IgaArchive.Lz4.Block

namespace IgaArchive.Lz4

/-- What all blocks of a frame add to an output, each of them within the maximum of the frame. -/
def contentBlocks (descriptor : Descriptor) :
    (fuel : Nat) → Bytes → ByteArray → Except Error ByteArray
  | 0, _, output => .ok output
  | fuel + 1, bytes, output => do
    match ← readBlock descriptor bytes with
    | (.nothing, _) => return output
    | (.endMark, rest) => checkContent descriptor rest output
    | (.block block, rest) =>
      contentBlocks descriptor fuel rest (← unpackBlock descriptor 0 block output)

/-- The content of the frame whose magic bytes have been taken off, however long it is. -/
def content (bytes : Bytes) : Except Error Bytes := do
  match ← readDescriptor bytes with
  | none => return []
  | some (descriptor, rest) =>
    let output ← contentBlocks descriptor (rest.length + 1) rest ByteArray.empty
    return Bytes.ofByteArray output

theorem blockRoom_zero (blockMax produced : Nat) : blockRoom blockMax 0 produced = blockMax := by
  simp [blockRoom]

/-- The output with what a block adds to it, whether or not the checksum agrees. -/
def extended? (descriptor : Descriptor) (stop : Nat) (block : StoredBlock) (output : ByteArray) :
    Option ByteArray :=
  if block.packed then
    Block.decode (if descriptor.independent then output.size else 0)
      (blockRoom descriptor.blockMax stop output.size) block.body output
  else some (Block.pushAll output block.body)

def verified (checksum : Option UInt32) (start : Nat) (found : ByteArray) : Except Error ByteArray :=
  match checksum with
  | none => .ok found
  | some stored =>
    if XxHash32.checksum (Bytes.ofByteArray (found.extract start found.size)) = stored then .ok found
    else .error (.blockChecksum
      (XxHash32.checksum (Bytes.ofByteArray (found.extract start found.size))) stored)

theorem verified_eq_ok (checksum : Option UInt32) (start : Nat) (found result : ByteArray) :
    verified checksum start found = .ok result ↔
      found = result ∧ ∀ stored, checksum = some stored →
        XxHash32.checksum (Bytes.ofByteArray (result.extract start result.size)) = stored := by
  cases checksum with
  | none => simp [verified]
  | some stored =>
      simp only [verified, Option.some.injEq, forall_eq']
      split
      · rename_i same
        rw [Except.ok.injEq]
        exact ⟨fun here => ⟨here, here ▸ same⟩, And.left⟩
      · rename_i differs
        simp only [reduceCtorEq, false_iff]
        rintro ⟨rfl, same⟩
        exact absurd same differs

theorem unpackBlock_eq_ok (descriptor : Descriptor) (stop : Nat) (block : StoredBlock)
    (output result : ByteArray) :
    unpackBlock descriptor stop block output = .ok result ↔
      extended? descriptor stop block output = some result ∧
        ∀ stored, block.checksum = some stored →
          XxHash32.checksum (Bytes.ofByteArray (result.extract output.size result.size)) = stored := by
  rw [unpackBlock, extended?]
  split
  · cases Block.decode (if descriptor.independent then output.size else 0)
        (blockRoom descriptor.blockMax stop output.size) block.body output with
    | none => simp [bind, Except.bind, throw, throwThe, MonadExceptOf.throw]
    | some found =>
        rw [Option.some.injEq]
        exact verified_eq_ok block.checksum output.size found result
  · rw [Option.some.injEq]
    exact verified_eq_ok block.checksum output.size _ result

/-- A block that keeps to the maximum is unpacked the same whatever buffer receives it. -/
theorem unpackBlock_of_zero (descriptor : Descriptor) (stop : Nat) (block : StoredBlock)
    (output result : ByteArray) (unpacked : unpackBlock descriptor 0 block output = .ok result) :
    unpackBlock descriptor stop block output = .ok result := by
  rw [unpackBlock_eq_ok] at unpacked ⊢
  refine ⟨?_, unpacked.2⟩
  have found := unpacked.1
  rw [extended?] at found ⊢
  split
  · rename_i packed
    rw [if_pos packed, blockRoom_zero] at found
    exact Block.decode_wider _ _ _ _ _ _ (Nat.le_max_left _ _) found
  · rename_i stored
    rwa [if_neg stored] at found

theorem unpackBlock_grows (descriptor : Descriptor) (stop : Nat) (block : StoredBlock)
    (output result : ByteArray) (unpacked : unpackBlock descriptor stop block output = .ok result) :
    output.size ≤ result.size := by
  obtain ⟨found, _⟩ := (unpackBlock_eq_ok _ _ _ _ _).mp unpacked
  rw [extended?] at found
  split at found
  · exact Block.decodeSequences_grows _ _ _ _ _ _ found
  · cases found
    rw [Block.size_pushAll]
    omega

theorem checkContent_eq_ok (descriptor : Descriptor) (bytes : Bytes) (output result : ByteArray)
    (checked : checkContent descriptor bytes output = .ok result) : result = output := by
  rw [checkContent] at checked
  split at checked
  · obtain ⟨word, _, comparing⟩ := Result.bind_eq_ok checked
    cases word with
    | none => exact (Except.ok.inj comparing).symm
    | some stored =>
        simp only at comparing
        split at comparing
        · exact (Except.ok.inj comparing).symm
        · cases comparing
  · exact (Except.ok.inj checked).symm

theorem contentBlocks_grows (descriptor : Descriptor) (fuel : Nat) (bytes : Bytes)
    (output result : ByteArray) (found : contentBlocks descriptor fuel bytes output = .ok result) :
    output.size ≤ result.size := by
  induction fuel generalizing bytes output with
  | zero =>
      cases found
      exact Nat.le_refl _
  | succ fuel ih =>
      rw [contentBlocks] at found
      obtain ⟨⟨item, rest⟩, _, found⟩ := Result.bind_eq_ok found
      cases item with
      | nothing =>
          cases found
          exact Nat.le_refl _
      | endMark =>
          obtain rfl := checkContent_eq_ok descriptor rest output result found
          exact Nat.le_refl _
      | block block =>
          obtain ⟨next, unpacked, found⟩ := Result.bind_eq_ok found
          exact Nat.le_trans (unpackBlock_grows descriptor 0 block output next unpacked)
            (ih rest next found)

/-- What a reading that stops early gets of some content: all of it, or as much as it stops at. -/
def Reads (stop : Nat) (whole part : ByteArray) : Prop :=
  if whole.size < stop then part = whole else stop ≤ part.size

theorem Reads.whole (stop : Nat) (whole : ByteArray) : Reads stop whole whole := by
  rw [Reads]
  split
  · rfl
  · omega

theorem Reads.stopped {stop : Nat} {whole part : ByteArray} (enough : stop ≤ part.size)
    (inside : part.size ≤ whole.size) : Reads stop whole part := by
  rw [Reads, if_neg (by omega)]
  exact enough

/-- Each block that both readings take is the same for them, so they part only at the stop. -/
theorem unpackBlocks_of_content (descriptor : Descriptor) (stop fuel : Nat) (bytes : Bytes)
    (output whole : ByteArray) (found : contentBlocks descriptor fuel bytes output = .ok whole) :
    ∃ part, unpackBlocks descriptor stop fuel bytes output = .ok part ∧ Reads stop whole part := by
  induction fuel generalizing bytes output with
  | zero =>
      cases found
      exact ⟨whole, rfl, .whole stop whole⟩
  | succ fuel ih =>
      by_cases enough : stop ≤ output.size
      · refine ⟨output, by rw [unpackBlocks, if_pos enough]; rfl, .stopped enough ?_⟩
        exact contentBlocks_grows descriptor (fuel + 1) bytes output whole found
      · rw [contentBlocks] at found
        rw [unpackBlocks, if_neg enough]
        obtain ⟨⟨item, rest⟩, read, found⟩ := Result.bind_eq_ok found
        simp only [read, bind, Except.bind]
        cases item with
        | nothing =>
            cases found
            exact ⟨whole, rfl, .whole stop whole⟩
        | endMark => exact ⟨whole, found, .whole stop whole⟩
        | block block =>
            obtain ⟨next, unpacked, found⟩ := Result.bind_eq_ok found
            simp only [unpackBlock_of_zero descriptor stop block output next unpacked]
            exact ih rest next found

theorem unpack_of_content (stop : Nat) (bytes whole : Bytes) (found : content bytes = .ok whole) :
    ∃ part, unpack stop bytes = .ok part ∧
      if whole.length < stop then part = whole else stop ≤ part.length := by
  rw [content] at found
  obtain ⟨opening, read, found⟩ := Result.bind_eq_ok found
  rw [unpack]
  simp only [read, bind, Except.bind]
  cases opening with
  | none =>
      cases found
      refine ⟨[], rfl, ?_⟩
      split <;> simp_all
  | some opening =>
      obtain ⟨descriptor, rest⟩ := opening
      obtain ⟨output, blocks, found⟩ := Result.bind_eq_ok found
      cases found
      obtain ⟨part, unpacked, reads⟩ := unpackBlocks_of_content descriptor stop _ rest _ output blocks
      have length : ∀ output : ByteArray, (Bytes.ofByteArray output).length = output.size := by
        intro output
        simp [Bytes.ofByteArray]
      simp only [unpacked]
      refine ⟨_, rfl, ?_⟩
      rw [length, length]
      rw [Reads] at reads
      split
      · rename_i short
        rw [if_pos short] at reads
        rw [reads]
      · rename_i long
        rwa [if_neg long] at reads

end IgaArchive.Lz4

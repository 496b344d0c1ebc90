import IgaArchive.Lz4.Writer
import IgaArchive.Proofs.Lz4.Content

/-!
Written frames. However content is cut into writes, what the writer hands on, together with what it hands
on at the close, is a frame of all of the content.
-/

namespace IgaArchive.Word

theorem ofBytesLE_bytes (w : UInt32) :
    ofBytesLE w.toUInt8 (w >>> 8).toUInt8 (w >>> 16).toUInt8 (w >>> 24).toUInt8 = w := by
  apply UInt32.toBitVec_inj.mp
  apply BitVec.eq_of_getLsbD_eq
  intro i inside
  simp only [ofBytesLE, UInt32.toBitVec_or, UInt32.toBitVec_shiftLeft, UInt8.toBitVec_toUInt32,
    UInt32.toBitVec_toUInt8, UInt32.toBitVec_shiftRight, BitVec.getLsbD_or]
  simp [BitVec.getLsbD_setWidth, -BitVec.setWidth_setWidth]
  grind

theorem readLE?_bytesLE (w : UInt32) (rest : Bytes) :
    readLE? (bytesLE w ++ rest) = some (w, rest) := by
  simp [readLE?, bytesLE, ofBytesLE_bytes]

end IgaArchive.Word

namespace IgaArchive.Lz4

theorem takeItem_append (item rest : Bytes) (count : Nat) (length : item.length = count) :
    takeItem count (item ++ rest) = .ok (some (item, rest)) := by
  subst length
  simp [takeItem]

theorem takeWord_append (w : UInt32) (rest : Bytes) :
    takeWord (Word.bytesLE w ++ rest) = .ok (some (w, rest)) := by
  have read := Word.readLE?_bytesLE w []
  rw [List.append_nil] at read
  rw [takeWord, takeItem_append _ _ 4 rfl]
  simp [bind, Except.bind, pure, Except.pure, read]

def written : Descriptor where
  independent := true
  blockChecksums := false
  contentChecksum := true
  blockMax := writtenBlock

theorem ofFields_written :
    Descriptor.ofFields [0x64, 0x70] (headerChecksum [0x64, 0x70]) = .ok written := by
  rw [Descriptor.ofFields, if_neg (fun differ => differ rfl)]
  rfl

theorem readDescriptor_written (rest : Bytes) :
    readDescriptor (frameStart.drop 4 ++ rest) = .ok (some (written, rest)) := by
  have start : frameStart.drop 4 = [0x64, 0x70, headerChecksum [0x64, 0x70]] := rfl
  have short : bit 0x64 3 = false := by decide
  rw [readDescriptor, start, takeItem_append _ _ 3 rfl]
  simp [bind, Except.bind, pure, Except.pure, short, ofFields_written]

/-- A block is read by its size, which has its top bit set for a block that is stored as it is. -/
theorem readBlock_word (word : UInt32) (packed : Bool) (body rest : Bytes)
    (size : word.toNat = body.length + if packed then 0 else 0x80000000) (some : body ≠ [])
    (fits : body.length ≤ writtenBlock) :
    readBlock written (Word.bytesLE word ++ (body ++ rest)) =
      .ok (.block ⟨packed, body, none⟩, rest) := by
  have positive := List.length_pos_iff.mpr some
  have near : ¬ written.blockMax < body.length := Nat.not_lt.mpr fits
  have unchecked : written.blockChecksums = false := rfl
  rw [writtenBlock] at fits
  have mark : word ≠ 0 := by
    intro zero
    rw [zero, UInt32.toNat_zero] at size
    omega
  have length : word.toNat % 0x80000000 = body.length := by
    rw [size]
    split <;> omega
  have kind : decide (word.toNat < 0x80000000) = packed := by
    rw [size]
    cases packed with
    | false => exact decide_eq_false (by simp only [Bool.false_eq_true, if_false]; omega)
    | true => exact decide_eq_true (by simp only [if_true]; omega)
  rw [readBlock, takeWord_append]
  simp [bind, Except.bind, pure, Except.pure, length, near, unchecked, mark, kind,
    takeItem_append body rest _ rfl]

theorem toNat_storedSize (size : Nat) (fits : size ≤ writtenBlock) :
    (size.toUInt32 ||| 0x80000000).toNat = size + 0x80000000 := by
  rw [writtenBlock] at fits
  have small : size % 2 ^ 32 = size := Nat.mod_eq_of_lt (by omega)
  have top : (0x80000000 : UInt32).toNat = 2 ^ 31 * 1 := rfl
  rw [UInt32.toNat_or, Nat.toUInt32_eq, UInt32.toNat_ofNat', small, Nat.or_comm, top,
    ← Nat.two_pow_add_eq_or_of_lt (by omega) 1]
  omega

theorem unpackBlock_packed (packed : Bytes) (content : ByteArray) (stop : Nat) (output : ByteArray)
    (fits : content.size ≤ writtenBlock)
    (decoded : Block.decode 0 content.size packed ByteArray.empty = some content) :
    unpackBlock written stop ⟨true, packed, none⟩ output = .ok (output ++ content) := by
  have room : content.size ≤ blockRoom written.blockMax stop output.size :=
    Nat.le_trans fits (Nat.le_max_left _ _)
  have behind := Block.decode_behind output content _ _ packed room decoded
  have apart : written.independent = true := rfl
  simp [unpackBlock, apart, behind, bind, Except.bind, pure, Except.pure]

theorem unpackBlock_stored (content : ByteArray) (stop : Nat) (output : ByteArray) :
    unpackBlock written stop ⟨false, Bytes.ofByteArray content, none⟩ output =
      .ok (output ++ content) := by
  simp [unpackBlock, Block.pushAll_eq_append, Bytes.toByteArray, Bytes.ofByteArray, bind,
    Except.bind, pure, Except.pure]

/-- A written block is read whole, and what it unpacks to is its content, whatever was unpacked
before. -/
theorem readBlock_block (content : ByteArray) (rest : Bytes) (some : 0 < content.size)
    (fits : content.size ≤ writtenBlock) :
    ∃ stored, readBlock written ((block content).flatten ++ rest) = .ok (.block stored, rest) ∧
      ∀ stop output, unpackBlock written stop stored output = .ok (output ++ content) := by
  rw [block]
  cases packing : Packing.pack? content with
  | some packed =>
      obtain ⟨decoded, nonempty, shorter⟩ := Packing.pack?_eq_some content packed packing
      have size : packed.length.toUInt32.toNat = packed.length := by
        rw [writtenBlock] at fits
        rw [Nat.toUInt32_eq, UInt32.toNat_ofNat']
        omega
      refine ⟨⟨true, packed, none⟩, ?_, ?_⟩
      · rw [List.flatten_cons, List.flatten_singleton, List.append_assoc]
        exact readBlock_word _ true packed rest size nonempty (by omega)
      · intro stop output
        exact unpackBlock_packed packed content stop output fits decoded
  | none =>
      have length : (Bytes.ofByteArray content).length = content.size := by
        simp [Bytes.ofByteArray]
      refine ⟨⟨false, Bytes.ofByteArray content, none⟩, ?_, ?_⟩
      · have size := toNat_storedSize content.size fits
        rw [← length] at size some fits
        rw [List.flatten_cons, List.flatten_singleton, List.append_assoc, ← length]
        exact readBlock_word _ false _ rest size (List.length_pos_iff.mp some) fits
      · intro stop output
        exact unpackBlock_stored content stop output

theorem readBlock_endMark (rest : Bytes) :
    readBlock written ([0, 0, 0, 0] ++ rest) = .ok (.endMark, rest) := by
  have mark : [0, 0, 0, 0] = Word.bytesLE 0 := by decide
  rw [readBlock, mark, takeWord_append]
  rfl

theorem ok_bind {α β : Type} (a : α) (next : α → Except Error β) : Except.ok a >>= next = next a :=
  rfl

theorem checkContent_checksum (content : ByteArray) (sum : UInt32)
    (same : XxHash32.checksum (Bytes.ofByteArray content) = sum) :
    checkContent written (Word.bytesLE sum) content = .ok content := by
  have word := takeWord_append sum []
  have checked : written.contentChecksum = true := rfl
  rw [List.append_nil] at word
  -- Rewriting takes the word out of the `do` block; to unfold it would compute the checksum.
  rw [checkContent, if_pos checked, word, ok_bind]
  exact if_pos same

def Cuttable (piece : ByteArray) : Prop :=
  0 < piece.size ∧ piece.size ≤ writtenBlock

def blocks (pieces : List ByteArray) : Bytes :=
  pieces.flatMap fun piece => (block piece).flatten

def joined (output : ByteArray) (pieces : List ByteArray) : ByteArray :=
  pieces.foldl (· ++ ·) output

theorem length_le_blocks (pieces : List ByteArray) : pieces.length ≤ (blocks pieces).length := by
  induction pieces with
  | nil => exact Nat.le_refl _
  | cons piece pieces ih =>
      have some : 0 < (block piece).flatten.length := by
        rw [block]
        split <;> simp [Word.bytesLE]
      rw [blocks, List.flatMap_cons, List.length_append, List.length_cons]
      rw [blocks] at ih
      omega

theorem contentBlocks_blocks (pieces : List ByteArray) (fuel : Nat) (rest : Bytes) (output : ByteArray)
    (cuttable : ∀ piece ∈ pieces, Cuttable piece) :
    contentBlocks written (pieces.length + fuel) (blocks pieces ++ rest) output =
      contentBlocks written fuel rest (joined output pieces) := by
  induction pieces generalizing output with
  | nil =>
      rw [List.length_nil, Nat.zero_add]
      rfl
  | cons piece pieces ih =>
      have first := cuttable piece List.mem_cons_self
      obtain ⟨stored, read, unpacked⟩ :=
        readBlock_block piece (blocks pieces ++ rest) first.1 first.2
      have later := ih (output ++ piece)
        (fun other inside => cuttable other (List.mem_cons_of_mem _ inside))
      have shape : blocks (piece :: pieces) ++ rest =
          (block piece).flatten ++ (blocks pieces ++ rest) := by
        rw [blocks, List.flatMap_cons, List.append_assoc]
        rfl
      rw [List.length_cons, Nat.add_right_comm, contentBlocks, shape, read]
      simp only [bind, Except.bind, unpacked]
      exact later

def frameEnd (content : ByteArray) : Bytes :=
  [0, 0, 0, 0] ++ Word.bytesLE (XxHash32.checksum (Bytes.ofByteArray content))

theorem contentBlocks_frameEnd (fuel : Nat) (content : ByteArray) :
    contentBlocks written (fuel + 1) (frameEnd content) content = .ok content := by
  rw [contentBlocks, frameEnd, readBlock_endMark, ok_bind]
  exact checkContent_checksum content _ rfl

theorem content_frame (pieces : List ByteArray) (cuttable : ∀ piece ∈ pieces, Cuttable piece) :
    content ((frameStart ++ blocks pieces ++ frameEnd (joined ByteArray.empty pieces)).drop 4) =
      .ok (Bytes.ofByteArray (joined ByteArray.empty pieces)) := by
  have start : (frameStart ++ blocks pieces ++ frameEnd (joined ByteArray.empty pieces)).drop 4 =
      frameStart.drop 4 ++ (blocks pieces ++ frameEnd (joined ByteArray.empty pieces)) := by
    rw [List.append_assoc]
    rfl
  have enough := length_le_blocks pieces
  obtain ⟨spare, fuel⟩ : ∃ spare, (blocks pieces ++
      frameEnd (joined ByteArray.empty pieces)).length + 1 = pieces.length + (spare + 1) := by
    refine ⟨(blocks pieces ++ frameEnd (joined ByteArray.empty pieces)).length - pieces.length, ?_⟩
    rw [List.length_append]
    omega
  -- There is fuel for a byte each, and every block takes more than one.
  rw [content, start, readDescriptor_written]
  simp only [bind, Except.bind]
  rw [fuel, contentBlocks_blocks pieces _ _ _ cuttable, contentBlocks_frameEnd]
  rfl

namespace Writer

/-- What a writer has handed on: the start of a frame, once it was written to, and the blocks of the
content it has finished. -/
structure Wrote (writer : Writer) (stream : Bytes) : Prop where
  within : writer.finished ≤ writer.content.size
  begun : writer.started = false → writer.content = ByteArray.empty
  split : ∃ pieces, (∀ piece ∈ pieces, Cuttable piece) ∧
    joined ByteArray.empty pieces = writer.content.extract 0 writer.finished ∧
    stream ++ (if writer.started then [] else frameStart) = frameStart ++ blocks pieces

theorem wrote_nothing : Wrote {} [] :=
  ⟨Nat.le_refl _, fun _ => rfl, [], nofun, by simp [joined], by simp [blocks]⟩

theorem cut_wrote (writer : Writer) (stream : Bytes) (length : Nat) (started : writer.started = true)
    (wrote : writer.Wrote stream) (positive : 0 < length) (fits : length ≤ writtenBlock)
    (room : writer.finished + length ≤ writer.content.size) :
    (writer.cut length).2.Wrote (stream ++ (writer.cut length).1.flatten) := by
  obtain ⟨pieces, cuttable, finished, shape⟩ := wrote.split
  have piece : Cuttable (writer.content.extract writer.finished (writer.finished + length)) := by
    rw [Cuttable, ByteArray.size_extract]
    omega
  rw [if_pos started, List.append_nil] at shape
  refine ⟨room, ?_, pieces ++ [writer.content.extract writer.finished (writer.finished + length)],
    ?_, ?_, ?_⟩
  · intro never
    exact absurd (started.symm.trans never) nofun
  · intro other inside
    rcases List.mem_append.mp inside with earlier | last
    · exact cuttable other earlier
    · rw [List.mem_singleton.mp last]
      exact piece
  · rw [joined, List.foldl_append]
    rw [joined] at finished
    rw [finished]
    exact (ByteArray.extract_eq_extract_append_extract _ (Nat.zero_le _) (Nat.le_add_right _ _)).symm
  · simp [cut, started, shape, blocks]

theorem cutFull_long (fuel : Nat) (writer : Writer)
    (long : ¬ writer.content.size < writer.finished + writtenBlock) :
    cutFull (fuel + 1) writer =
      ((writer.cut writtenBlock).1 ++ (cutFull fuel (writer.cut writtenBlock).2).1,
        (cutFull fuel (writer.cut writtenBlock).2).2) := by
  rw [cutFull, if_neg long]

/-- What is left once the full blocks are finished: all of the content is kept, and less than a block of
it waits. -/
structure Settled (before : Writer) (stream : Bytes) (after : Writer) : Prop where
  wrote : after.Wrote stream
  content : after.content = before.content
  short : after.content.size < after.finished + writtenBlock

theorem cutFull_settled (fuel : Nat) (writer : Writer) (stream : Bytes)
    (started : writer.started = true) (wrote : writer.Wrote stream)
    (enough : writer.content.size < writer.finished + (fuel + 1) * writtenBlock) :
    writer.Settled (stream ++ (cutFull fuel writer).1.flatten) (cutFull fuel writer).2 := by
  induction fuel generalizing writer stream with
  | zero =>
      rw [Nat.zero_add, Nat.one_mul] at enough
      exact ⟨by simpa [cutFull] using wrote, rfl, enough⟩
  | succ fuel ih =>
      by_cases short : writer.content.size < writer.finished + writtenBlock
      · rw [cutFull, if_pos short]
        exact ⟨by simpa using wrote, rfl, short⟩
      · have step := cut_wrote writer stream writtenBlock started wrote (by decide) (Nat.le_refl _)
          (by omega)
        have near : writer.content.size <
            writer.finished + writtenBlock + (fuel + 1) * writtenBlock := by
          rw [Nat.add_mul] at enough
          omega
        have rest := ih (writer.cut writtenBlock).2 _ started step near
        rw [cutFull_long fuel writer short, List.flatten_append, ← List.append_assoc]
        exact ⟨rest.wrote, rest.content, rest.short⟩

def grown (writer : Writer) (bytes : Bytes) : Writer :=
  { writer with started := true, content := Block.pushAll writer.content bytes }

theorem grown_wrote (writer : Writer) (stream bytes : Bytes) (wrote : writer.Wrote stream) :
    (writer.grown bytes).Wrote (stream ++ if writer.started then [] else frameStart) := by
  obtain ⟨pieces, cuttable, finished, shape⟩ := wrote.split
  have within := wrote.within
  have content : (writer.grown bytes).content = writer.content ++ Bytes.toByteArray bytes :=
    Block.pushAll_eq_append _ _
  have started : (writer.grown bytes).started = true := rfl
  refine ⟨?_, nofun, pieces, cuttable, ?_, ?_⟩
  · rw [content, ByteArray.size_append]
    exact Nat.le_trans within (Nat.le_add_right _ _)
  · have behind : writer.finished - writer.content.size = 0 := Nat.sub_eq_zero_of_le within
    rw [content, finished, ByteArray.extract_append]
    simp [grown, behind]
  · rw [shape, if_pos started, List.append_nil]

/-- A write takes all bytes into the content and hands on the blocks that this fills. -/
theorem write_settled (writer : Writer) (stream bytes : Bytes) (wrote : writer.Wrote stream) :
    (writer.grown bytes).Settled (stream ++ (writer.write bytes).1.flatten) (writer.write bytes).2 := by
  have enough : (writer.grown bytes).content.size < (writer.grown bytes).finished +
      ((writer.grown bytes).content.size / writtenBlock + 1) * writtenBlock := by
    have whole := Nat.div_add_mod (writer.grown bytes).content.size writtenBlock
    have left := Nat.mod_lt (writer.grown bytes).content.size (show 0 < writtenBlock by decide)
    rw [Nat.add_mul, Nat.one_mul, Nat.mul_comm _ writtenBlock]
    omega
  have settled := cutFull_settled _ _ _ rfl (grown_wrote writer stream bytes wrote) enough
  have parts : (writer.write bytes).1 = (if writer.started then [] else [frameStart]) ++
      (cutFull ((writer.grown bytes).content.size / writtenBlock) (writer.grown bytes)).1 := rfl
  have opening : (if writer.started then [] else [frameStart]).flatten =
      if writer.started then [] else frameStart := by
    split <;> simp
  rw [parts, List.flatten_append, opening, ← List.append_assoc]
  exact settled

theorem content_finished (writer : Writer) (stream : Bytes) (wrote : writer.Wrote stream)
    (started : writer.started = true) (finished : writer.finished = writer.content.size) :
    (stream ++ frameEnd writer.content).take 4 = magic ∧
      Lz4.content ((stream ++ frameEnd writer.content).drop 4) =
        .ok (Bytes.ofByteArray writer.content) := by
  obtain ⟨pieces, cuttable, content, shape⟩ := wrote.split
  rw [finished, ByteArray.extract_zero_size] at content
  rw [if_pos started, List.append_nil] at shape
  rw [shape, ← content]
  refine ⟨?_, content_frame pieces cuttable⟩
  rw [List.append_assoc]
  rfl

theorem close_content (writer : Writer) (stream : Bytes) (wrote : writer.Wrote stream)
    (started : writer.started = true)
    (short : writer.content.size < writer.finished + writtenBlock) :
    (stream ++ writer.close.flatten).take 4 = magic ∧
      Lz4.content ((stream ++ writer.close.flatten).drop 4) =
        .ok (Bytes.ofByteArray writer.content) := by
  have within := wrote.within
  by_cases nothing : writer.content.size - writer.finished = 0
  · have closing : writer.close.flatten = frameEnd writer.content := by
      rw [close, if_pos nothing, List.nil_append, List.flatten_singleton]
      rfl
    rw [closing]
    exact content_finished writer stream wrote started (by omega)
  · have closing : writer.close.flatten =
        (writer.cut (writer.content.size - writer.finished)).1.flatten ++ frameEnd writer.content := by
      rw [close, if_neg nothing, List.flatten_append, List.flatten_singleton]
      rfl
    have last := cut_wrote writer stream _ started wrote (by omega) (by omega)
      (Nat.le_of_eq (Nat.add_sub_cancel' within))
    rw [closing, ← List.append_assoc]
    exact content_finished (writer.cut (writer.content.size - writer.finished)).2 _ last started
      (Nat.add_sub_cancel' within)

end Writer

end IgaArchive.Lz4

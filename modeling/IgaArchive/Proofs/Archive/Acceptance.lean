import IgaArchive.Proofs.Archive.Framing

/-!
How many of the bytes offered to an output it takes: never more than there are, and all of them unless it
fails. In a frame, bytes are taken block by block, and a block that could not be handed on was full.
-/

namespace IgaArchive.Lz4

theorem block_length (content : ByteArray) : (block content).length = 2 := by
  rw [block]
  split <;> rfl

namespace Writer

theorem cutFull_length (fuel : Nat) (writer : Writer) (within : writer.finished ≤ writer.content.size) :
    ∃ blocks, (cutFull fuel writer).1.length = 2 * blocks ∧
      writer.finished + blocks * writtenBlock ≤ writer.content.size := by
  induction fuel generalizing writer with
  | zero => exact ⟨0, rfl, by omega⟩
  | succ fuel ih =>
      by_cases short : writer.content.size < writer.finished + writtenBlock
      · rw [cutFull, if_pos short]
        exact ⟨0, rfl, by omega⟩
      · have stop : (writer.cut writtenBlock).2.finished = writer.finished + writtenBlock := rfl
        have same : (writer.cut writtenBlock).2.content = writer.content := rfl
        have two : (writer.cut writtenBlock).1.length = 2 := block_length _
        obtain ⟨blocks, count, room⟩ := ih (writer.cut writtenBlock).2 (by rw [stop, same]; omega)
        rw [stop, same] at room
        refine ⟨blocks + 1, ?_, ?_⟩
        · rw [cutFull_long fuel writer short, List.length_append, two, count]
          omega
        · rw [Nat.add_mul]
          omega

theorem takenUntil_le (writer : Writer) (stream bytes : Bytes) (handedOn : Nat)
    (wrote : writer.Wrote stream) (early : handedOn < (writer.write bytes).1.length) :
    writer.takenUntil handedOn ≤ bytes.length := by
  have within := wrote.within
  have size : (writer.grown bytes).content.size = writer.content.size + bytes.length := by
    rw [grown, Block.pushAll_eq_append, ByteArray.size_append]
    exact congrArg _ List.size_toArray
  obtain ⟨blocks, count, room⟩ := cutFull_length ((writer.grown bytes).content.size / writtenBlock)
    (writer.grown bytes) (by rw [size]; exact Nat.le_trans within (Nat.le_add_right _ _))
  have parts : (writer.write bytes).1 = (if writer.started then [] else [frameStart]) ++
      (cutFull ((writer.grown bytes).content.size / writtenBlock) (writer.grown bytes)).1 := rfl
  have finished : (writer.grown bytes).finished = writer.finished := rfl
  rw [parts, List.length_append, count] at early
  rw [finished, size] at room
  -- The block that was not handed on is one of those that are full with the bytes.
  have most : max ((handedOn - if writer.started then 0 else 1) / 2)
      (if writer.content.size - writer.finished = 0 then 0 else 1) ≤ blocks := by
    cases started : writer.started with
    | false =>
        have empty : writer.content.size = 0 := by
          rw [wrote.begun started]
          rfl
        simp only [started, Bool.false_eq_true, if_false, List.length_singleton] at early ⊢
        rw [if_pos (by omega)]
        omega
    | true =>
        simp only [started, if_true, List.length_nil] at early ⊢
        split <;> omega
  have whole := Nat.mul_le_mul_right writtenBlock most
  rw [takenUntil]
  omega

end Writer

end IgaArchive.Lz4

namespace IgaArchive.Archive.Output

/-- What a write gives back about its bytes: how many were taken, and all of them unless it has failed. -/
def Takes (bytes : Bytes) (outcome : Output × Store × Nat) : Prop :=
  outcome.2.2 ≤ bytes.length ∧ (outcome.1.failed = none → outcome.2.2 = bytes.length)

theorem Takes.of_failed {bytes : Bytes} {output : Output} {store : Store} {taken : Nat}
    (failed : output.failed.isSome = true) (bound : taken ≤ bytes.length) :
    Takes bytes (output, store, taken) := by
  refine ⟨bound, fun fine => ?_⟩
  simp only at fine
  rw [fine] at failed
  cases failed

theorem Takes.all (bytes : Bytes) (output : Output) (store : Store) :
    Takes bytes (output, store, bytes.length) :=
  ⟨Nat.le_refl _, fun _ => rfl⟩

theorem Takes.behind {bytes : Bytes} {front : Nat} {outcome : Output × Store × Nat}
    (rest : Takes (bytes.drop front) outcome) (room : front ≤ bytes.length) :
    Takes bytes (outcome.1, outcome.2.1, front + outcome.2.2) := by
  obtain ⟨bound, all⟩ := rest
  rw [List.length_drop] at bound all
  constructor
  · dsimp only
    omega
  · intro fine
    have whole := all fine
    dsimp only
    omega

theorem send_takes (output : Output) (store : Store) (bytes : Bytes) :
    Takes bytes (output.send store bytes) := by
  obtain ⟨bound, all⟩ := Store.writeAt_takes store _ output.location output.position _ bytes _ rfl
  exact ⟨bound, fun fine => all (Option.map_eq_none_iff.mp fine)⟩

theorem putEmpty_takes (output : Output) (store : Store) (bytes : Bytes) :
    Takes bytes (output.putEmpty store bytes) := by
  rw [putEmpty]
  split
  · exact .all bytes _ store
  · exact send_takes output store bytes

theorem put_takes (output : Output) (store : Store) (bytes : Bytes) (healthy : output.failed = none) :
    Takes bytes (output.put store bytes) := by
  simp only [put, healthy, Option.isSome_none, Bool.false_eq_true, if_false]
  split
  · exact .all bytes _ store
  · rename_i long
    split
    · exact putEmpty_takes output store bytes
    · split
      · rename_i failed
        exact .of_failed failed (by omega)
      · -- What did not fit meets an empty buffer.
        exact (putEmpty_takes _ _ _).behind (by omega)

theorem countPut_lt (parts : List Bytes) (output : Output) (store : Store) (healthy : output.failed = none)
    (failed : (output.putAll store parts).1.failed.isSome = true) :
    output.countPut store parts < parts.length := by
  induction parts generalizing output store with
  | nil => simp [putAll, healthy] at failed
  | cons part parts ih =>
      simp only [putAll] at failed
      simp only [countPut, List.length_cons]
      by_cases broken : (output.put store part).1.failed.isSome = true
      · rw [if_pos broken]
        omega
      · rw [if_neg broken] at failed ⊢
        have later := ih _ _ (by simpa using broken) failed
        omega

/-- An output that has not failed, and whose frame, if it has one, stands as it was written. -/
structure Intact (output : Output) : Prop where
  healthy : output.failed = none
  framed : ∀ writer, output.frame = some writer → ∃ stream, writer.Wrote stream

theorem write_takes (output : Output) (store : Store) (bytes : Bytes) (intact : output.Intact) :
    Takes bytes (output.write store bytes) ∧
      ((output.write store bytes).1.failed = none → (output.write store bytes).1.Intact) := by
  cases frame : output.frame with
  | none =>
      have shape := put_under none output store bytes
      rw [under_none frame] at shape
      have plain : (output.put store bytes).1.frame = none := by
        rw [shape]
        rfl
      simp only [write, frame]
      refine ⟨put_takes output store bytes intact.healthy, fun fine => ⟨fine, ?_⟩⟩
      intro writer framed
      rw [plain] at framed
      cases framed
  | some writer =>
      obtain ⟨stream, wrote⟩ := intact.framed writer frame
      have shape := putAll_under (some (writer.write bytes).2) output store (writer.write bytes).1
      rw [under] at shape
      simp only [write, frame]
      constructor
      · split
        · rename_i failed
          exact .of_failed failed
            (writer.takenUntil_le stream bytes _ wrote (countPut_lt _ _ _ intact.healthy failed))
        · exact .all bytes _ _
      · intro fine
        refine ⟨fine, ?_⟩
        intro next framed
        rw [shape] at framed
        cases framed
        exact ⟨_, (writer.write_settled stream bytes wrote).wrote⟩

end IgaArchive.Archive.Output

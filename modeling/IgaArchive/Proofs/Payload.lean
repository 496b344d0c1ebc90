import IgaArchive.Payload.Key
import IgaArchive.Payload.Transfer

/-!
Moving a payload through the transform. Whatever the buffer, a transfer from a source that has all the
bytes offers its sink the transformed payload piece by piece, from the front to the end or to the first
piece that the sink does not take.
-/

namespace IgaArchive.Payload

theorem mask_ofNat (key : UInt8) (position : Nat) :
    mask key (Int64.ofNat position) = (position + 2).toUInt8 ^^^ key := by
  have sum : Int64.ofNat position + 2 = Int64.ofNat (position + 2) := by
    rw [Int64.ofNat_add]
    rfl
  rw [mask, sum, Int64.toUInt64_ofNat']
  congr 1
  apply UInt8.toNat_inj.mp
  simp

theorem transform_ofNat (key : UInt8) (position : Nat) (bytes : Bytes) :
    transform key (Int64.ofNat position) bytes =
      bytes.mapIdx fun i b => b ^^^ ((position + i + 2).toUInt8 ^^^ key) := by
  simp only [transform, ← Int64.ofNat_add, mask_ofNat]

theorem transform_length (key : UInt8) (position : Int64) (bytes : Bytes) :
    (transform key position bytes).length = bytes.length := by
  simp [transform]

theorem transform_transform (key : UInt8) (position : Int64) (bytes : Bytes) :
    transform key position (transform key position bytes) = bytes := by
  have undone : ∀ b m : UInt8, b ^^^ m ^^^ m = b := by
    intro b m
    rw [UInt8.xor_assoc, UInt8.xor_self, UInt8.xor_zero]
  apply List.ext_getElem
  · rw [transform_length, transform_length]
  · intro i _ _
    simp [transform, undone]

theorem transform_append (key : UInt8) (position : Int64) (front back : Bytes) :
    transform key position (front ++ back) =
      transform key position front ++
        transform key (position + Int64.ofNat front.length) back := by
  have place : ∀ i, position + Int64.ofNat (i + front.length) =
      position + Int64.ofNat front.length + Int64.ofNat i := by
    intro i
    rw [Nat.add_comm, Int64.ofNat_add, Int64.add_assoc]
  simp only [transform, List.mapIdx_append, place]

theorem transform_piece (key : UInt8) (data : Bytes) (position length : Nat) :
    transform key (Int64.ofNat position) ((data.drop position).take length) =
      ((transform key 0 data).drop position).take length := by
  have start : (0 : Int64) = Int64.ofNat 0 := rfl
  rw [start, transform_ofNat, transform_ofNat]
  apply List.ext_getElem?
  intro i
  simp only [List.getElem?_mapIdx, List.getElem?_take, List.getElem?_drop]
  split
  · simp [Nat.add_assoc]
  · simp

variable {σ ε : Type}

/-- How a transfer can end, told by what holds of the state after a number of bytes: with all bytes
taken, at the first piece that the source has not all of, or at the first that the sink refuses. -/
theorem transferFrom_outcome (source : Source σ) (sink : Sink σ ε) (key : UInt8)
    (buffer count : Nat) (holds : Nat → σ → Prop) (positive : 0 < buffer)
    (writes : ∀ position state next, holds position state → position < count →
      min buffer (count - position) ≤ (source state position (min buffer (count - position))).length →
      sink state (transform key (Int64.ofNat position)
        (source state position (min buffer (count - position)))) = (next, none) →
      holds (position + min buffer (count - position)) next)
    (position : Nat) (state : σ) (start : holds position state) (inside : position ≤ count) :
    (∃ final, transferFrom source sink key buffer count position state = (final, ⟨count, none⟩) ∧
      holds count final) ∨
    (∃ reached final, holds reached final ∧ reached < count ∧
      (source final reached (min buffer (count - reached))).length < min buffer (count - reached) ∧
      transferFrom source sink key buffer count position state =
        (final, ⟨reached, some .shortRead⟩)) ∨
    ∃ reached before after error, holds reached before ∧ reached < count ∧
      min buffer (count - reached) ≤
        (source before reached (min buffer (count - reached))).length ∧
      sink before (transform key (Int64.ofNat reached)
        (source before reached (min buffer (count - reached)))) = (after, some error) ∧
      transferFrom source sink key buffer count position state =
        (after, ⟨reached + min buffer (count - reached), some (.write error)⟩) := by
  induction left : count - position using Nat.strongRecOn generalizing position state with
  | ind left_ ih =>
      rw [transferFrom]
      by_cases more : position < count
      · rw [dif_pos (And.intro more positive)]
        by_cases short : (source state position (min buffer (count - position))).length <
            min buffer (count - position)
        · apply Or.inr
          apply Or.inl
          exact ⟨position, state, start, more, short, by simp only [if_pos short]⟩
        · simp only [if_neg short]
          cases offered : sink state (transform key (Int64.ofNat position)
              (source state position (min buffer (count - position)))) with
          | mk next outcome =>
              cases outcome with
              | none =>
                  have kept := writes position state next start more (Nat.not_lt.mp short) offered
                  exact ih _ (by omega) _ next kept (by omega) rfl
              | some error =>
                  apply Or.inr
                  apply Or.inr
                  exact ⟨position, state, next, error, start, more, Nat.not_lt.mp short, offered, rfl⟩
      · have done : position = count := by omega
        subst done
        rw [dif_neg (by omega)]
        exact Or.inl ⟨state, rfl, start⟩

/-- A transfer from a source that has all of `data`: it ends with all bytes taken, or at the first piece
that the sink refuses. -/
theorem transferFrom_spec (source : Source σ) (sink : Sink σ ε) (key : UInt8) (buffer : Nat)
    (data : Bytes) (holds : Nat → σ → Prop) (positive : 0 < buffer)
    (reads : ∀ position state, holds position state → ∀ length, position + length ≤ data.length →
      source state position length = (data.drop position).take length)
    (writes : ∀ position state next length, holds position state → 0 < length →
      position + length ≤ data.length →
      sink state (((transform key 0 data).drop position).take length) = (next, none) →
      holds (position + length) next)
    (position : Nat) (state : σ) (start : holds position state) (inside : position ≤ data.length) :
    (∃ final, transferFrom source sink key buffer data.length position state =
        (final, ⟨data.length, none⟩) ∧ holds data.length final) ∨
      ∃ reached before after length error, holds reached before ∧ reached < data.length ∧
        length = min buffer (data.length - reached) ∧
        sink before (((transform key 0 data).drop reached).take length) = (after, some error) ∧
        transferFrom source sink key buffer data.length position state =
          (after, ⟨reached + length, some (.write error)⟩) := by
  have outcome := transferFrom_outcome source sink key buffer data.length holds positive
    (by
      intro position state next kept more _ written
      rw [reads position state kept _ (by omega), transform_piece] at written
      exact writes position state next _ kept (by omega) (by omega) written)
    position state start inside
  rcases outcome with done | ⟨reached, final, kept, more, short, _⟩ |
    ⟨reached, before, after, error, kept, more, _, refused, run⟩
  · exact Or.inl done
  · rw [reads reached final kept _ (by omega), List.length_take, List.length_drop] at short
    omega
  · rw [reads reached before kept _ (by omega), transform_piece] at refused
    exact Or.inr ⟨reached, before, after, _, error, kept, more, rfl, refused, run⟩

theorem transfer_error_ne_shortRead (source : Source σ) (sink : Sink σ ε) (key : UInt8)
    (buffer count : Nat) (holds : σ → Prop) (positive : 0 < buffer)
    (reads : ∀ state, holds state → ∀ position length, position + length ≤ count →
      (source state position length).length = length)
    (kept : ∀ state chunk next, holds state → sink state chunk = (next, none) → holds next)
    (state : σ) (start : holds state) :
    (transfer source sink key buffer count state).2.error ≠ some .shortRead := by
  have outcome := transferFrom_outcome source sink key buffer count (fun _ => holds) positive
    (fun _ state next still _ _ written => kept state _ next still written) 0 state start (Nat.zero_le _)
  rw [transfer]
  rcases outcome with ⟨final, run, _⟩ | ⟨reached, final, still, more, short, _⟩ |
    ⟨reached, before, after, error, _, _, _, _, run⟩
  · rw [run]
    exact nofun
  · rw [reads final still reached _ (by omega)] at short
    exact absurd short (Nat.lt_irrefl _)
  · rw [run]
    exact nofun

end IgaArchive.Payload

import IgaArchive.Failure
import IgaArchive.Proofs.Payload
import IgaArchive.Proofs.Store.Frame

/-!
Transfers from a byte string into limited room. The source may be too short and the room too small, in any
proportion to each other and to the buffer; one equation says what the sink ends up with, what is counted, and
which of the two ended the transfer.
-/

namespace IgaArchive.Payload

/-- How many bytes come out of a source that has some available: all that are asked for, or as many as fill
whole buffers. -/
def obtainable (available count buffer : Nat) : Nat :=
  if count ≤ available then count else buffer * (available / buffer)

/-- How a transfer into limited room ends. A piece counts as soon as it is offered to the sink, so the piece
that does not fit counts as well. -/
def limitedResult (available count buffer limit : Nat) : TransferResult BasinFull :=
  if limit < obtainable available count buffer then
    ⟨min count (buffer * (limit / buffer + 1)), some (.write .full)⟩
  else if count ≤ available then ⟨count, none⟩
  else ⟨obtainable available count buffer, some .shortRead⟩

def Basin.offered (whole : Bytes) (limit count : Nat) : Basin where
  room := some (limit - min limit count)
  held := whole.take (min limit count)

theorem Basin.offered_none (whole : Bytes) (limit : Nat) :
    offered whole limit 0 = { room := some limit } := by
  simp [offered]

theorem Basin.sink_offered (whole : Bytes) (limit position length : Nat) (room : position ≤ limit)
    (inside : position + length ≤ whole.length) :
    Basin.sink (offered whole limit position) ((whole.drop position).take length) =
      (offered whole limit (position + length), if limit < position + length then some .full else none) := by
  have free : min limit position = position := Nat.min_eq_right room
  have taken : (((whole.drop position).take length).take (limit - position)).length =
      min limit (position + length) - position := by
    simp only [List.length_take, List.length_drop]
    omega
  have offer : ((whole.drop position).take length).length = length := by
    rw [List.length_take, List.length_drop]
    omega
  have joined : whole.take position ++ ((whole.drop position).take length).take (limit - position) =
      whole.take (min limit (position + length)) := by
    rw [List.take_take, ← List.take_add]
    congr 1
    omega
  have left : limit - position - (min limit (position + length) - position) =
      limit - min limit (position + length) := by
    omega
  have short : min limit (position + length) - position < length ↔ limit < position + length := by omega
  simp only [Basin.sink, Basin.pour, offered, free, taken, joined, left, offer, short]

theorem Basin.offered_full (whole : Bytes) (limit count more : Nat) (full : limit ≤ count)
    (fuller : limit ≤ more) : offered whole limit count = offered whole limit more := by
  rw [offered, offered, Nat.min_eq_left full, Nat.min_eq_left fuller]

section Limited

variable (source : Bytes) (key : UInt8) (buffer count limit : Nat)

/-- A transfer on its way: what was taken had room and was there, and comes in whole buffers up to the last
piece. -/
structure Poured (position : Nat) (basin : Basin) : Prop where
  shape : basin = .offered (transform key 0 source) limit position
  room : position ≤ limit
  inside : position ≤ source.length
  pieces : position < count → buffer ∣ position

theorem sourceOf_length {σ : Type} (state : σ) (position length : Nat) :
    (sourceOf source state position length).length = min length (source.length - position) := by
  rw [sourceOf, List.length_take, List.length_drop]

theorem sink_sourceOf (position length : Nat) (basin : Basin)
    (poured : Poured source key buffer count limit position basin)
    (inside : position + length ≤ source.length) :
    Basin.sink basin (transform key (Int64.ofNat position) (sourceOf source basin position length)) =
      (.offered (transform key 0 source) limit (position + length),
        if limit < position + length then some .full else none) := by
  rw [sourceOf, transform_piece, poured.shape]
  exact Basin.sink_offered _ _ _ _ poured.room (by rw [transform_length]; exact inside)

theorem mul_div_of_between (start n : Nat) (whole : buffer ∣ start) (least : start ≤ n)
    (most : n < start + buffer) : buffer * (n / buffer) = start := by
  obtain ⟨pieces, rfl⟩ := whole
  have exactly : n / buffer = pieces := by
    apply Nat.div_eq_of_lt_le
    · rwa [Nat.mul_comm]
    · rwa [Nat.succ_mul, Nat.mul_comm]
  rw [exactly]

theorem le_mul_div (start n : Nat) (whole : buffer ∣ start) (within : start ≤ n) :
    start ≤ buffer * (n / buffer) := by
  have pieces := Nat.mul_le_mul_left buffer (Nat.div_le_div_right (c := buffer) within)
  rwa [Nat.mul_div_cancel' whole] at pieces

theorem le_obtainable (available position : Nat) (whole : buffer ∣ position) (more : position < count)
    (inside : position + min buffer (count - position) ≤ available) :
    position + min buffer (count - position) ≤ obtainable available count buffer := by
  rw [obtainable]
  split
  · omega
  · have piece : min buffer (count - position) = buffer := by omega
    rw [piece] at inside ⊢
    exact le_mul_div buffer _ available (Nat.dvd_add whole (Nat.dvd_refl buffer)) inside

theorem transfer_limited (positive : 0 < buffer) :
    transfer (sourceOf source) Basin.sink key buffer count { room := some limit } =
      (.offered (transform key 0 source) limit (obtainable source.length count buffer),
        limitedResult source.length count buffer limit) := by
  have outcome := transferFrom_outcome (sourceOf source) Basin.sink key buffer count
    (Poured source key buffer count limit) positive
    (by
      intro position basin next poured more whole written
      rw [sourceOf_length] at whole
      rw [sink_sourceOf source key buffer count limit position _ basin poured (by omega)] at written
      split at written
      · cases written
      · cases written
        refine ⟨rfl, by omega, by omega, ?_⟩
        intro further
        have piece : min buffer (count - position) = buffer := by omega
        rw [piece]
        exact Nat.dvd_add (poured.pieces more) (Nat.dvd_refl buffer))
    0 { room := some limit } ⟨(Basin.offered_none _ _).symm, Nat.zero_le _, Nat.zero_le _,
      fun _ => Nat.dvd_zero _⟩ (Nat.zero_le _)
  rw [transfer]
  rcases outcome with ⟨final, run, done⟩ | ⟨reached, final, poured, more, short, run⟩ |
    ⟨reached, before, after, error, poured, more, whole, refused, run⟩
  · have all : obtainable source.length count buffer = count := if_pos done.inside
    rw [run, done.shape, all, limitedResult, all, if_neg (by have room := done.room; omega),
      if_pos done.inside]
  · rw [sourceOf_length] at short
    have inside := poured.inside
    have obtained : obtainable source.length count buffer = reached := by
      rw [obtainable, if_neg (by omega)]
      exact mul_div_of_between buffer reached _ (poured.pieces more) inside (by omega)
    rw [run, poured.shape, obtained, limitedResult, obtained, if_neg (by have room := poured.room; omega),
      if_neg (by omega)]
  · rw [sourceOf_length] at whole
    have room := poured.room
    have there : reached + min buffer (count - reached) ≤ source.length := by omega
    have obtained := le_obtainable buffer count source.length reached (poured.pieces more) more there
    rw [sink_sourceOf source key buffer count limit reached _ before poured there] at refused
    split at refused
    · rename_i full
      cases refused
      have begun := mul_div_of_between buffer reached limit (poured.pieces more) room (by omega)
      have counted : reached + min buffer (count - reached) = min count (buffer * (limit / buffer + 1)) := by
        rw [Nat.mul_add, begun]
        omega
      rw [run, limitedResult, if_pos (by omega), ← counted]
      exact congrArg (Prod.mk · _) (Basin.offered_full _ limit _ _ (by omega) (by omega))
    · cases refused

end Limited

section Obtained

variable {σ ε : Type} (source : Source σ) (sink : Sink σ ε) (key : UInt8) (buffer count : Nat) (data : Bytes)
variable (room : Option Nat) (fault : ε) (reached : Nat → σ → Prop) (positive : 0 < buffer)
variable (reads : ∀ position state, reached position state → Store.fitting room 0 position = position →
  ∀ length, source state position length = (data.drop position).take length)
variable (writes : ∀ position state length, reached position state →
  Store.fitting room 0 position = position → position + length ≤ data.length →
  ∃ next, sink state (((transform key 0 data).drop position).take length) =
      (next, if Store.fitting room position length < length then some fault else none) ∧
    reached (position + Store.fitting room position length) next)
include positive reads writes

/-- A transfer into a sink that takes what it has room for: it moves what can be obtained of the source, as
far as there is room, and fails if that is not all. -/
theorem transfer_obtains (state : σ) (start : reached 0 state) :
    let amount := obtainable data.length count buffer
    ∃ final moved, transfer source sink key buffer count state =
        (final, ⟨moved, if Store.fitting room 0 amount < amount then some (.write fault)
          else if count ≤ data.length then none else some .shortRead⟩) ∧
      reached (Store.fitting room 0 amount) final := by
  intro amount
  have piece : ∀ position state, reached position state → Store.fitting room 0 position = position →
      (source state position (min buffer (count - position))).length =
        min (min buffer (count - position)) (data.length - position) := by
    intro position state held fits
    rw [reads position state held fits, List.length_take, List.length_drop]
  have offer : ∀ position state, reached position state → Store.fitting room 0 position = position →
      position + min buffer (count - position) ≤ data.length →
      ∃ next, sink state (transform key (Int64.ofNat position)
          (source state position (min buffer (count - position)))) =
          (next, if Store.fitting room position (min buffer (count - position)) <
              min buffer (count - position) then some fault else none) ∧
        reached (position + Store.fitting room position (min buffer (count - position))) next := by
    intro position state held fits inside
    rw [reads position state held fits, transform_piece]
    exact writes position state _ held fits inside
  have outcome := transferFrom_outcome source sink key buffer count
    (fun position state => reached position state ∧ Store.fitting room 0 position = position ∧
      position ≤ data.length ∧ (position < count → buffer ∣ position)) positive
    (by
      intro position state next ⟨held, fits, inside, whole⟩ more full written
      rw [piece position state held fits] at full
      obtain ⟨other, taken, further⟩ := offer position state held fits (by omega)
      rw [taken] at written
      split at written
      · cases written
      · rename_i all
        cases written
        have took := Nat.le_antisymm (Store.fitting_le _ _ _) (Nat.not_lt.mp all)
        rw [took] at further
        refine ⟨further, by rw [Store.fitting_behind fits, took], by omega, ?_⟩
        intro still
        have length : min buffer (count - position) = buffer := by omega
        rw [length]
        exact Nat.dvd_add (whole more) (Nat.dvd_refl buffer))
    0 state ⟨start, Nat.le_antisymm (Store.fitting_le _ _ _) (Nat.zero_le _), Nat.zero_le _,
      fun _ => Nat.dvd_zero _⟩ (Nat.zero_le _)
  rw [transfer]
  rcases outcome with ⟨final, run, held, fits, there, _⟩ |
    ⟨position, final, ⟨held, fits, inside, whole⟩, more, short, run⟩ |
    ⟨position, before, after, error, ⟨held, fits, inside, whole⟩, more, full, refused, run⟩
  · have all : amount = count := if_pos there
    refine ⟨final, count, ?_, by rw [all, fits]; exact held⟩
    rw [run, all, fits, if_neg (Nat.lt_irrefl count), if_pos there]
  · rw [piece position final held fits] at short
    have part : ¬ count ≤ data.length := by omega
    have obtained : amount = position := by
      rw [show amount = _ from if_neg part]
      exact mul_div_of_between buffer position _ (whole more) inside (by omega)
    refine ⟨final, position, ?_, by rw [obtained, fits]; exact held⟩
    rw [run, obtained, fits, if_neg (Nat.lt_irrefl position), if_neg part]
  · -- The piece that was refused is a part of what can be obtained, so nothing further has room.
    rw [piece position before held fits] at full
    have obtained : position + min buffer (count - position) ≤ amount :=
      le_obtainable buffer count data.length position (whole more) more (by omega)
    obtain ⟨next, taken, further⟩ := offer position before held fits (by omega)
    rw [taken] at refused
    split at refused
    · rename_i less
      cases refused
      have behind := Store.fitting_behind fits (min buffer (count - position))
      have filled : Store.fitting room 0 amount =
          position + Store.fitting room position (min buffer (count - position)) := by
        rw [← behind]
        exact Store.fitting_full (by omega) obtained
      refine ⟨after, position + min buffer (count - position), ?_, by rw [filled]; exact further⟩
      rw [run, filled, if_pos (by omega)]
    · cases refused

end Obtained

theorem limitedResult_done (available count buffer limit : Nat) (there : count ≤ available)
    (room : count ≤ limit) : limitedResult available count buffer limit = ⟨count, none⟩ := by
  have all : obtainable available count buffer = count := if_pos there
  rw [limitedResult, all, if_neg (by omega), if_pos there]

theorem transfer_whole (source : Bytes) (key : UInt8) (buffer count limit : Nat) (positive : 0 < buffer)
    (there : count ≤ source.length) (room : count ≤ limit) :
    transfer (sourceOf source) Basin.sink key buffer count { room := some limit } =
      (.offered (transform key 0 source) limit count, ⟨count, none⟩) := by
  have all : obtainable source.length count buffer = count := if_pos there
  rw [transfer_limited source key buffer count limit positive, all,
    limitedResult_done source.length count buffer limit there room]

/-- A transfer from a byte string into limited room, told in full. With `q` for the bytes that come out of the
source, the sink ends up with as many bytes of the transformed source as it has room for and are obtained; it
succeeds if all bytes are there and have room; it fails in writing if there is no room for what is obtained, and
else in reading. Where it succeeds, the buffer makes no difference. -/
theorem transfer_fills_basin (source : Bytes) (count : Int64) (key : UInt8) (buffer limit : Nat)
    (positive : 0 < buffer) :
    ∃ basin result q,
      q = (if count.toInt ≤ source.length then count.toInt.toNat
        else buffer * (source.length / buffer)) ∧
      transfer (sourceOf source) Basin.sink key buffer count.toNatClampNeg { room := some limit } =
        (basin, result) ∧
      basin.held = (transform key 0 source).take (min limit q) ∧
      (result.error = none ↔ count.toInt ≤ source.length ∧ q ≤ limit) ∧
      (result.error = none → (result.count : Int) = max count.toInt 0) ∧
      (result.error = some (.write .full) ↔ limit < q) ∧
      (result.error = some (.write .full) →
        (result.count : Int) = min count.toInt (buffer * (limit / buffer + 1) : Nat)) ∧
      (result.error = some .shortRead ↔ source.length < count.toInt ∧ q ≤ limit) ∧
      (result.error = some .shortRead → result.count = q) ∧
      (Failure.ofTransfer (fun _ : BasinFull => .basinFull) .shortRead).kind = .unexpectedEnd ∧
      (result.error = none → ∀ other, 0 < other →
        transfer (sourceOf source) Basin.sink key other count.toNatClampNeg { room := some limit } =
          (basin, result)) := by
  have number : count.toNatClampNeg = count.toInt.toNat := rfl
  have amount : (if count.toInt ≤ source.length then count.toInt.toNat
      else buffer * (source.length / buffer)) = obtainable source.length count.toNatClampNeg buffer := by
    rw [obtainable, number]
    split <;> split <;> omega
  refine ⟨_, _, _, rfl, transfer_limited source key buffer _ limit positive, ?_⟩
  rw [amount]
  by_cases full : limit < obtainable source.length count.toNatClampNeg buffer
  · -- The sink is full before the source ends, whether or not all bytes are there.
    have result : limitedResult source.length count.toNatClampNeg buffer limit =
        ⟨min count.toNatClampNeg (buffer * (limit / buffer + 1)), some (.write .full)⟩ := if_pos full
    have nonneg : 0 ≤ count.toInt := by
      rw [obtainable] at full
      split at full <;> omega
    rw [result]
    refine ⟨rfl, ⟨nofun, fun ends => by omega⟩, nofun, ⟨fun _ => full, fun _ => rfl⟩, fun _ => ?_,
      ⟨nofun, fun ends => by omega⟩, nofun, rfl, nofun⟩
    show ((min count.toNatClampNeg (buffer * (limit / buffer + 1)) : Nat) : Int) = _
    omega
  · by_cases there : count.toNatClampNeg ≤ source.length
    · have all : obtainable source.length count.toNatClampNeg buffer = count.toNatClampNeg := if_pos there
      rw [all] at full ⊢
      rw [limitedResult_done _ _ _ _ there (by omega)]
      refine ⟨rfl, ⟨fun _ => by omega, fun _ => rfl⟩, fun _ => ?_, ⟨nofun, fun ends => absurd ends full⟩, nofun,
        ⟨nofun, fun ends => by omega⟩, nofun, rfl, fun _ other able => ?_⟩
      · show ((count.toNatClampNeg : Nat) : Int) = _
        omega
      · exact transfer_whole source key other _ limit able there (by omega)
    · have result : limitedResult source.length count.toNatClampNeg buffer limit =
          ⟨obtainable source.length count.toNatClampNeg buffer, some .shortRead⟩ := by
        rw [limitedResult, if_neg full, if_neg there]
      rw [result]
      exact ⟨rfl, ⟨nofun, fun ends => by omega⟩, nofun, ⟨nofun, fun ends => absurd ends full⟩, nofun,
        ⟨fun _ => by omega, fun _ => rfl⟩, fun _ => rfl, rfl, nofun⟩

/-- Ten bytes are asked for and five are there, of which two buffers of two come out; three have room. -/
theorem transfer_fills_basin_overflowing :
    ∃ basin result,
      transfer (sourceOf [1, 2, 3, 4, 5]) Basin.sink 0 2 10 { room := some 3 } = (basin, result) ∧
      basin.held = [3, 1, 7] ∧ result.error = some (.write .full) ∧ result.count = 4 := by
  obtain ⟨basin, result, q, amount, run, held, -, -, full, counted, -⟩ :=
    transfer_fills_basin [1, 2, 3, 4, 5] 10 0 2 3 (by decide)
  have four : q = 4 := by rw [amount]; decide
  have error := full.mpr (by omega)
  refine ⟨basin, result, run, ?_, error, ?_⟩
  · rw [held, four]
    decide
  · have count := counted error
    have least : min (10 : Int64).toInt ((2 * (3 / 2 + 1) : Nat) : Int) = 4 := by decide
    omega

end IgaArchive.Payload

import IgaArchive.Lz4.Packing
import Mathlib.Data.Nat.Digits.Defs

/-!
The search for repetitions. Whatever its table holds, a stretch that it finds has been compared byte by
byte, lies within the content and reaches back to bytes before it; and the stretches follow each other, so
that with the literals between them they cover the content up to where the search ends.
-/

namespace IgaArchive.Lz4.Packing

variable (content : ByteArray)

/-- The bytes between two positions stand an offset before them too. -/
def Repeats (offset start finish : Nat) : Prop :=
  ∀ position, start ≤ position → position < finish →
    byteAt content position = byteAt content (position - offset)

theorem Repeats.trans {content : ByteArray} {offset start middle finish : Nat}
    (front : Repeats content offset start middle) (rest : Repeats content offset middle finish) :
    Repeats content offset start finish := by
  intro position after before
  by_cases early : position < middle
  · exact front position after early
  · exact rest position (Nat.not_lt.mp early) before

theorem byteAt_lt (position : Nat) : (byteAt content position).toNat < 256 := by
  rw [byteAt, UInt8.toNat_toUInt64]
  exact UInt8.toNat_lt _

section Word

def digits (position : Nat) (distances : List Nat) : List Nat :=
  distances.map fun distance => (byteAt content (position + distance)).toNat

theorem digits_lt (position : Nat) (distances : List Nat) :
    ∀ digit ∈ digits content position distances, digit < 256 := by
  intro digit listed
  obtain ⟨distance, _, rfl⟩ := List.mem_map.mp listed
  exact byteAt_lt content _

theorem toNat_shifted_or (word byte : UInt64) (small : word.toNat < 2 ^ 56) (low : byte.toNat < 256) :
    ((word <<< 8) ||| byte).toNat = byte.toNat + 256 * word.toNat := by
  have shift : (8 : UInt64).toNat % 64 = 8 := rfl
  rw [UInt64.toNat_or, UInt64.toNat_shiftLeft, shift, Nat.shiftLeft_eq,
    Nat.mod_eq_of_lt (by omega), ← Nat.shiftLeft_eq, ← Nat.shiftLeft_add_eq_or_of_lt low,
    Nat.shiftLeft_eq]
  omega

theorem toNat_gather (position : Nat) (distances : List Nat) (few : distances.length ≤ 8) :
    (distances.foldr (fun distance (word : UInt64) => (word <<< 8) ||| byteAt content (position + distance))
      0).toNat = Nat.ofDigits 256 (digits content position distances) := by
  induction distances with
  | nil => rfl
  | cons distance distances ih =>
      have fewer : distances.length ≤ 7 := Nat.le_of_succ_le_succ few
      have bound := Nat.ofDigits_lt_base_pow_length (by decide) (digits_lt content position distances)
      have power : 256 ^ (digits content position distances).length ≤ 256 ^ 7 :=
        Nat.pow_le_pow_right (by decide) (by rw [digits, List.length_map]; exact fewer)
      rw [List.foldr_cons, toNat_shifted_or _ _ (by rw [ih (by omega)]; omega) (byteAt_lt content _),
        ih (by omega)]
      exact (Nat.ofDigits_cons ..).symm

theorem toNat_wordAt (position : Nat) :
    (wordAt content position).toNat = Nat.ofDigits 256 (digits content position (List.range 8)) :=
  toNat_gather content position (List.range 8) (Nat.le_of_eq List.length_range)

theorem digits_inj {left right count : Nat}
    (same : Nat.ofDigits 256 (digits content left (List.range count)) =
      Nat.ofDigits 256 (digits content right (List.range count)))
    (distance : Nat) (within : distance < count) :
    byteAt content (left + distance) = byteAt content (right + distance) := by
  have lists := Nat.ofDigits_inj_of_len_eq (by decide) (by simp [digits]) (digits_lt content left _)
    (digits_lt content right _) same
  exact UInt64.toNat_inj.mp (List.map_inj_left.mp lists distance (List.mem_range.mpr within))

theorem byteAt_of_wordAt {left right : Nat} (same : wordAt content left = wordAt content right)
    (distance : Nat) (within : distance < 8) :
    byteAt content (left + distance) = byteAt content (right + distance) := by
  refine digits_inj content ?_ distance within
  rw [← toNat_wordAt, ← toNat_wordAt, same]

theorem toNat_lowWord (position : Nat) :
    (wordAt content position).toUInt32.toNat =
      Nat.ofDigits 256 (digits content position (List.range 4)) := by
  have bound := Nat.ofDigits_lt_base_pow_length (by decide) (digits_lt content position (List.range 4))
  have length : (digits content position (List.range 4)).length = 4 := by
    simp [digits]
  have cut : digits content position (List.range 8) =
      digits content position (List.range 4) ++ digits content position [4, 5, 6, 7] := by
    rw [digits, digits, digits, ← List.map_append]
    rfl
  rw [length] at bound
  rw [UInt64.toNat_toUInt32, toNat_wordAt, cut, Nat.ofDigits_append, length]
  omega

theorem byteAt_of_lowWord {left right : Nat}
    (same : (wordAt content left).toUInt32 = (wordAt content right).toUInt32)
    (distance : Nat) (within : distance < minMatch) :
    byteAt content (left + distance) = byteAt content (right + distance) := by
  refine digits_inj content ?_ distance within
  rw [minMatch, ← toNat_lowWord, ← toNat_lowWord, same]

end Word

/-- A place that repeats what stands an offset before it, for as long as the shortest stretch. -/
structure Hit (place offset : Nat) : Prop where
  positive : offset ≠ 0
  near : offset < window
  within : offset ≤ place
  repeats : Repeats content offset place (place + minMatch)

theorem look_eq_some {table : Table} {key position candidate : Nat}
    (found : look table key position = some candidate) : candidate < position := by
  have entry := (table.getD key 0).toNat_lt
  have turn : position / window * window ≤ position := Nat.div_mul_le_self position window
  rw [look, window] at found
  rw [window] at turn
  split at found
  · rename_i before
    exact Option.some.inj found ▸ before
  · split at found
    · have same := Option.some.inj found
      omega
    · cases found

theorem offsetTo?_eq_some {table : Table} {key position offset : Nat}
    (found : offsetTo? content position (look table key position) = some offset) :
    Hit content position offset := by
  obtain ⟨candidate, looked, compared⟩ := Option.bind_eq_some_iff.mp found
  have before := look_eq_some looked
  dsimp only at compared
  split at compared
  · rename_i agrees
    cases compared
    refine ⟨by omega, agrees.1, Nat.sub_le _ _, ?_⟩
    intro place after inside
    have bytes := byteAt_of_lowWord content agrees.2 (place - position) (by omega)
    rwa [Nat.add_sub_cancel' after, show candidate + (place - position) =
      place - (position - candidate) by omega] at bytes
  · cases compared

theorem hitAt_eq_some {table : Table} {key position place offset : Nat}
    (found : hitAt content table key position = some (place, offset)) :
    place = position ∧ Hit content place offset := by
  obtain ⟨distance, located, same⟩ := Option.map_eq_some_iff.mp found
  obtain ⟨rfl, rfl⟩ := Prod.mk.inj same
  exact ⟨rfl, offsetTo?_eq_some content located⟩

theorem probe_eq_some {table : Table} {position place offset : Nat}
    (found : (probe content table position).2 = some (place, offset)) :
    position ≤ place ∧ place ≤ position + 2 ∧ Hit content place offset := by
  rw [probe] at found
  by_cases early : ((hitAt content table (hash (wordAt content position)) position).or
      (hitAt content table (hash (wordAt content position >>> 8)) (position + 1))).isSome = true
  · rw [if_pos early] at found
    rcases Option.or_eq_some_iff.mp found with first | ⟨-, second⟩
    · obtain ⟨rfl, hit⟩ := hitAt_eq_some content first
      exact ⟨Nat.le_refl _, Nat.le_add_right _ _, hit⟩
    · obtain ⟨rfl, hit⟩ := hitAt_eq_some content second
      exact ⟨Nat.le_add_right _ _, Nat.le_succ _, hit⟩
  · rw [if_neg early] at found
    obtain ⟨rfl, hit⟩ := hitAt_eq_some content found
    exact ⟨Nat.le_add_right _ _, Nat.le_refl _, hit⟩

/-- A stretch that grows back stays within its room, and behind its offset. -/
theorem growBack_spec (position offset room : Nat) (within : offset ≤ position)
    (behind : room ≤ position) :
    growBack content position offset room ≤ room ∧
      offset ≤ position - growBack content position offset room ∧
      Repeats content offset (position - growBack content position offset room) position := by
  fun_induction growBack content position offset room with
  | case1 => exact ⟨Nat.le_refl _, within, fun _ after before => absurd after (Nat.not_le.mpr before)⟩
  | case2 position room agrees ih =>
      obtain ⟨few, stays, repeats⟩ := ih (by omega) (by omega)
      have start : position - (growBack content (position - 1) offset room + 1) =
          position - 1 - growBack content (position - 1) offset room := by omega
      rw [start]
      refine ⟨Nat.succ_le_succ few, stays, repeats.trans ?_⟩
      intro place after before
      have last : place = position - 1 := by omega
      rw [last]
      exact agrees.2
  | case3 => exact ⟨Nat.zero_le _, within, fun _ after before => absurd after (Nat.not_le.mpr before)⟩

theorem takeWhile_range (holds : Nat → Bool) (count index : Nat)
    (inside : index < ((List.range count).takeWhile holds).length) : holds index = true := by
  have front := List.takeWhile_prefix (l := List.range count) holds
  have there : ((List.range count).takeWhile holds)[index] = index := by
    rw [front.getElem inside, List.getElem_range]
  have each := List.all_eq_true.mp (List.all_takeWhile (l := List.range count) (p := holds))
  exact each index (there ▸ List.getElem_mem inside)

/-- A stretch that is followed on goes no further than where it has to stop. -/
theorem growOn_spec (offset stop fuel position : Nat) (within : offset ≤ position) :
    position ≤ growOn content offset stop fuel position ∧
      growOn content offset stop fuel position ≤ max position stop ∧
      Repeats content offset position (growOn content offset stop fuel position) := by
  fun_induction growOn content offset stop fuel position with
  | case1 position => exact ⟨Nat.le_refl _, Nat.le_max_left _ _, fun _ after before => by omega⟩
  | case2 fuel position near => exact ⟨Nat.le_refl _, Nat.le_max_left _ _, fun _ after before => by omega⟩
  | case3 fuel position far agrees ih =>
      obtain ⟨onward, bound, repeats⟩ := ih (by omega)
      have eight : Repeats content offset position (position + 8) := by
        intro place after before
        have bytes := byteAt_of_wordAt content agrees (place - position) (by omega)
        rwa [Nat.add_sub_cancel' after, show position - offset + (place - position) =
          place - offset by omega] at bytes
      exact ⟨by omega, by omega, eight.trans repeats⟩
  | case4 fuel position far differs =>
      have few := (List.takeWhile_prefix (l := List.range 8) fun i =>
        decide (byteAt content (position + i) = byteAt content (position + i - offset))).length_le
      rw [List.length_range] at few
      refine ⟨Nat.le_add_right _ _, by omega, ?_⟩
      intro place after before
      have holds := takeWhile_range (fun i =>
        decide (byteAt content (position + i) = byteAt content (position + i - offset))) 8
        (place - position) (by omega)
      rw [decide_eq_true_iff, Nat.add_sub_cancel' after] at holds
      exact holds

structure Sequence.Stands (sequence : Sequence) (start : Nat) : Prop where
  positive : sequence.offset ≠ 0
  near : sequence.offset < window
  within : sequence.offset ≤ start
  long : minMatch ≤ sequence.length
  inside : start + sequence.length ≤ content.size
  repeats : Repeats content sequence.offset start (start + sequence.length)

/-- Sequences follow each other from one position to another and stand where they come to. -/
def Covers : (position : Nat) → List Sequence → (finish : Nat) → Prop
  | position, [], finish => position = finish
  | position, sequence :: rest, finish =>
    sequence.Stands content (position + sequence.literals) ∧
      Covers (position + sequence.literals + sequence.length) rest finish

theorem Covers.concat {content : ByteArray} {position middle : Nat} {sequences : List Sequence}
    (covers : Covers content position sequences middle) (last : Sequence)
    (stands : last.Stands content (middle + last.literals)) :
    Covers content position (sequences ++ [last]) (middle + last.literals + last.length) := by
  induction sequences generalizing position with
  | nil =>
      cases covers
      exact ⟨stands, rfl⟩
  | cons first rest ih => exact ⟨covers.1, ih covers.2⟩

/-- Where a search stands: its sequences cover the content up to the anchor, which it has not passed. -/
structure Search.Sound (search : Search) : Prop where
  behind : search.anchor ≤ search.position
  inside : search.anchor ≤ content.size
  covers : Covers content 0 search.found.reverse search.anchor

theorem extend_sound {stop anchor place offset : Nat} {found : List Sequence} (table : Table)
    (hit : Hit content place offset) (after : anchor ≤ place) (near : place + minMatch ≤ content.size)
    (ends : stop ≤ content.size) (covers : Covers content 0 found.reverse anchor) :
    (extend content stop table anchor found (place, offset)).Sound content := by
  obtain ⟨few, behind, backward⟩ := growBack_spec content place offset (place - anchor) hit.within
    (Nat.sub_le _ _)
  obtain ⟨onward, bound, forward⟩ := growOn_spec content offset stop content.size (place + minMatch)
    (Nat.le_trans hit.within (Nat.le_add_right _ _))
  rw [extend]
  generalize growBack content place offset (place - anchor) = back at few behind backward ⊢
  generalize growOn content offset stop content.size (place + minMatch) = finish at onward bound forward ⊢
  have inside : finish ≤ content.size := Nat.le_trans bound (Nat.max_le.mpr ⟨near, ends⟩)
  have start : anchor + (place - back - anchor) = place - back := by omega
  have length : place - back + (finish - (place - back)) = finish := by omega
  have stands : Sequence.Stands content
      { literals := place - back - anchor, offset, length := finish - (place - back) }
      (anchor + (place - back - anchor)) := by
    rw [start]
    refine ⟨hit.positive, hit.near, behind, Nat.le_sub_of_add_le (by omega), by rwa [length], ?_⟩
    rw [length]
    exact backward.trans (hit.repeats.trans forward)
  have further := covers.concat _ stands
  rw [start, length, ← List.reverse_cons] at further
  exact ⟨Nat.le_refl _, inside, further⟩

theorem advance_sound {stop : Nat} {search : Search} (sound : search.Sound content)
    (room : search.position + margin < content.size) (ends : stop ≤ content.size) :
    (advance content stop search).Sound content := by
  obtain ⟨table, position, anchor, found⟩ := search
  have behind : anchor ≤ position := sound.behind
  have near : position + 14 < content.size := room
  rw [advance]
  cases probed : (probe content table position).2 with
  | none => exact ⟨by dsimp only [Option.elim_none]; omega, sound.inside, sound.covers⟩
  | some hit =>
      obtain ⟨place, offset⟩ := hit
      obtain ⟨later, soon, hit⟩ := probe_eq_some content probed
      exact extend_sound content _ hit (by omega) (by rw [minMatch]; omega) ends sound.covers

theorem searchUntil_sound (fuel : Nat) (search : Search) (sound : search.Sound content) :
    (searchUntil content (content.size - margin) fuel search).Sound content := by
  induction fuel generalizing search with
  | zero => exact sound
  | succ fuel ih =>
      rw [searchUntil]
      by_cases near : content.size - margin ≤ search.position
      · rw [if_pos near]
        exact sound
      · rw [if_neg near]
        exact ih _ (advance_sound content sound (by omega) (Nat.sub_le _ _))

theorem search_covers :
    Covers content 0 (search content).1 (search content).2 ∧ (search content).2 ≤ content.size := by
  have done := searchUntil_sound content content.size {} ⟨Nat.le_refl 0, Nat.zero_le _, rfl⟩
  exact ⟨done.covers, done.inside⟩

end IgaArchive.Lz4.Packing

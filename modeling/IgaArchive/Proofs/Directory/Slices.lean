import IgaArchive.Proofs.Directory.NormalForm
import IgaArchive.Proofs.Groups

/-!
The blocks of a directory by their contents alone. The reader takes numbers off a block one by one; here the
whole block is decoded first. The table is then cut into rows of three numbers, and the characters of all
names are cut at the name offsets, counted from the first of them. Both ways give the same entries, and refuse
the same blocks.
-/

namespace IgaArchive.VarUint

/-- The numbers that bytes are made of, if there is nothing else in them. -/
def numbers? (bytes : Bytes) : Option (List UInt32) :=
  match readUntilError bytes [] with
  | (found, .endOfInput, _) => some (found.map Prod.fst)
  | (_, _, _) => none

theorem readUntilError_stop (bytes rest : Bytes) (found : List (UInt32 × Nat)) (error : ReadError)
    (nonempty : bytes ≠ []) (failed : read bytes = (.error error, rest)) :
    readUntilError bytes found = (found.reverse, error, rest.length) := by
  cases bytes with
  | nil => exact absurd rfl nonempty
  | cons b tail =>
      rw [readUntilError]
      split
      · rename_i v after again
        rw [failed] at again
        cases again
      · rename_i other after again
        rw [failed] at again
        cases again
        rfl

theorem readUntilError_eq (bytes : Bytes) (found all : List (UInt32 × Nat)) (left : Nat)
    (ended : readUntilError bytes found = (all, .endOfInput, left)) :
    ∃ numbers, all.map Prod.fst = (found.map Prod.fst).reverse ++ numbers.map Prod.snd ∧
      bytes = spell numbers := by
  induction length : bytes.length using Nat.strongRecOn generalizing bytes found with
  | ind n ih =>
      cases bytes with
      | nil =>
          rw [readUntilError] at ended
          cases ended
          exact ⟨[], by simp, rfl⟩
      | cons b tail =>
          cases first : read (b :: tail) with
          | mk result rest =>
              have shorter := read_rest_length b tail
              simp only [first] at shorter
              cases result with
              | ok v =>
                  rw [readUntilError_step _ _ v rest first] at ended
                  obtain ⟨numbers, values, rfl⟩ := ih rest.length (by omega) rest _ ended rfl
                  obtain ⟨zeros, shape⟩ := (read_eq_ok_iff _ _ _).mp first
                  exact ⟨(zeros, v) :: numbers, by simpa using values, by rw [shape, spell_cons]⟩
              | error error =>
                  rw [readUntilError_stop _ rest _ error (by simp) first] at ended
                  cases ended
                  have none := (read_eq_endOfInput_iff (b :: tail)).mp (congrArg Prod.fst first)
                  cases none

theorem numbers?_spell (numbers : List (Nat × UInt32)) :
    numbers? (spell numbers) = some (numbers.map Prod.snd) := by
  obtain ⟨values, ended⟩ := readUntilError_spell numbers []
  rw [numbers?]
  generalize readUntilError (spell numbers) [] = outcome at values ended
  obtain ⟨found, error, left⟩ := outcome
  cases ended
  simpa using values

theorem numbers?_eq_some (bytes : Bytes) (values : List UInt32) :
    numbers? bytes = some values ↔ ∃ numbers, numbers.map Prod.snd = values ∧ bytes = spell numbers := by
  constructor
  · intro decoded
    rw [numbers?] at decoded
    split at decoded
    · rename_i found left ended
      cases decoded
      obtain ⟨numbers, same, shape⟩ := readUntilError_eq bytes [] found left ended
      exact ⟨numbers, same.symm, shape⟩
    · cases decoded
  · rintro ⟨numbers, rfl, rfl⟩
    exact numbers?_spell numbers

end IgaArchive.VarUint

namespace IgaArchive.PackedString

/-- The characters that a block is made of: the low byte of each of its numbers. -/
def characters? (bytes : Bytes) : Option Bytes :=
  (VarUint.numbers? bytes).map fun numbers => numbers.map UInt32.toUInt8

theorem characters?_eq_some (bytes chars : Bytes) :
    characters? bytes = some chars ↔ ∃ numbers, letters numbers = chars ∧ bytes = VarUint.spell numbers := by
  rw [characters?, Option.map_eq_some_iff]
  constructor
  · rintro ⟨values, decoded, rfl⟩
    obtain ⟨numbers, rfl, shape⟩ := (VarUint.numbers?_eq_some bytes values).mp decoded
    exact ⟨numbers, by simp [letters, Function.comp_def], shape⟩
  · rintro ⟨numbers, rfl, rfl⟩
    exact ⟨_, VarUint.numbers?_spell numbers, by simp [letters, Function.comp_def]⟩

end IgaArchive.PackedString

namespace IgaArchive.Directory

def rows : List UInt32 → List Entry
  | nameOffset :: offset :: size :: numbers => ⟨nameOffset, [], offset, size⟩ :: rows numbers
  | _ => []

theorem rows_numbers (entries : List Entry) :
    rows (entries.flatMap Entry.numbers) = entries.map unnamed := by
  induction entries with
  | nil => rfl
  | cons entry entries ih =>
      rw [List.flatMap_cons, Entry.numbers, List.map_cons, ← ih]
      rfl

theorem numbers_length (entries : List Entry) :
    (entries.flatMap Entry.numbers).length = 3 * entries.length := by
  induction entries with
  | nil => rfl
  | cons entry entries ih =>
      rw [List.flatMap_cons, List.length_append, ih, List.length_cons, Entry.numbers]
      simp only [List.length_cons, List.length_nil]
      omega

theorem numbers_rows (numbers : List UInt32) (whole : 3 ∣ numbers.length) :
    (rows numbers).flatMap Entry.numbers = numbers := by
  fun_induction rows numbers with
  | case1 nameOffset offset size numbers ih =>
      have others : 3 ∣ numbers.length := by
        simp only [List.length_cons] at whole
        omega
      rw [List.flatMap_cons, ih others]
      rfl
  | case2 numbers short =>
      match numbers, short with
      | [], _ => rfl
      | [_], _ => simp at whole
      | [_, _], _ => simp at whole
      | _ :: _ :: _ :: _, short => exact absurd rfl (short _ _ _ _)

theorem unnamed_rows (numbers : List UInt32) : (rows numbers).map unnamed = rows numbers := by
  fun_induction rows numbers with
  | case1 nameOffset offset size numbers ih =>
      rw [List.map_cons, ih]
      rfl
  | case2 => rfl

theorem readTable_eq_ok_iff (table : Bytes) (entries : List Entry) :
    readTable table = .ok entries ↔
      ∃ numbers, VarUint.numbers? table = some numbers ∧ 3 ∣ numbers.length ∧ entries = rows numbers := by
  constructor
  · intro finished
    obtain ⟨numbers, spelled, rfl⟩ := readTable_eq_ok table entries finished
    rw [readTable_spell entries numbers spelled] at finished
    refine ⟨_, VarUint.numbers?_spell numbers, ?_, ?_⟩
    · rw [spelled, numbers_length]
      exact Nat.dvd_mul_right 3 _
    · rw [spelled, rows_numbers]
      exact (Except.ok.inj finished).symm
  · rintro ⟨values, decoded, whole, rfl⟩
    obtain ⟨numbers, rfl, rfl⟩ := (VarUint.numbers?_eq_some table values).mp decoded
    rw [readTable_spell _ numbers (numbers_rows _ whole).symm, unnamed_rows]

def nameOffsets (entries : List Entry) : List Nat :=
  entries.map fun entry => entry.nameOffset.toNat

def Ascending (entries : List Entry) : Prop :=
  (nameOffsets entries).IsChain (· ≤ ·)

def lastOffset (entries : List Entry) : Nat :=
  (nameOffsets entries).getLastD 0

/-- Names cut out of characters at the name offsets, counted from a base. The last entry takes all that is
left. -/
def sliced (chars : Bytes) (base : Nat) : List Entry → List Entry
  | [] => []
  | [entry] => [{ entry with name := chars.drop (entry.nameOffset.toNat - base) }]
  | entry :: next :: entries =>
    { entry with
      name := chars.extract (entry.nameOffset.toNat - base) (next.nameOffset.toNat - base) } ::
      sliced chars base (next :: entries)

theorem sliced_unnamed (chars : Bytes) (base : Nat) (entries : List Entry) :
    (sliced chars base entries).map unnamed = entries.map unnamed := by
  fun_induction sliced chars base entries with
  | case1 => rfl
  | case2 entry => rfl
  | case3 entry next entries ih =>
      rw [List.map_cons, ih]
      rfl

theorem sliced_congr (chars : Bytes) (base : Nat) (entries others : List Entry)
    (same : entries.map unnamed = others.map unnamed) :
    sliced chars base entries = sliced chars base others := by
  have bare : ∀ list, sliced chars base (list.map unnamed) = sliced chars base list := by
    intro list
    fun_induction sliced chars base list with
    | case1 => rfl
    | case2 entry => rfl
    | case3 entry next list ih =>
        rw [List.map_cons] at ih
        rw [List.map_cons, List.map_cons, sliced, ih]
        rfl
  rw [← bare entries, same, bare]

theorem extract_append_drop (chars : Bytes) (left right : Nat) (ordered : left ≤ right) :
    chars.extract left right ++ chars.drop right = chars.drop left := by
  have there : chars.drop right = (chars.drop left).drop (right - left) := by
    rw [List.drop_drop, Nat.add_sub_cancel' ordered]
  rw [there, List.extract_eq_take_drop, List.take_append_drop]

theorem nameOffsets_congr (entries others : List Entry) (same : entries.map unnamed = others.map unnamed) :
    nameOffsets entries = nameOffsets others := by
  have offsets : ∀ list : List Entry, nameOffsets (list.map unnamed) = nameOffsets list := by
    intro list
    rw [nameOffsets, List.map_map]
    rfl
  rw [← offsets entries, same, offsets]

theorem Ascending.step {entry next : Entry} {entries : List Entry}
    (ascending : Ascending (entry :: next :: entries)) :
    entry.nameOffset.toNat ≤ next.nameOffset.toNat ∧ Ascending (next :: entries) :=
  List.isChain_cons_cons.mp ascending

theorem sliced_names (chars : Bytes) (base : Nat) (entry : Entry) (entries : List Entry)
    (ascending : Ascending (entry :: entries)) :
    (sliced chars base (entry :: entries)).flatMap Entry.name =
      chars.drop (entry.nameOffset.toNat - base) := by
  induction entries generalizing entry with
  | nil => simp [sliced]
  | cons next entries ih =>
      obtain ⟨ordered, later⟩ := ascending.step
      rw [sliced, List.flatMap_cons, ih next later]
      exact extract_append_drop chars _ _ (by omega)

theorem le_lastOffset (entry : Entry) (entries : List Entry) (ascending : Ascending (entry :: entries)) :
    entry.nameOffset.toNat ≤ lastOffset (entry :: entries) := by
  induction entries generalizing entry with
  | nil => exact Nat.le_refl _
  | cons next entries ih =>
      obtain ⟨ordered, later⟩ := ascending.step
      exact Nat.le_trans ordered (ih next later)

theorem sliced_stepsMatchNames (chars : Bytes) (base : Nat) (entry : Entry) (entries : List Entry)
    (ascending : Ascending (entry :: entries)) (begins : base ≤ entry.nameOffset.toNat)
    (enough : lastOffset (entry :: entries) - base ≤ chars.length) :
    StepsMatchNames (sliced chars base (entry :: entries)) := by
  induction entries generalizing entry with
  | nil => exact stepsMatchNames_single _
  | cons next entries ih =>
      obtain ⟨ordered, later⟩ := ascending.step
      have reach := le_lastOffset next entries later
      have last : lastOffset (entry :: next :: entries) = lastOffset (next :: entries) := rfl
      have rest := ih next later (by omega) (by omega)
      have offset : ∃ named others, sliced chars base (next :: entries) = named :: others ∧
          named.nameOffset = next.nameOffset := by
        cases entries with
        | nil => exact ⟨_, _, rfl, rfl⟩
        | cons => exact ⟨_, _, rfl, rfl⟩
      obtain ⟨named, others, shape, same⟩ := offset
      rw [shape] at rest
      rw [sliced, shape]
      refine (stepsMatchNames_cons _ _ _).mpr ⟨?_, rest⟩
      simp only [same, List.extract_eq_take_drop, List.length_take, List.length_drop]
      omega

theorem eq_sliced (chars : Bytes) (base : Nat) (entry : Entry) (entries : List Entry)
    (steps : StepsMatchNames (entry :: entries)) (begins : base ≤ entry.nameOffset.toNat)
    (inside : entry.nameOffset.toNat - base ≤ chars.length)
    (names : (entry :: entries).flatMap Entry.name = chars.drop (entry.nameOffset.toNat - base)) :
    Ascending (entry :: entries) ∧ lastOffset (entry :: entries) - base ≤ chars.length ∧
      entry :: entries = sliced chars base (entry :: entries) := by
  induction entries generalizing entry with
  | nil =>
      refine ⟨.singleton _, inside, ?_⟩
      rw [sliced, ← names, List.flatMap_singleton]
  | cons next entries ih =>
      obtain ⟨step, later⟩ := (stepsMatchNames_cons _ _ _).mp steps
      rw [List.flatMap_cons] at names
      have length : next.nameOffset.toNat - base - (entry.nameOffset.toNat - base) = entry.name.length := by
        omega
      have own : chars.extract (entry.nameOffset.toNat - base) (next.nameOffset.toNat - base) =
          entry.name := by
        rw [List.extract_eq_take_drop, ← names, length, List.take_left]
      have others : (next :: entries).flatMap Entry.name = chars.drop (next.nameOffset.toNat - base) := by
        have split := extract_append_drop chars (entry.nameOffset.toNat - base)
          (next.nameOffset.toNat - base) (by omega)
        rw [own, ← names] at split
        exact (List.append_cancel_left split).symm
      have total := congrArg List.length names
      rw [List.length_append, List.length_drop] at total
      have ordered : entry.nameOffset.toNat ≤ next.nameOffset.toNat := by omega
      obtain ⟨ascending, reach, rest⟩ := ih next later (by omega) (by omega) others
      refine ⟨List.isChain_cons_cons.mpr ⟨ordered, ascending⟩, reach, ?_⟩
      rw [sliced, ← rest, own]

/-- Names are read just when the block is made of characters, enough of them for name offsets that never go
down; then they are the slices between these. -/
theorem readNames_eq_ok_iff (first : Entry) (later : List Entry) (names : Bytes) (result : List Entry) :
    readNames (first :: later) names = (result, none) ↔
      ∃ chars, PackedString.characters? names = some chars ∧ Ascending (first :: later) ∧
        lastOffset (first :: later) - first.nameOffset.toNat ≤ chars.length ∧
        result = sliced chars first.nameOffset.toNat (first :: later) := by
  constructor
  · intro finished
    obtain ⟨same, steps, text⟩ := readNames_eq_ok _ result names finished
    obtain ⟨numbers, shape, letters⟩ := text (by simp)
    have offsets := nameOffsets_congr _ _ same
    cases result with
    | nil => cases same
    | cons head tail =>
        have base : head.nameOffset.toNat = first.nameOffset.toNat := (List.cons.inj offsets).1
        obtain ⟨ascending, enough, cut⟩ := eq_sliced (PackedString.letters numbers)
          first.nameOffset.toNat head tail steps (by omega) (by omega) (by
            rw [base, Nat.sub_self, List.drop_zero, letters])
        rw [Ascending, offsets] at ascending
        rw [lastOffset, offsets] at enough
        exact ⟨_, (PackedString.characters?_eq_some names _).mpr ⟨numbers, rfl, shape⟩, ascending,
          enough, cut.trans (sliced_congr _ _ _ _ same)⟩
  · rintro ⟨chars, decoded, ascending, enough, rfl⟩
    obtain ⟨numbers, rfl, rfl⟩ := (PackedString.characters?_eq_some names chars).mp decoded
    have steps := sliced_stepsMatchNames _ _ first later ascending (Nat.le_refl _) enough
    have text := sliced_names (PackedString.letters numbers) first.nameOffset.toNat first later ascending
    rw [Nat.sub_self, List.drop_zero] at text
    exact readNamesAfter_spell [] _ _ numbers (sliced_unnamed _ _ _) steps text.symm

def BlockError.index : BlockError → Nat
  | .entry index _ => index
  | .nameLength index _ _ => index
  | .name index _ => index

/-- Where reading names stops, the entries in front have names made of the characters read so far, each as
long as the step to the next offset; the entry that it stops at and those behind are left alone. -/
theorem readNamesAfter_eq_error (named entries : List Entry) (names : Bytes) (result : List Entry)
    (error : BlockError) (failed : readNamesAfter named entries names = (result, some error)) :
    ∃ front filled entry back numbers rest, entries = front ++ entry :: back ∧
      result = named.reverse ++ (filled ++ entry :: back) ∧ filled.map unnamed = front.map unnamed ∧
      error.index = named.length + front.length ∧ StepsMatchNames (filled ++ [entry]) ∧
      names = VarUint.spell numbers ++ rest ∧
      PackedString.letters numbers = filled.flatMap Entry.name := by
  fun_induction readNamesAfter named entries names with
  | case1 => cases failed
  | case2 => cases failed
  | case3 named entry names error rest read =>
      cases failed
      exact ⟨[], [], entry, [], [], names, rfl, by simp, rfl, rfl, stepsMatchNames_single entry, rfl, rfl⟩
  | case4 named entry next entries names length refused =>
      cases failed
      exact ⟨[], [], entry, next :: entries, [], names, rfl, by simp [List.reverseAux_eq], rfl, rfl,
        stepsMatchNames_single entry, rfl, rfl⟩
  | case5 named entry next entries names length accepted name rest read ih =>
      obtain ⟨front, filled, last, back, behind, left, shape, rfl, same, index, steps, rfl, text⟩ :=
        ih failed
      obtain ⟨numbers, count, rfl, rfl⟩ := PackedString.readExactly_eq_ok _ _ _ _ read
      have heads : ((filled ++ [last]).map unnamed).head? = some (unnamed next) := by
        have whole := congrArg (fun list => (list.map unnamed).head?) shape
        cases front <;> simp_all
      obtain ⟨other, others, shape', sameNext⟩ : ∃ other others, filled ++ [last] = other :: others ∧
          other.nameOffset = next.nameOffset := by
        cases list : filled ++ [last] with
        | nil => simp at list
        | cons other others =>
            rw [list] at heads
            exact ⟨other, others, rfl, by
              simpa [unnamed] using congrArg Entry.nameOffset (Option.some.inj heads)⟩
      refine ⟨entry :: front, { entry with name := PackedString.letters numbers } :: filled, last, back,
        numbers ++ behind, left, by rw [shape]; rfl, by simp, ?_, ?_, ?_, ?_, ?_⟩
      · rw [List.map_cons, List.map_cons, same]
        rfl
      · rw [index, List.length_cons, List.length_cons]
        omega
      · rw [List.cons_append, shape']
        rw [shape'] at steps
        refine (stepsMatchNames_cons _ _ _).mpr ⟨?_, steps⟩
        simp only [sameNext, PackedString.letters, List.length_map, count]
        omega
      · rw [VarUint.spell_append, List.append_assoc]
      · rw [PackedString.letters] at text
        rw [PackedString.letters, List.map_append, text]
        rfl
  | case6 named entry next entries names length accepted error rest read =>
      cases failed
      exact ⟨[], [], entry, next :: entries, [], names, rfl, by simp [List.reverseAux_eq], rfl, rfl,
        stepsMatchNames_single entry, rfl, rfl⟩

/-- Entries of which just those in front of an index have got a name from a block. -/
structure NamedBefore (index : Nat) (entries : List Entry) (names : Bytes) (result : List Entry) :
    Prop where
  inside : index < entries.length
  others : result.map unnamed = entries.map unnamed
  kept : result.drop index = entries.drop index
  steps : StepsMatchNames (result.take (index + 1))
  characters : ∃ front rest, names = front ++ rest ∧
    PackedString.characters? front = some ((result.take index).flatMap Entry.name)

theorem readNames_eq_error (entries : List Entry) (names : Bytes) (result : List Entry)
    (error : BlockError) (failed : readNames entries names = (result, some error)) :
    NamedBefore error.index entries names result := by
  obtain ⟨front, filled, entry, back, numbers, rest, rfl, shape, same, index, steps, rfl, text⟩ :=
    readNamesAfter_eq_error [] entries names result error failed
  rw [List.reverse_nil, List.nil_append] at shape
  have length : filled.length = front.length := by simpa using congrArg List.length same
  rw [List.length_nil, Nat.zero_add] at index
  rw [shape, index]
  refine ⟨by simp, by rw [List.map_append, List.map_append, same], ?_, ?_, ?_⟩
  · rw [List.drop_left, ← length, List.drop_left]
  · have split : filled ++ entry :: back = (filled ++ [entry]) ++ back := by simp
    rwa [split, ← length, List.take_left' (by simp)]
  · refine ⟨_, rest, rfl, ?_⟩
    rw [← length, List.take_left, ← text, PackedString.characters?_eq_some]
    exact ⟨numbers, rfl, rfl⟩

theorem readNames_unnamed (entries : List Entry) (names : Bytes) (result : List Entry)
    (error : Option BlockError) (finished : readNames entries names = (result, error)) :
    result.map unnamed = entries.map unnamed := by
  cases error with
  | none => exact (readNames_eq_ok entries result names finished).1
  | some error => exact (readNames_eq_error entries names result error finished).others

/-- The blocks of a directory are read as they are told by their contents. A table is made of whole rows of
three numbers. Names are cut from the characters of the whole block at name offsets that never go down and stay
within the characters, so together they are these characters. Nothing but names is set, and where reading stops,
only those of the entries in front. -/
theorem blocks_read_as_sliced (table names : Bytes) (first : Entry) (later : List Entry) :
    (∀ entries, readTable table = .ok entries ↔
      ∃ numbers, VarUint.numbers? table = some numbers ∧ 3 ∣ numbers.length ∧ entries = rows numbers) ∧
    (∀ result, readNames (first :: later) names = (result, none) ↔
      ∃ chars, PackedString.characters? names = some chars ∧ Ascending (first :: later) ∧
        lastOffset (first :: later) - first.nameOffset.toNat ≤ chars.length ∧
        result = sliced chars first.nameOffset.toNat (first :: later)) ∧
    (∀ result, readNames (first :: later) names = (result, none) →
      PackedString.characters? names = some (result.flatMap Entry.name)) ∧
    (∀ result error, readNames (first :: later) names = (result, error) →
      result.map unnamed = (first :: later).map unnamed) ∧
    (∀ result error, readNames (first :: later) names = (result, some error) →
      NamedBefore error.index (first :: later) names result) ∧
    ∀ error, readTable table = .error error ∨ (readNames (first :: later) names).2 = some error →
      (Failure.block error).kind = .format := by
  refine ⟨readTable_eq_ok_iff table, readNames_eq_ok_iff first later names, ?_,
    readNames_unnamed _ names, readNames_eq_error _ names, fun _ _ => rfl⟩
  intro result finished
  obtain ⟨_, _, text⟩ := readNames_eq_ok _ result names finished
  obtain ⟨numbers, shape, letters⟩ := text (by simp)
  rw [← letters, PackedString.characters?_eq_some]
  exact ⟨numbers, rfl, shape⟩

def alreadyNamed : List Entry :=
  [⟨7, [0x78], 0, 1⟩, ⟨7, [0x79], 1, 2⟩, ⟨9, [0x7A], 3, 0⟩]

/-- The first name is empty, the second begins with a character behind a zero byte that is spelled by the
number `0x161`. Where the block breaks off within the last name, the other two have been set. -/
theorem blocks_read_as_sliced_already_named :
    readTable [15, 1, 3, 0, 15, 3, 5, 19, 7, 1] = .ok [⟨7, [], 0, 1⟩, ⟨7, [], 1, 2⟩, ⟨9, [], 3, 0⟩] ∧
    readNames alreadyNamed [0, 4, 195, 93, 231] =
      ([⟨7, [], 0, 1⟩, ⟨7, [0x61, 0x2E], 1, 2⟩, ⟨9, [0x73], 3, 0⟩], none) ∧
    ∃ result, readNames alreadyNamed [0, 4, 195, 93, 230] = (result, some (.name 2 .unexpectedEnd)) ∧
      NamedBefore 2 alreadyNamed [0, 4, 195, 93, 230] result := by
  obtain ⟨rowsRead, whole, -⟩ := blocks_read_as_sliced [15, 1, 3, 0, 15, 3, 5, 19, 7, 1]
    [0, 4, 195, 93, 231] ⟨7, [0x78], 0, 1⟩ [⟨7, [0x79], 1, 2⟩, ⟨9, [0x7A], 3, 0⟩]
  obtain ⟨-, -, -, -, broken, -⟩ := blocks_read_as_sliced [] [0, 4, 195, 93, 230] ⟨7, [0x78], 0, 1⟩
    [⟨7, [0x79], 1, 2⟩, ⟨9, [0x7A], 3, 0⟩]
  refine ⟨(rowsRead _).mpr ⟨[7, 0, 1, 7, 1, 2, 9, 3, 0], by decide +kernel, by decide, rfl⟩,
    (whole _).mpr ⟨[0x61, 0x2E, 0x73], by decide +kernel, ?_, by decide, by decide⟩, ?_⟩
  · exact .cons_cons (by decide) (.cons_cons (by decide) (.singleton _))
  · have stops : (readNames alreadyNamed [0, 4, 195, 93, 230]).2 = some (.name 2 .unexpectedEnd) := by
      decide +kernel
    exact ⟨_, Prod.ext rfl stops, broken _ _ (Prod.ext rfl stops)⟩

end IgaArchive.Directory

import IgaArchive.Failure
import IgaArchive.Proofs.Directory.Blocks
import IgaArchive.Proofs.Result

/-!
The verdict on a directory is final. A reader that does not ask for more bytes has settled on the bytes
in front of it: what it says rests on those it has used, whatever follows. So a directory ends where its
bytes are used up, and cut anywhere before it is nothing but cut short.
-/

namespace IgaArchive

def Failure.IsCut (failure : Failure) : Prop :=
  failure.kind = .endOfInput ∨ failure.kind = .unexpectedEnd

instance (failure : Failure) : Decidable failure.IsCut :=
  inferInstanceAs (Decidable (_ ∨ _))

end IgaArchive

namespace IgaArchive.VarUint

theorem readOn_settles (value : UInt64) (bytes : Bytes)
    (decided : (readOn value bytes).1 ≠ .error .unexpectedEnd) :
    ∃ used, used ≠ [] ∧ bytes = used ++ (readOn value bytes).2 ∧
      ∀ more, readOn value (used ++ more) = ((readOn value bytes).1, more) := by
  induction bytes generalizing value with
  | nil => exact absurd rfl decided
  | cons b rest ih =>
      simp only [readOn] at decided ⊢
      split
      · rename_i above
        refine ⟨[b], by simp, rfl, ?_⟩
        intro more
        simp [readOn, above]
      · rename_i below
        rw [if_neg below] at decided
        split
        · rename_i last
          refine ⟨[b], by simp, rfl, ?_⟩
          intro more
          simp only [List.singleton_append, readOn, if_neg below, if_pos last]
        · rename_i between
          rw [if_neg between] at decided
          obtain ⟨used, _, shape, settled⟩ := ih _ decided
          refine ⟨b :: used, by simp, by rw [List.cons_append, ← shape], ?_⟩
          intro more
          simp only [List.cons_append, readOn, if_neg below, if_neg between, settled]

theorem read_settles (bytes : Bytes) (nonempty : (read bytes).1 ≠ .error .endOfInput)
    (decided : (read bytes).1 ≠ .error .unexpectedEnd) :
    ∃ used, used ≠ [] ∧ bytes = used ++ (read bytes).2 ∧
      ∀ more, read (used ++ more) = ((read bytes).1, more) := by
  cases bytes with
  | nil => exact absurd rfl nonempty
  | cons b rest =>
      obtain ⟨used, some, shape, settled⟩ := readOn_settles 0 (b :: rest) decided
      refine ⟨used, some, shape, ?_⟩
      intro more
      rw [read_eq_readOn _ (by simp [some]), settled]
      rfl

end IgaArchive.VarUint

namespace IgaArchive.Header

theorem fieldAt_append (n offset : Nat) (front more : Bytes) (inside : offset + n ≤ front.length) :
    fieldAt n (front ++ more) offset = fieldAt n front offset := by
  apply Vector.ext
  intro i below
  simp only [fieldAt, Vector.getElem_ofFn, List.getD_eq_getElem?_getD]
  rw [List.getElem?_append_left (by omega)]

theorem read_wrong_signature (front more : Bytes) (four : front.length = 4)
    (wrong : fieldAt 4 front 0 ≠ magic) :
    read (front ++ more) = (.error (.signature (fieldAt 4 front 0)), more) := by
  have long : ¬ (front ++ more).length < 4 := by
    rw [List.length_append]
    omega
  simp only [read, if_neg long, fieldAt_append 4 0 front more (by omega), wrong, ne_eq,
    not_false_eq_true, if_true, List.drop_left' four]

theorem read_whole (front more : Bytes) (whole : front.length = size)
    (right : fieldAt 4 front 0 = magic) : read (front ++ more) = (.ok (ofBytes front), more) := by
  rw [size] at whole
  have long : ¬ (front ++ more).length < 4 := by
    rw [List.length_append]
    omega
  have longer : ¬ ((front ++ more).drop 4).length < 12 := by
    rw [List.length_drop, List.length_append]
    omega
  have behind : ((front ++ more).drop 4).drop 12 = more := by
    rw [List.drop_drop]
    exact List.drop_left' whole
  have fields : ofBytes (front ++ more) = ofBytes front := by
    simp only [ofBytes, fieldAt_append 4 0 front more (by omega),
      fieldAt_append 4 4 front more (by omega), fieldAt_append 8 8 front more (by omega)]
  simp only [read, if_neg long, if_neg longer, fieldAt_append 4 0 front more (by omega), right, ne_eq,
    not_true_eq_false, if_false, behind, fields]

theorem read_settles (bytes : Bytes)
    (decided : ∀ error, (read bytes).1 = .error error → ¬ (Failure.ofHeader error).IsCut) :
    ∃ used, bytes = used ++ (read bytes).2 ∧
      (∀ more, read (used ++ more) = ((read bytes).1, more)) ∧
      ∀ header, (read bytes).1 = .ok header → used.length = size := by
  by_cases four : bytes.length < 4
  · have cut : (read bytes).1 = .error (.signatureCut bytes.isEmpty) := by simp [read, four]
    refine absurd ?_ (decided _ cut)
    cases bytes.isEmpty <;> decide
  · have front : (bytes.take 4).length = 4 := by
      rw [List.length_take]
      omega
    have signature : fieldAt 4 bytes 0 = fieldAt 4 (bytes.take 4) 0 := by
      have split := fieldAt_append 4 0 (bytes.take 4) (bytes.drop 4) (by omega)
      rwa [List.take_append_drop] at split
    by_cases right : fieldAt 4 bytes 0 = magic
    · by_cases rest : (bytes.drop 4).length < 12
      · have cut : (read bytes).1 = .error (.restCut (bytes.drop 4).isEmpty) := by
          simp only [read, if_neg four, right, ne_eq, not_true_eq_false, if_false, if_pos rest]
        refine absurd ?_ (decided _ cut)
        cases (bytes.drop 4).isEmpty <;> decide
      · have whole : (bytes.take size).length = size := by
          rw [List.length_drop] at rest
          rw [List.length_take, size]
          omega
        have field : fieldAt 4 (bytes.take size) 0 = magic := by
          have split := fieldAt_append 4 0 (bytes.take size) (bytes.drop size) (by
            rw [whole]
            decide)
          rwa [List.take_append_drop, right, eq_comm] at split
        have here := read_whole (bytes.take size) (bytes.drop size) whole field
        rw [List.take_append_drop] at here
        refine ⟨bytes.take size, by rw [here, List.take_append_drop], ?_, fun _ _ => whole⟩
        intro more
        rw [here, read_whole (bytes.take size) more whole field]
    · have here := read_wrong_signature (bytes.take 4) (bytes.drop 4) front (signature ▸ right)
      rw [List.take_append_drop] at here
      refine ⟨bytes.take 4, by rw [here, List.take_append_drop], ?_, ?_⟩
      · intro more
        rw [here, read_wrong_signature (bytes.take 4) more front (signature ▸ right)]
      · intro header ok
        rw [here] at ok
        cases ok

end IgaArchive.Header

namespace IgaArchive.Directory

theorem readBlock_settles (bytes : Bytes) (decided : readBlock bytes ≠ .error .unexpectedEnd) :
    ∃ used rest, used ≠ [] ∧ bytes = used ++ rest ∧
      ((∃ block, ∀ more, readBlock (used ++ more) = .ok (block, more)) ∨
        ∀ more, readBlock (used ++ more) = .error .overflow) := by
  cases reading : VarUint.read bytes with
  | mk number behind =>
      have settles := VarUint.read_settles bytes
      rw [reading] at settles
      simp only at settles
      cases number with
      | error error =>
          have overflow : error = .overflow := by
            cases error with
            | endOfInput => exact absurd (by simp [readBlock, reading, VarUint.ReadError.withinBlock]) decided
            | unexpectedEnd =>
                exact absurd (by simp [readBlock, reading, VarUint.ReadError.withinBlock]) decided
            | overflow => rfl
          subst overflow
          obtain ⟨used, some, shape, settled⟩ := settles (by simp) (by simp)
          refine ⟨used, behind, some, shape, Or.inr ?_⟩
          intro more
          simp only [readBlock, settled, VarUint.ReadError.withinBlock]
      | ok length =>
          obtain ⟨used, some, shape, settled⟩ := settles (by simp) (by simp)
          have enough : length.toNat ≤ behind.length := by
            apply Nat.le_of_not_lt
            intro short
            apply decided
            simp only [readBlock, reading, List.splitAt_eq, List.length_take]
            rw [if_pos (by omega)]
          refine ⟨used ++ behind.take length.toNat, behind.drop length.toNat, by simp [some], ?_,
            Or.inl ⟨behind.take length.toNat, ?_⟩⟩
          · rw [List.append_assoc, List.take_append_drop, shape]
          · intro more
            have whole : (behind.take length.toNat).length = length.toNat := by
              rw [List.length_take]
              omega
            have cut : (behind.take length.toNat ++ more).take length.toNat =
                behind.take length.toNat := List.take_left' whole
            simp only [readBlock, List.append_assoc, settled, List.splitAt_eq, cut, whole,
              Nat.lt_irrefl, if_false, List.drop_left' whole]

/-- A cut directory is one that more bytes could mend. -/
def ReadError.IsCut (error : ReadError) : Prop :=
  (Failure.ofDirectory error).IsCut

instance (error : ReadError) : Decidable error.IsCut :=
  inferInstanceAs (Decidable (Failure.IsCut _))

theorem kind_of_not_isCut (error : ReadError) (decided : ¬ error.IsCut) :
    (Failure.ofDirectory error).kind = .signature ∨ (Failure.ofDirectory error).kind = .format := by
  have number : ∀ error step, ¬ (Failure.during step (.ofVarUint error)).IsCut →
      (Failure.ofVarUint error).kind = .format := by
    intro error step
    cases error <;> simp [Failure.IsCut, Failure.ofVarUint, Failure.kind]
  cases error with
  | header error =>
      cases error with
      | signature got => exact Or.inl rfl
      | signatureCut atStart => cases atStart <;> exact absurd (by decide) decided
      | restCut atStart => cases atStart <;> exact absurd (by decide) decided
  | tableBlock error => exact Or.inr (number error _ decided)
  | nameBlock error => exact Or.inr (number error _ decided)
  | block error => exact Or.inr rfl

/-- The entry table and the name block behind a header, and the unread bytes. -/
def readBlocks (bytes : Bytes) : Except ReadError (Bytes × Bytes × Bytes) := do
  let (table, rest) ← (readBlock bytes).mapError .tableBlock
  let (names, rest) ← (readBlock rest).mapError .nameBlock
  return (table, names, rest)

/-- What the blocks behind a header come to when their bytes end at a position. -/
def assemble (header : Header) (table names : Bytes) (position : Nat) : Except ReadError Directory := do
  let entries ← (readTable table).mapError .block
  match readNames entries names with
  | (_, some error) => .error (.block error)
  | (entries, none) => .ok { header, entries, dataStart := Int64.ofNat position }

theorem read_of_header (bytes behind : Bytes) (header : Header)
    (first : Header.read bytes = (.ok header, behind)) :
    read bytes = (readBlocks behind).bind fun (table, names, rest) =>
      assemble header table names (bytes.length - rest.length) := by
  simp only [read, first, readBlocks]
  cases readBlock behind with
  | error error => rfl
  | ok first =>
      obtain ⟨table, between⟩ := first
      simp only [Result.mapError_ok, bind, Except.bind]
      cases readBlock between with
      | error error => rfl
      | ok second => rfl

theorem assemble_dataStart (header : Header) (table names : Bytes) (position : Nat)
    (directory : Directory) (accepted : assemble header table names position = .ok directory) :
    directory.dataStart = Int64.ofNat position := by
  obtain ⟨entries, _, named⟩ := Result.bind_eq_ok accepted
  split at named
  · cases named
  · cases named
    rfl

theorem readBlocks_settles (bytes : Bytes)
    (decided : ∀ error, readBlocks bytes = .error error → ¬ error.IsCut) :
    ∃ used rest, bytes = used ++ rest ∧
      ((∃ table names, 2 ≤ used.length ∧
          ∀ more, readBlocks (used ++ more) = .ok (table, names, more)) ∨
        ∃ error, ∀ more, readBlocks (used ++ more) = .error error) := by
  have tableRead : readBlock bytes ≠ .error .unexpectedEnd := by
    intro cut
    refine decided (.tableBlock .unexpectedEnd) ?_ (by decide)
    simp only [readBlocks, cut, Result.mapError_error, bind, Except.bind]
  obtain ⟨front, behind, some, rfl, ⟨table, first⟩ | overflow⟩ := readBlock_settles bytes tableRead
  · have namesRead : readBlock behind ≠ .error .unexpectedEnd := by
      intro cut
      refine decided (.nameBlock .unexpectedEnd) ?_ (by decide)
      simp only [readBlocks, first, cut, Result.mapError_ok, Result.mapError_error, bind, Except.bind]
    obtain ⟨back, rest, more, rfl, second⟩ := readBlock_settles behind namesRead
    have length : 2 ≤ (front ++ back).length := by
      have one := List.length_pos_iff.mpr some
      have other := List.length_pos_iff.mpr more
      rw [List.length_append]
      omega
    refine ⟨front ++ back, rest, by rw [List.append_assoc], ?_⟩
    rcases second with ⟨names, second⟩ | overflow
    · refine Or.inl ⟨table, names, length, ?_⟩
      intro more
      simp only [readBlocks, List.append_assoc, first, second, Result.mapError_ok, bind, Except.bind]
      rfl
    · refine Or.inr ⟨.nameBlock .overflow, ?_⟩
      intro more
      simp only [readBlocks, List.append_assoc, first, overflow, Result.mapError_ok,
        Result.mapError_error, bind, Except.bind]
  · refine ⟨front, behind, rfl, Or.inr ⟨.tableBlock .overflow, ?_⟩⟩
    intro more
    simp only [readBlocks, overflow, Result.mapError_error, bind, Except.bind]

/-- Behind a header that was read, the verdict rests on the header and the blocks. -/
theorem read_settles_behind (front behind : Bytes) (header : Header) (sixteen : front.length = 16)
    (settled : ∀ more, Header.read (front ++ more) = (.ok header, more))
    (decided : ∀ error, read (front ++ behind) = .error error → ¬ error.IsCut) :
    ∃ used rest, front ++ behind = used ++ rest ∧
      (∀ more, read (used ++ more) = read (front ++ behind)) ∧
      ∀ directory, read (front ++ behind) = .ok directory →
        18 ≤ used.length ∧ directory.dataStart = Int64.ofNat used.length := by
  obtain ⟨back, rest, rfl, blocks⟩ := readBlocks_settles behind (by
    intro error cut
    refine decided error ?_
    rw [read_of_header _ _ _ (settled behind), cut]
    rfl)
  refine ⟨front ++ back, rest, by rw [List.append_assoc], ?_⟩
  rcases blocks with ⟨table, names, two, blocks⟩ | ⟨error, blocks⟩
  · -- The blocks end behind the same bytes whatever follows, so the position is the same too.
    have whole : ∀ more, read (front ++ (back ++ more)) =
        assemble header table names (front ++ back).length := by
      intro more
      have position : (front ++ (back ++ more)).length - more.length = (front ++ back).length := by
        simp only [List.length_append]
        omega
      rw [read_of_header _ _ _ (settled _), blocks]
      simp only [Except.bind, position]
    refine ⟨fun more => ?_, ?_⟩
    · rw [List.append_assoc, whole, whole]
    · intro directory accepted
      rw [whole] at accepted
      refine ⟨?_, assemble_dataStart _ _ _ _ _ accepted⟩
      rw [List.length_append]
      omega
  · have refused : ∀ more, read (front ++ (back ++ more)) = .error error := by
      intro more
      rw [read_of_header _ _ _ (settled _), blocks]
      rfl
    refine ⟨fun more => ?_, ?_⟩
    · rw [List.append_assoc, refused, refused]
    · intro directory accepted
      rw [refused] at accepted
      cases accepted

theorem read_settles (bytes : Bytes)
    (decided : ∀ error, read bytes = .error error → ¬ error.IsCut) :
    ∃ used rest, bytes = used ++ rest ∧ (∀ more, read (used ++ more) = read bytes) ∧
      ∀ directory, read bytes = .ok directory →
        18 ≤ used.length ∧ directory.dataStart = Int64.ofNat used.length := by
  have heading := Header.read_settles bytes
  cases first : Header.read bytes with
  | mk result behind =>
      rw [first] at heading
      simp only at heading
      cases result with
      | error error =>
          have here : read bytes = .error (.header error) := by simp only [read, first]
          obtain ⟨used, shape, settled, _⟩ := heading (by
            intro other same
            cases same
            exact decided _ here)
          refine ⟨used, behind, shape, ?_, ?_⟩
          · intro more
            rw [here]
            simp only [read, settled]
          · intro directory accepted
            rw [here] at accepted
            cases accepted
      | ok header =>
          obtain ⟨front, shape, settled, sixteen⟩ := heading nofun
          subst shape
          exact read_settles_behind front behind header (sixteen header rfl) settled decided

theorem read_append (bytes more : Bytes)
    (decided : ∀ error, read bytes = .error error → ¬ error.IsCut) :
    read (bytes ++ more) = read bytes := by
  obtain ⟨used, rest, shape, settled, _⟩ := read_settles bytes decided
  rw [← settled (rest ++ more), ← List.append_assoc, ← shape]

theorem read_uses (bytes : Bytes) (directory : Directory) (accepted : read bytes = .ok directory) :
    ∃ n, directory.dataStart = Int64.ofNat n ∧ 18 ≤ n ∧ n ≤ bytes.length ∧
      ∀ other, other.take n = bytes.take n → read other = .ok directory := by
  obtain ⟨used, rest, shape, settled, used_length⟩ := read_settles bytes (by
    intro error refused
    rw [accepted] at refused
    cases refused)
  obtain ⟨long, begins⟩ := used_length directory accepted
  refine ⟨used.length, begins, long, by rw [shape, List.length_append]; omega, ?_⟩
  intro other same
  rw [shape, List.take_left] at same
  rw [← List.take_append_drop used.length other, same, settled, accepted]

theorem read_cut (bytes front : Bytes) (directory : Directory) (accepted : read bytes = .ok directory)
    (short : bytes.length < 0x4000000000000000) (shorter : front <+: bytes)
    (before : (front.length : Int) < directory.dataStart.toInt) :
    ∃ error, read front = .error error ∧ error.IsCut := by
  obtain ⟨more, rfl⟩ := shorter
  rw [List.length_append] at short
  apply Classical.byContradiction
  intro other
  have decided : ∀ error, read front = .error error → ¬ error.IsCut := by
    intro error refused cut
    exact other ⟨error, refused, cut⟩
  -- The front would be accepted by itself, and would hold the whole directory.
  rw [read_append front more decided] at accepted
  obtain ⟨n, begins, _, within, _⟩ := read_uses front directory accepted
  rw [begins, Int64.toInt_ofNat_of_lt (by omega)] at before
  omega

/-- The verdict on a directory is final: more bytes change neither a directory nor its refusal for a
wrong signature or a malformed part. A directory takes up the bytes up to the start of the payloads and
depends on no others, and every part of them from the front is cut short. -/
theorem read_verdict_final :
    (∀ bytes more : Bytes, (∀ error, read bytes = .error error → ¬ error.IsCut) →
      read (bytes ++ more) = read bytes) ∧
    (∀ error : ReadError, ¬ error.IsCut →
      (Failure.ofDirectory error).kind = .signature ∨ (Failure.ofDirectory error).kind = .format) ∧
    ∀ (bytes : Bytes) (directory : Directory), bytes.length < 0x4000000000000000 →
      read bytes = .ok directory →
      ∃ n : Nat, directory.dataStart.toInt = n ∧ 18 ≤ n ∧ n ≤ bytes.length ∧
        (∀ other : Bytes, other.take n = bytes.take n → read other = .ok directory) ∧
        ∀ front : Bytes, front <+: bytes.take n → front ≠ bytes.take n →
          ∃ error, read front = .error error ∧ error.IsCut := by
  refine ⟨read_append, kind_of_not_isCut, ?_⟩
  intro bytes directory short accepted
  obtain ⟨n, begins, long, within, depends⟩ := read_uses bytes directory accepted
  have position : directory.dataStart.toInt = n := by
    rw [begins, Int64.toInt_ofNat_of_lt (by omega)]
  refine ⟨n, position, long, within, depends, ?_⟩
  intro front shorter strict
  apply read_cut bytes front directory accepted short (shorter.trans (List.take_prefix n bytes))
  have less : front.length < (bytes.take n).length := by
    apply Nat.lt_of_le_of_ne shorter.length_le
    intro same
    exact strict (shorter.eq_of_length same)
  rw [List.length_take] at less
  omega

def twoByteContainer : Bytes :=
  [0x49, 0x47, 0x41, 0x30, 0, 0, 0, 0, 2, 0, 0, 0, 2, 0, 0, 0, 7, 1, 1, 5, 3, 195, 10, 20]

def twoByteDirectory : Directory where
  header := .standard
  entries := [⟨0, [0x61], 0, 2⟩]
  dataStart := 22

/-- The directory of `twoByteContainer` is settled, the bytes before its end are cut short wherever they
stop, and a wrong signature is settled by four bytes. -/
theorem read_verdict_final_two_bytes :
    (∀ more, read (twoByteContainer ++ more) = .ok twoByteDirectory) ∧
    (∀ length < 22, ∃ error, read (twoByteContainer.take length) = .error error ∧ error.IsCut) ∧
    ∀ more, read ([0x49, 0x47, 0x41, 0x31] ++ more) =
      .error (.header (.signature #v[0x49, 0x47, 0x41, 0x31])) := by
  have accepted : read twoByteContainer = .ok twoByteDirectory := Result.eq_ok_of_toOption (by decide +kernel)
  have refused : read [0x49, 0x47, 0x41, 0x31] =
      .error (.header (.signature #v[0x49, 0x47, 0x41, 0x31])) := by
    rfl
  refine ⟨?_, ?_, ?_⟩
  · intro more
    rw [read_verdict_final.1 twoByteContainer more (by rw [accepted]; exact nofun), accepted]
  · intro length below
    obtain ⟨n, position, _, _, _, cut⟩ :=
      read_verdict_final.2.2 twoByteContainer twoByteDirectory (by decide) accepted
    have here : n = 22 := by
      have value : twoByteDirectory.dataStart.toInt = 22 := by decide
      omega
    subst here
    apply cut (twoByteContainer.take length) (List.take_prefix_take_left (by omega))
    intro same
    have lengths := congrArg List.length same
    rw [List.length_take, List.length_take] at lengths
    have whole : twoByteContainer.length = 24 := rfl
    omega
  · intro more
    rw [read_verdict_final.1 _ more, refused]
    intro error same
    rw [refused] at same
    cases same
    decide

end IgaArchive.Directory

import IgaArchive.Proofs.Archive.Confinement
import IgaArchive.Proofs.Archive.Rejection
import IgaArchive.Proofs.Archive.RoundTrip
import IgaArchive.Proofs.Archive.Truncation

/-!
Names that are written and names that are read. A member takes the last element of its path for a name,
and the writer tells elements by slashes only. The reader counts backslashes as separators too, so of the
names that are written it refuses those that a backslash makes absolute or lets climb, and no others.
-/

namespace IgaArchive.Bytes

theorem pieces_congr (first second : UInt8 → Bool) (bytes : Bytes)
    (agree : ∀ b ∈ bytes, first b = second b) : bytes.pieces first = bytes.pieces second := by
  induction bytes with
  | nil => rfl
  | cons b bytes ih =>
      have rest := ih fun other member => agree other (List.mem_cons_of_mem _ member)
      simp only [pieces] at rest ⊢
      rw [List.splitOnP_cons_eq_if_modifyHead, List.splitOnP_cons_eq_if_modifyHead,
        agree b List.mem_cons_self, rest]

end IgaArchive.Bytes

namespace IgaArchive.EntryName

/-- A name that leads away from where it is extracted if backslashes count as separators. -/
def Backslashed (name : Bytes) : Prop :=
  name.head? = some Bytes.backslash ∨ Path.parent ∈ name.pieces (· == Bytes.backslash)

instance (name : Bytes) : Decidable (Backslashed name) :=
  inferInstanceAs (Decidable (_ ∨ _))

theorem check_plain (name : Bytes) (nonempty : name ≠ []) (plain : Bytes.slash ∉ name) :
    check name = .ok () ↔ ¬ Backslashed name := by
  have agree : ∀ b ∈ name, isSeparator b = (b == Bytes.backslash) := by
    intro b member
    have other : b ≠ Bytes.slash := fun same => plain (same ▸ member)
    simp [isSeparator, other]
  have relative : name.head? ≠ some Bytes.slash :=
    fun first => plain (List.mem_of_mem_head? first)
  have refused := check_eq_error_iff name
  rw [Bytes.pieces_congr _ _ name agree] at refused
  simp only [nonempty, relative, false_or] at refused
  rw [Backslashed, ← refused]
  cases check name with
  | error refusal => simp
  | ok done => simp

end IgaArchive.EntryName

namespace IgaArchive.Archive

theorem check_member (store : Store) (paths : List Bytes) (members : List Member)
    (found : paths.mapM (memberAt? store) = some members) (member : Member) (inside : member ∈ members) :
    EntryName.check member.name = .ok () ↔ ¬ EntryName.Backslashed member.name := by
  obtain ⟨path, read⟩ := path_of_member store paths members found member inside
  have named := (memberAt?_eq_some store path member read).1
  obtain ⟨nonempty, plain, _⟩ := Path.elements_of_fileName path member.name named
  exact EntryName.check_plain member.name nonempty plain

theorem extract_refuses_name_iff (path : Bytes) (options : ExtractOptions) (before : Workspace)
    (container : Bytes) (directory : Directory) (plain : options.lz4 = false)
    (valid : Payload.ValidBuffer (Payload.chosenBuffer options.buffer))
    (whole : before.store.readWhole path = .ok container)
    (judged : verdict container = .ok directory) :
    (∃ refusal after, (extract path options).runOn before = (.error (.entryName refusal), after)) ↔
      ∃ entry ∈ directory.entries, EntryName.check entry.name ≠ .ok () := by
  obtain ⟨messages, opening⟩ := openAt_run path container before whole
  simp only [judged, Except.map, ← plain] at opening
  rw [extract_of_opened path options before _ _ valid opening]
  cases listing : tasks directory options.outputDirectory options.policy with
  | error refusal =>
      constructor
      · intro _
        apply Classical.byContradiction
        intro fine
        have listed := (tasks_eq_ok directory options.outputDirectory options.policy _).mpr
          ⟨fun entry member => Classical.not_not.mp fun bad => fine ⟨entry, member, bad⟩, rfl⟩
        rw [listing] at listed
        cases listed
      · intro _
        exact ⟨refusal, before.detailed messages,
          Action.bind_of_error _ _ _ _ _ (Action.ofExcept_run _ _)⟩
  | ok list =>
      have fine := ((tasks_eq_ok _ _ _ _).mp listing).1
      constructor
      · rintro ⟨refusal, after, failed⟩
        rw [Result.mapError_ok, Action.bind_of_ok _ _ _ _ _ (Action.ofExcept_run _ _)] at failed
        have rejected : (Failure.entryName refusal).IsRejection := by
          simp [Failure.IsRejection, Failure.kind]
        exact absurd rejected (performing_neverRejects _ options list _ after _ failed)
      · rintro ⟨entry, member, bad⟩
        exact absurd (fine entry member) bad

theorem compress_names (output : Bytes) (paths : List Bytes) (options : CompressOptions)
    (before after : Workspace) (plain : options.lz4 = false)
    (unreached : ¬ before.log.Reaches before.store (before.store.place output))
    (compressed : (compress output paths options).runOn before = (.ok (), after)) :
    ∃ members container directory, paths.mapM (memberAt? before.store) = some members ∧
      after.store.readWhole output = .ok container ∧ verdict container = .ok directory ∧
      directory.entries.map Entry.name = members.map Member.name := by
  rcases compress_outcome output paths options before after _ plain unreached compressed with
    ⟨_, failed, _⟩ | ⟨members, directory, encoded, plan, ends⟩
  · cases failed
  obtain ⟨payload, length, whole⟩ := ends.whole rfl
  obtain ⟨container, same, kept, read, short, exactly⟩ :=
    compress_reaches output paths options before after plain unreached compressed
  rw [whole] at kept
  cases kept
  rw [plan.read payload] at read
  cases read
  refine ⟨members, encoded ++ payload, directory, plan.inputs, whole, ?_, ?_⟩
  · exact verdict_front _ _ directory (plan.read payload) (List.prefix_refl _) short
      (Int.le_of_eq exactly)
  · rw [plan.laid.entries, Directory.consecutive_names, List.map_map]
    rfl

/-- Of what is compressed, extraction refuses the names that a backslash makes absolute or lets climb, and
no others. So a fresh archive is refused for a name just when it has such a member. -/
theorem extract_refuses_backslashed (output : Bytes) (paths : List Bytes) (options : CompressOptions)
    (before after : Workspace) (plain : options.lz4 = false)
    (unreached : ¬ before.log.Reaches before.store (before.store.place output))
    (compressed : (compress output paths options).runOn before = (.ok (), after)) :
    ∃ members, paths.mapM (memberAt? before.store) = some members ∧
      (∀ member ∈ members,
        EntryName.check member.name = .ok () ↔ ¬ EntryName.Backslashed member.name) ∧
      ∀ (path : Bytes) (extraction : ExtractOptions) (later : Workspace), extraction.lz4 = false →
        Payload.ValidBuffer (Payload.chosenBuffer extraction.buffer) →
        later.store.readWhole path = after.store.readWhole output →
        ((∃ refusal last,
            (extract path extraction).runOn later = (.error (.entryName refusal), last)) ↔
          ∃ member ∈ members, EntryName.Backslashed member.name) := by
  obtain ⟨members, container, directory, found, whole, judged, names⟩ :=
    compress_names output paths options before after plain unreached compressed
  have checked := check_member before.store paths members found
  refine ⟨members, found, checked, ?_⟩
  intro path extraction later unwrapped valid same
  rw [whole] at same
  rw [extract_refuses_name_iff path extraction later container directory unwrapped valid same judged]
  constructor
  · rintro ⟨entry, listed, bad⟩
    have named := List.mem_map_of_mem (f := Entry.name) listed
    rw [names] at named
    obtain ⟨member, inside, alike⟩ := List.mem_map.mp named
    rw [← alike, Ne, checked member inside, Classical.not_not] at bad
    exact ⟨member, inside, bad⟩
  · rintro ⟨member, inside, bad⟩
    have named := List.mem_map_of_mem (f := Member.name) inside
    rw [← names] at named
    obtain ⟨entry, listed, alike⟩ := List.mem_map.mp named
    refine ⟨entry, listed, ?_⟩
    rw [alike, Ne, checked member inside, Classical.not_not]
    exact bad

/-- Two files whose names have backslashes in them; only the second name climbs. -/
def backslashNames : Workspace where
  store := (Store.initial.put [utf8 "work", utf8 "c\\d"] (.file (.ofBytes (utf8 "kept")))).put
    [utf8 "work", utf8 "a\\..\\b"] (.file (.ofBytes (utf8 "lost")))

/-- A backslash alone does no harm, but with `..` behind it the whole archive is refused. -/
theorem extract_refuses_backslashed_climbing :
    (∃ after, (compress (utf8 "out") [utf8 "c\\d"] {}).runOn backslashNames = (.ok (), after) ∧
      ¬ ∃ refusal last, (extract (utf8 "out") {}).runOn after = (.error (.entryName refusal), last)) ∧
    ∃ after refusal last,
      (compress (utf8 "out") [utf8 "c\\d", utf8 "a\\..\\b"] {}).runOn backslashNames = (.ok (), after) ∧
      (extract (utf8 "out") {}).runOn after = (.error (.entryName refusal), last) := by
  have unreached : ∀ location, ¬ backslashNames.log.Reaches backslashNames.store location :=
    fun _ reached => nomatch reached.1
  constructor
  · have works : ((compress (utf8 "out") [utf8 "c\\d"] {}).runOn backslashNames).1.toOption.isSome = true := by
      decide +kernel
    obtain ⟨_, after, compressed⟩ := Action.exists_ok works
    obtain ⟨members, found, _, refuses⟩ := extract_refuses_backslashed _ _ _ _ after rfl
      (unreached _) compressed
    refine ⟨after, compressed, ?_⟩
    rw [refuses (utf8 "out") {} after rfl (by decide) rfl]
    have inputs : [utf8 "c\\d"].mapM (memberAt? backslashNames.store) =
        some [⟨utf8 "c\\d", utf8 "kept"⟩] := by
      decide +kernel
    rw [inputs] at found
    cases found
    decide +kernel
  · have works : ((compress (utf8 "out") [utf8 "c\\d", utf8 "a\\..\\b"] {}).runOn
        backslashNames).1.toOption.isSome = true := by
      decide +kernel
    obtain ⟨_, after, compressed⟩ := Action.exists_ok works
    obtain ⟨members, found, _, refuses⟩ := extract_refuses_backslashed _ _ _ _ after rfl
      (unreached _) compressed
    have inputs : [utf8 "c\\d", utf8 "a\\..\\b"].mapM (memberAt? backslashNames.store) =
        some [⟨utf8 "c\\d", utf8 "kept"⟩, ⟨utf8 "a\\..\\b", utf8 "lost"⟩] := by
      decide +kernel
    rw [inputs] at found
    cases found
    obtain ⟨refusal, last, refused⟩ := (refuses (utf8 "out") {} after rfl (by decide) rfl).mpr
      (by decide +kernel)
    exact ⟨after, refusal, last, compressed, refused⟩

def leadingBackslash : Workspace where
  store := Store.initial.put [utf8 "work", utf8 "\\evil"] (.file (.ofBytes (utf8 "hello")))

/-- It is compressed, but its archive cannot be extracted: the stored name is refused. -/
theorem compressed_name_refused :
    ∃ after last,
      (compress (utf8 "a.iga") [utf8 "\\evil"] {}).runOn leadingBackslash = (.ok (), after) ∧
      [utf8 "\\evil"].mapM (memberAt? leadingBackslash.store) = some [⟨utf8 "\\evil", utf8 "hello"⟩] ∧
      EntryName.check (utf8 "\\evil") ≠ .ok () ∧
      (extract (utf8 "a.iga") { outputDirectory := utf8 "x", makeDirectory := true }).runOn after =
        (.error (.entryName (.absolute (utf8 "\\evil"))), last) := by
  have works : ((compress (utf8 "a.iga") [utf8 "\\evil"] {}).runOn leadingBackslash).1.toOption.isSome =
      true := by
    decide +kernel
  have inputs : [utf8 "\\evil"].mapM (memberAt? leadingBackslash.store) =
      some [⟨utf8 "\\evil", utf8 "hello"⟩] := by
    decide +kernel
  have refusedName : EntryName.check (utf8 "\\evil") ≠ .ok () :=
    fun safe => absurd (congrArg Except.toOption safe) (by decide +kernel)
  have fails : Result.error? ((extract (utf8 "a.iga")
      { outputDirectory := utf8 "x", makeDirectory := true }).runOn
        ((compress (utf8 "a.iga") [utf8 "\\evil"] {}).runOn leadingBackslash).2).1 =
      some (.entryName (.absolute (utf8 "\\evil"))) := by
    decide +kernel
  obtain ⟨_, after, compressed⟩ := Action.exists_ok works
  rw [compressed] at fails
  obtain ⟨last, failed⟩ := Action.exists_of_error? fails
  exact ⟨after, last, compressed, inputs, refusedName, failed⟩

end IgaArchive.Archive

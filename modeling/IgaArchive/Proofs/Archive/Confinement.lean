import IgaArchive.Proofs.Archive.Destinations

/-!
Extraction stays inside the output directory. A name that is accepted adds its own elements to the clean
output directory: it takes none of them away, and none of those it adds goes up. The names that are refused
are told by their text.
-/

namespace IgaArchive.Path

/-- The elements of a path split at its slashes, without empty ones and `.`. -/
def proper (path : Bytes) : List Bytes :=
  (path.pieces isSlash).filter fun element => element ≠ [] ∧ element ≠ here

theorem proper_eq_added (path : Bytes) : proper path = added path := by
  rw [proper, added, elements, Bytes.fields, List.filter_filter]
  congr 1
  funext element
  cases element <;> simp

theorem here_not_mem_cleanElements (path : Bytes) : here ∉ cleanElements path := by
  intro member
  rw [cleanElements, List.mem_reverse] at member
  rcases foldl_cleanStep_plain _ _ _ _ member with none | ⟨_, other⟩
  · cases none
  · exact other rfl

theorem added_render (rooted : Bool) (names : List Bytes)
    (plain : ∀ name ∈ names, name ≠ [] ∧ Bytes.slash ∉ name) (goes : here ∉ names) :
    added (render rooted names) = names := by
  rw [added, elements_render rooted names plain]
  split
  · rename_i nothing
    simp [nothing.2]
  · apply List.filter_eq_self.mpr
    intro name member
    simpa using fun stays : name = here => goes (stays ▸ member)

theorem proper_clean (path : Bytes) : proper (clean path) = cleanElements path := by
  rw [proper_eq_added, clean]
  exact added_render _ _ (cleanElements_plain path) (here_not_mem_cleanElements path)

theorem proper_join (base name : Bytes) (nonempty : base ≠ []) (down : parent ∉ elements name) :
    proper (join base name) = proper (clean base) ++ proper name := by
  have goes : here ∉ cleanElements base ++ added name := by
    rw [List.mem_append]
    rintro (inBase | inName)
    · exact here_not_mem_cleanElements base inBase
    · simpa using (List.mem_filter.mp inName).2
  rw [proper_clean, proper_eq_added, proper_eq_added, join_eq_render base name nonempty down]
  exact added_render _ _ (joined_plain base name) goes

end IgaArchive.Path

namespace IgaArchive.EntryName

theorem parent_mem_fields_iff (name : Bytes) :
    Path.parent ∈ name.fields isSeparator ↔ Path.parent ∈ name.pieces isSeparator := by
  rw [Bytes.fields, List.mem_filter]
  exact and_iff_left (by decide)

theorem check_eq_error_iff (name : Bytes) :
    (∃ refusal, check name = .error refusal) ↔
      name = [] ∨ name.head? = some Bytes.slash ∨ name.head? = some Bytes.backslash ∨
        Path.parent ∈ name.pieces isSeparator := by
  rw [← parent_mem_fields_iff, check]
  cases name with
  | nil => simp
  | cons first rest =>
      by_cases starts : first = Bytes.slash ∨ first = Bytes.backslash
      · rcases starts with rfl | rfl <;> simp [isSeparator]
      · obtain ⟨noSlash, noBackslash⟩ := not_or.mp starts
        by_cases climbs : Path.parent ∈ Bytes.fields isSeparator (first :: rest)
        · simp [isSeparator, noSlash, noBackslash, climbs]
        · simp [isSeparator, noSlash, noBackslash, climbs]

end IgaArchive.EntryName

namespace IgaArchive.Archive

theorem isAbsolute_baseOf (out : Bytes) : Path.isAbsolute (baseOf out) = Path.isAbsolute out := by
  rw [baseOf]
  split
  · rename_i empty
    rw [empty]
    decide
  · rfl

theorem clean_baseOf (out : Bytes) : Path.clean (baseOf out) = Path.clean out := by
  rw [baseOf]
  split
  · rename_i empty
    rw [empty]
    decide
  · rfl

/-- Extraction stays inside the output directory. The destination of an accepted name is absolute just
when the output directory is, and has the elements of the clean output directory followed by those of the
name, among which there is no `..`. Every task of an extraction has such a destination. The names that are
refused are those that are empty, start with a slash or a backslash, or have an element `..` between
slashes and backslashes. -/
theorem extraction_stays_inside :
    (∀ out name : Bytes, EntryName.check name = .ok () →
      Path.isAbsolute (Path.join (baseOf out) name) = Path.isAbsolute out ∧
      Path.proper (Path.join (baseOf out) name) = Path.proper (Path.clean out) ++ Path.proper name ∧
      Path.join (baseOf out) name =
        Path.render (Path.isAbsolute out) (Path.proper (Path.clean out) ++ Path.proper name) ∧
      Path.parent ∉ Path.proper name) ∧
    (∀ (directory : Directory) (out : Bytes) (policy : KeyPolicy) (list : List Task),
      tasks directory out policy = .ok list → ∀ task ∈ list,
        EntryName.check task.entry.name = .ok () ∧
          task.destination = Path.join (baseOf out) task.entry.name) ∧
    ∀ name : Bytes, (∃ refusal, EntryName.check name = .error refusal) ↔
      name = [] ∨ name.head? = some Bytes.slash ∨ name.head? = some Bytes.backslash ∨
        Path.parent ∈ name.pieces EntryName.isSeparator := by
  refine ⟨?_, ?_, EntryName.check_eq_error_iff⟩
  · intro out name accepted
    have nonempty := baseOf_ne_nil out
    obtain ⟨_, down⟩ := EntryName.check_eq_ok name accepted
    refine ⟨?_, ?_, ?_, ?_⟩
    · rw [Path.isAbsolute_join _ _ nonempty down, isAbsolute_baseOf]
    · rw [Path.proper_join _ _ nonempty down, clean_baseOf]
    · rw [Path.join_eq_render _ _ nonempty down, isAbsolute_baseOf, ← Path.proper_clean, clean_baseOf,
        Path.proper_eq_added name]
    · rw [Path.proper_eq_added]
      exact fun up => down (List.mem_filter.mp up).1
  · intro directory out policy list listed task member
    obtain ⟨accepted, rfl⟩ := (tasks_eq_ok _ _ _ _).mp listed
    obtain ⟨entry, inside, rfl⟩ := List.mem_map.mp member
    exact ⟨accepted entry inside, rfl⟩

/-- A directory above the working directory keeps its `..`, and a name that climbs behind a backslash is
refused. -/
theorem extraction_stays_inside_above :
    Path.proper (Path.join (baseOf (utf8 "../x/./y/..")) (utf8 "a//./b.s")) =
      [utf8 "..", utf8 "x", utf8 "a", utf8 "b.s"] ∧
    Path.isAbsolute (Path.join (baseOf []) (utf8 "c\\d")) = false ∧
    ∃ refusal, EntryName.check (utf8 "a\\..\\b") = .error refusal := by
  refine ⟨?_, ?_, ?_⟩
  · rw [(extraction_stays_inside.1 _ _ (by rfl)).2.1]
    decide +kernel
  · rw [(extraction_stays_inside.1 _ _ (by rfl)).1]
    rfl
  · rw [extraction_stays_inside.2.2]
    decide +kernel

end IgaArchive.Archive

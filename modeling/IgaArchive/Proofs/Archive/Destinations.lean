import IgaArchive.Archive.Extraction
import IgaArchive.Proofs.Store.Frame

/-!
Where members go. A task is made for every entry, or none at all if a name is refused; the destination
lies below the output directory by the elements of the name, so two members share a place only if they
share the destination.
-/

namespace IgaArchive.Store

theorem foldl_follow_down (names : List Bytes) (location : Location)
    (proper : ∀ name ∈ names, name ≠ Path.here ∧ name ≠ Path.parent) :
    names.foldl follow location = location ++ names := by
  induction names generalizing location with
  | nil => simp
  | cons name names ih =>
      obtain ⟨goes, down⟩ := proper name (by simp)
      rw [List.foldl_cons, ih _ fun other inside => proper other (List.mem_cons_of_mem _ inside)]
      simp [follow, goes, down]

theorem added_proper (name element : Bytes) (down : Path.parent ∉ Path.elements name)
    (member : element ∈ Path.added name) : element ≠ Path.here ∧ element ≠ Path.parent := by
  obtain ⟨inside, goes⟩ := List.mem_filter.mp member
  refine ⟨by simpa using goes, ?_⟩
  intro up
  exact down (up ▸ inside)

theorem place_join (store : Store) (base name : Bytes) (nonempty : base ≠ [])
    (down : Path.parent ∉ Path.elements name) :
    store.place (Path.join base name) =
      (Path.cleanElements base).foldl follow (store.origin base) ++ Path.added name := by
  have origin : store.origin (Path.join base name) = store.origin base := by
    simp only [Store.origin, Path.isAbsolute_join base name nonempty down]
  have below := foldl_follow_down (Path.added name)
    ((Path.cleanElements base).foldl follow (store.origin base))
    (fun element member => added_proper name element down member)
  rw [place, origin, Path.elements_join base name nonempty down]
  split
  · rename_i empty
    obtain ⟨cleanEmpty, addedEmpty⟩ := List.append_eq_nil_iff.mp empty.2
    rw [cleanEmpty, addedEmpty]
    simp [follow]
  · rw [List.foldl_append, below]

theorem join_eq_of_place_eq (store : Store) (base name other : Bytes) (nonempty : base ≠ [])
    (down : Path.parent ∉ Path.elements name) (otherDown : Path.parent ∉ Path.elements other)
    (same : store.place (Path.join base name) = store.place (Path.join base other)) :
    Path.join base name = Path.join base other := by
  rw [place_join store base name nonempty down, place_join store base other nonempty otherDown,
    List.append_cancel_left_eq] at same
  rw [Path.join_eq_render base name nonempty down, Path.join_eq_render base other nonempty otherDown,
    same]

theorem walk_concat (store : Store) (origin location next : Location) (names : List Bytes)
    (name : Bytes) (soFar : store.walk origin names = .ok location)
    (stepped : store.step location name = .ok next) :
    store.walk origin (names ++ [name]) = .ok next := by
  rw [walk_append, soFar]
  simp [Except.bind, walk_cons, walk_nil, stepped]

theorem walk_cleanStep (store : Store) (origin location next : Location) (rooted : Bool)
    (kept : List Bytes) (name : Bytes) (root : rooted = true → origin = [])
    (soFar : store.walk origin kept.reverse = .ok location) (proper : Path.here ∉ kept)
    (nonempty : name ≠ []) (stepped : store.step location name = .ok next) :
    store.walk origin (Path.cleanStep rooted kept name).reverse = .ok next := by
  have leads := (step_eq_ok store location next name stepped).1
  rw [Path.cleanStep.eq_def]
  split
  · rename_i dropped
    have stays : name = Path.here := by
      rcases dropped with empty | stays
      · exact absurd empty nonempty
      · exact stays
    rw [leads, follow, if_pos stays]
    exact soFar
  · rename_i goes
    split
    · rename_i up
      have back : next = location.dropLast := by
        rw [leads, follow, if_neg (fun stays => goes (Or.inr stays)), if_pos up]
      cases kept with
      | nil =>
          cases soFar
          cases rooted with
          | true =>
              rw [back, root rfl]
              rfl
          | false =>
              rw [up] at stepped
              exact walk_concat store origin origin next [] Path.parent rfl stepped
      | cons last kept =>
          rw [List.reverse_cons] at soFar
          by_cases above : last = Path.parent
          · simp only [if_pos above, List.reverse_cons]
            rw [up] at stepped
            exact walk_concat store origin location next _ _ soFar stepped
          · rw [walk_append] at soFar
            obtain ⟨before, walked, lastStep⟩ := Result.bind_eq_ok soFar
            rw [walk_cons] at lastStep
            obtain ⟨reached, entered, same⟩ := Result.bind_eq_ok lastStep
            cases same
            have below := (step_eq_ok store before location last entered).1
            have named : last ≠ Path.here := by
              intro stays
              exact proper (by simp [stays])
            simp only [if_neg above]
            rw [back, below, follow, if_neg named, if_neg above, List.dropLast_concat]
            exact walked
    · rw [List.reverse_cons]
      exact walk_concat store origin location next _ _ soFar stepped

theorem walk_foldl_cleanStep (store : Store) (origin location final : Location) (rooted : Bool)
    (kept names : List Bytes) (root : rooted = true → origin = [])
    (soFar : store.walk origin kept.reverse = .ok location) (proper : Path.here ∉ kept)
    (nonempty : ∀ name ∈ names, name ≠ []) (walked : store.walk location names = .ok final) :
    store.walk origin (names.foldl (Path.cleanStep rooted) kept).reverse = .ok final := by
  induction names generalizing kept location with
  | nil =>
      cases walked
      exact soFar
  | cons name names ih =>
      rw [walk_cons] at walked
      obtain ⟨next, stepped, rest⟩ := Result.bind_eq_ok walked
      rw [List.foldl_cons]
      apply ih next _ ?_ ?_ (fun other inside => nonempty other (List.mem_cons_of_mem _ inside)) rest
      · exact walk_cleanStep store origin location next rooted kept name root soFar proper
          (nonempty name (by simp)) stepped
      · intro member
        rcases Path.cleanStep_plain rooted kept name Path.here member with old | ⟨same, other⟩
        · exact proper old
        · exact other same.symm

theorem walk_cleanElements (store : Store) (base : Bytes) (final : Location)
    (walked : store.walk (store.origin base) (Path.elements base) = .ok final) :
    store.walk (store.origin base) (Path.cleanElements base) = .ok final := by
  apply walk_foldl_cleanStep store (store.origin base) (store.origin base) final _ [] _ ?_ rfl (by simp)
  · intro name member
    exact (Path.elements_plain base name member).1
  · exact walked
  · intro rooted
    simp [Store.origin, rooted]

theorem checkPath_eq_ok {path : Bytes} :
    checkPath path = .ok () ↔ 0 ∉ path ∧ path ≠ [] ∧ path.length ≤ maxPath := by
  rw [checkPath]
  by_cases zero : 0 ∈ path
  · simp [zero]
  · by_cases empty : path = []
    · simp [empty]
    · by_cases long : path.length > maxPath
      · simp [zero, empty, long, Nat.not_le.mpr long]
      · simp [zero, empty, long, Nat.not_lt.mp long]

/-- A name that a directory can hold. -/
structure Nameable (name : Bytes) : Prop extends Path.Leaf name where
  nonzero : 0 ∉ name
  short : name.length ≤ maxName

theorem meansDirectory_join (base name : Bytes) (nonempty : base ≠ []) (leaf : Path.Leaf name) :
    meansDirectory (Path.join base name) = false := by
  obtain ⟨lead, ends⟩ := leaf.join_ends base nonempty
  rcases name.eq_nil_or_concat with empty | ⟨front, last, shape⟩
  · exact absurd empty leaf.nonempty
  · have final : last ≠ Bytes.slash := by
      intro slash
      exact leaf.plain (by simp [shape, slash])
    rw [meansDirectory, ends, shape, List.concat_eq_append, ← List.append_assoc, List.getLast?_concat]
    simpa using final

theorem findParent_join (store : Store) (base name : Bytes) (directory : Location)
    (found : store.find base = .ok (directory, .directory)) (leaf : Path.Leaf name)
    (checked : checkPath (Path.join base name) = .ok ()) :
    store.findParent (Path.join base name) = .ok (some (directory, name)) := by
  obtain ⟨usable, walked, _, present⟩ := find_eq_ok store base directory .directory found
  have nonempty := (checkPath_eq_ok.mp usable).2.1
  have origin : store.origin (Path.join base name) = store.origin base := by
    simp only [Store.origin, Path.isAbsolute_join base name nonempty leaf.parent_not_mem]
  apply findParent_of store _ directory name checked
  · rw [leaf.elements_join base nonempty, List.getLast?_concat]
  · rw [leaf.elements_join base nonempty, List.dropLast_concat, origin]
    exact walk_cleanElements store base directory walked
  · exact present
  · exact leaf.goes
  · exact leaf.down

theorem fileTarget_join (store : Store) (base name : Bytes) (directory : Location)
    (found : store.find base = .ok (directory, .directory)) (nameable : Nameable name)
    (within : (Path.join base name).length ≤ maxPath)
    (free : store.node? (directory ++ [name]) ≠ some .directory) :
    store.fileTarget (Path.join base name) =
      .ok (directory ++ [name], store.node? (directory ++ [name])) := by
  obtain ⟨leaf, nonzero, short⟩ := nameable
  obtain ⟨checked, _, _, _⟩ := find_eq_ok store base directory .directory found
  obtain ⟨baseNonzero, nonempty, _⟩ := checkPath_eq_ok.mp checked
  obtain ⟨lead, ends⟩ := leaf.join_ends base nonempty
  apply fileTarget_of store _ directory name ?_ (meansDirectory_join base name nonempty leaf) short free
  apply findParent_join store base name directory found leaf
  refine checkPath_eq_ok.mpr ⟨?_, ?_, within⟩
  · intro zero
    rcases leaf.mem_join base nonempty 0 zero with slash | inBase | inName
    · exact absurd slash (by decide)
    · exact baseNonzero inBase
    · exact nonzero inName
  · rw [ends]
    simp [leaf.nonempty]

end IgaArchive.Store

namespace IgaArchive.Archive

/-- The directory that members go to by its path. -/
def baseOf (outputDirectory : Bytes) : Bytes :=
  if outputDirectory = [] then Path.here else outputDirectory

theorem baseOf_ne_nil (outputDirectory : Bytes) : baseOf outputDirectory ≠ [] := by
  rw [baseOf]
  split
  · decide
  · assumption

def taskOf (directory : Directory) (outputDirectory : Bytes) (policy : KeyPolicy) (entry : Entry) :
    Task :=
  { entry, start := directory.start entry,
    destination := Path.join (baseOf outputDirectory) entry.name,
    key := Payload.key entry.name policy }

theorem taskFor_eq (directory : Directory) (outputDirectory : Bytes) (policy : KeyPolicy)
    (entry : Entry) : taskFor directory (baseOf outputDirectory) policy entry =
      (EntryName.check entry.name).map fun _ => taskOf directory outputDirectory policy entry := by
  rw [taskFor]
  cases EntryName.check entry.name <;> rfl

theorem mapM_taskFor (directory : Directory) (outputDirectory : Bytes) (policy : KeyPolicy)
    (entries : List Entry) (list : List Task) :
    entries.mapM (taskFor directory (baseOf outputDirectory) policy) = .ok list ↔
      (∀ entry ∈ entries, EntryName.check entry.name = .ok ()) ∧
        entries.map (taskOf directory outputDirectory policy) = list := by
  induction entries generalizing list with
  | nil => simp [pure, Except.pure]
  | cons entry entries ih =>
      rw [List.mapM_cons, taskFor_eq, List.forall_mem_cons]
      cases checked : EntryName.check entry.name with
      | error refusal => simp [Except.map, bind, Except.bind]
      | ok accepted =>
          cases rest : entries.mapM (taskFor directory (baseOf outputDirectory) policy) with
          | error refusal =>
              have refused := (ih (entries.map (taskOf directory outputDirectory policy))).mpr
              rw [rest] at refused
              simp only [Except.map, bind, Except.bind, reduceCtorEq, false_iff]
              rintro ⟨⟨_, all⟩, _⟩
              exact absurd (refused ⟨all, rfl⟩) nofun
          | ok tasks =>
              obtain ⟨all, shape⟩ := (ih tasks).mp rest
              simp only [Except.map, bind, Except.bind, pure, Except.pure, Except.ok.injEq, true_and,
                List.map_cons, shape]
              exact ⟨fun same => ⟨all, same⟩, fun both => both.2⟩

theorem tasks_eq_ok (directory : Directory) (outputDirectory : Bytes) (policy : KeyPolicy)
    (list : List Task) :
    tasks directory outputDirectory policy = .ok list ↔
      (∀ entry ∈ directory.entries, EntryName.check entry.name = .ok ()) ∧
        directory.entries.map (taskOf directory outputDirectory policy) = list :=
  mapM_taskFor directory outputDirectory policy directory.entries list

end IgaArchive.Archive

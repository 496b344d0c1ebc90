import IgaArchive.Proofs.Archive.Confinement

/-!
Making files in a directory that holds nothing but files. What stands in the way of a file is told by the
path as a text, by the proper elements of its name, and by the names that are taken; where the directory
stands makes no difference.
-/

namespace IgaArchive.Path

theorem mem_intercalate_of_mem (names : List Bytes) (name : Bytes) (b : UInt8) (listed : name ∈ names)
    (inside : b ∈ name) : b ∈ [Bytes.slash].intercalate names := by
  induction names with
  | nil => cases listed
  | cons first names ih =>
      cases names with
      | nil =>
          rw [List.mem_singleton] at listed
          rw [List.intercalate_singleton, ← listed]
          exact inside
      | cons next names =>
          rw [List.intercalate_cons_cons, List.append_assoc, List.mem_append]
          rcases List.mem_cons.mp listed with rfl | later
          · exact Or.inl inside
          · exact Or.inr (List.mem_cons_of_mem _ (ih later))

theorem render_ne_nil (rooted : Bool) (names : List Bytes)
    (plain : ∀ name ∈ names, name ≠ [] ∧ Bytes.slash ∉ name) : render rooted names ≠ [] := by
  rw [render]
  split
  · exact List.cons_ne_nil _ _
  · split
    · exact List.cons_ne_nil _ _
    · rename_i some
      intro nothing
      have listed := elements_intercalate names plain
      rw [nothing, elements_nil] at listed
      rw [← listed] at some
      exact some rfl

theorem clean_ne_nil (path : Bytes) : clean path ≠ [] :=
  render_ne_nil _ _ (cleanElements_plain path)

section Join

variable (base name : Bytes) (nonempty : base ≠ []) (down : parent ∉ elements name)
include nonempty down

theorem join_ne_nil : join base name ≠ [] := by
  rw [join_eq_render base name nonempty down]
  exact render_ne_nil _ _ (joined_plain base name)

theorem zero_mem_join (clean : 0 ∉ base) :
    0 ∈ join base name ↔ ∃ element ∈ proper name, 0 ∈ element := by
  have kept : ∀ element ∈ cleanElements base, 0 ∉ element :=
    fun element listed zero => clean (cleanElements_subset base element listed 0 zero)
  rw [join_eq_render base name nonempty down, ← proper_eq_added]
  constructor
  · intro zero
    have inside : 0 ∈ [Bytes.slash].intercalate (cleanElements base ++ proper name) := by
      rw [render] at zero
      split at zero
      · rcases List.mem_cons.mp zero with slash | inside
        · exact absurd slash (by decide)
        · exact inside
      · split at zero
        · exact absurd zero (by decide)
        · exact zero
    rcases mem_intercalate _ 0 inside with slash | ⟨element, listed, found⟩
    · exact absurd slash (by decide)
    · rcases List.mem_append.mp listed with early | late
      · exact absurd found (kept element early)
      · exact ⟨element, late, found⟩
  · intro given
    obtain ⟨element, listed, found⟩ := given
    have inside := mem_intercalate_of_mem (cleanElements base ++ proper name) element 0
      (List.mem_append_right _ listed) found
    have some : (cleanElements base ++ proper name).isEmpty = false := by
      rw [List.isEmpty_eq_false_iff]
      exact List.append_ne_nil_of_right_ne_nil _ (List.ne_nil_of_mem listed)
    rw [render, some]
    split
    · exact List.mem_cons_of_mem _ inside
    · exact inside

end Join

end IgaArchive.Path

namespace IgaArchive.Store

/-- Whether a joined path can be used does not depend on the directory but for its length. -/
theorem checkPath_join_congr (base other name : Bytes) (usable : checkPath base = .ok ())
    (usableToo : checkPath other = .ok ()) (down : Path.parent ∉ Path.elements name)
    (long : (Path.join base name).length ≤ maxPath ↔ (Path.join other name).length ≤ maxPath) :
    checkPath (Path.join base name) = checkPath (Path.join other name) := by
  obtain ⟨clean, nonempty, _⟩ := checkPath_eq_ok.mp usable
  obtain ⟨cleanToo, nonemptyToo, _⟩ := checkPath_eq_ok.mp usableToo
  have zero : 0 ∈ Path.join base name ↔ 0 ∈ Path.join other name := by
    rw [Path.zero_mem_join base name nonempty down clean, Path.zero_mem_join other name nonemptyToo down
      cleanToo]
  have beyond : (Path.join base name).length > maxPath ↔ (Path.join other name).length > maxPath := by
    omega
  simp only [checkPath, List.contains_iff_mem, zero, beyond, List.isEmpty_iff,
    Path.join_ne_nil base name nonempty down, Path.join_ne_nil other name nonemptyToo down]

theorem fileTarget_of_directory (store : Store) (path : Bytes) (location : Location)
    (checked : checkPath path = .ok ())
    (walked : store.walk (store.origin path) (Path.elements path) = .ok location)
    (present : store.node? location = some .directory) :
    store.fileTarget path = .error .isDirectory := by
  cases ending : (Path.elements path).getLast? with
  | none =>
      simp only [fileTarget, findParent, checked, ending, bind, Except.bind, pure, Except.pure]
      rfl
  | some last =>
      obtain ⟨front, shape⟩ := List.getLast?_eq_some_iff.mp ending
      rw [shape, walk_append] at walked
      obtain ⟨before, led, rest⟩ := Result.bind_eq_ok walked
      rw [walk_cons] at rest
      obtain ⟨next, stepped, arrived⟩ := Result.bind_eq_ok rest
      cases arrived
      obtain ⟨leads, inside, _⟩ := step_eq_ok store before location last stepped
      have walking : store.walk (store.origin path) (Path.elements path).dropLast = .ok before := by
        rw [shape, List.dropLast_concat]
        exact led
      simp only [fileTarget, findParent, checked, ending, walking, inside, bind, Except.bind, pure,
        Except.pure]
      by_cases stays : last = Path.here ∨ last = Path.parent
      · rw [if_pos stays]
        rfl
      · rw [not_or] at stays
        obtain ⟨goes, down⟩ := stays
        have short := (step_eq_ok store before location last stepped).2.2 goes down
        simp only [follow, if_neg goes, if_neg down] at leads
        subst leads
        simp [goes, down, present, Nat.not_lt.mpr short.1]
        rfl

/-- A directory that holds nothing but files. -/
structure Flat (store : Store) (base : Bytes) (directory : Location) : Prop where
  found : store.find base = .ok (directory, .directory)
  files : ∀ below ≠ [], ∀ node, store.node? (directory ++ below) = some node →
    ∃ contents, node = .file contents

/-- What stands in the way of a file with these elements, where some names are taken by files. -/
def obstacle (taken : Bytes → Bool) : List Bytes → Option Errno
  | [] => some .isDirectory
  | [name] => if name.length > maxName then some .nameTooLong else none
  | name :: _ :: _ =>
    if name.length > maxName then some .nameTooLong
    else if taken name then some .notDirectory
    else some .notFound

def refusal (terms : Terms) : Option Errno :=
  if terms.readable && terms.writable then none else some .denied

/-- What stands in the way of a file with a name below a directory: the path of the file, the names that
are taken, or the terms of its place. -/
def hindrance (base : Bytes) (taken : Bytes → Bool) (terms : Location → Terms) (name : Bytes) :
    Option Errno :=
  match checkPath (Path.join base name) with
  | .error errno => some errno
  | .ok _ => (obstacle taken (Path.proper name)).or (refusal (terms (Path.proper name)))

theorem obstacle_eq_none (taken : Bytes → Bool) (elements : List Bytes)
    (free : obstacle taken elements = none) : ∃ name, elements = [name] := by
  rcases elements with _ | ⟨name, _ | ⟨_, _⟩⟩
  · cases free
  · exact ⟨name, rfl⟩
  · rw [obstacle] at free
    split at free
    · cases free
    · split at free <;> cases free

theorem hindrance_eq_none (base : Bytes) (taken : Bytes → Bool) (terms : Location → Terms)
    (name : Bytes) (free : hindrance base taken terms name = none) :
    ∃ last, Path.proper name = [last] := by
  rw [hindrance] at free
  split at free
  · cases free
  · exact obstacle_eq_none taken _ (Option.or_eq_none_iff.mp free).1

theorem hindrance_congr (base : Bytes) (taken : Bytes → Bool) (terms others : Location → Terms)
    (name : Bytes) (same : ∀ below ≠ [], terms below = others below) :
    hindrance base taken terms name = hindrance base taken others name := by
  rw [hindrance, hindrance]
  cases elements : Path.proper name with
  | nil => rfl
  | cons first rest => rw [same _ (List.cons_ne_nil first rest)]

namespace Flat

variable {store : Store} {base : Bytes} {directory : Location} (flat : Flat store base directory)
variable (name : Bytes) (down : Path.parent ∉ Path.elements name)
variable (checked : checkPath (Path.join base name) = .ok ())

include flat in
theorem nonempty : base ≠ [] := by
  obtain ⟨usable, _, _, _⟩ := find_eq_ok _ _ _ _ flat.found
  exact (checkPath_eq_ok.mp usable).2.1

include flat in
theorem walk_base : store.walk (store.origin base) (Path.cleanElements base) = .ok directory := by
  obtain ⟨_, walked, _, _⟩ := find_eq_ok _ _ _ _ flat.found
  exact walk_cleanElements store base directory walked

include flat in
theorem present : store.node? directory = some .directory :=
  (find_eq_ok _ _ _ _ flat.found).2.2.2

include flat down in
theorem origin_join : store.origin (Path.join base name) = store.origin base := by
  simp only [Store.origin, Path.isAbsolute_join base name flat.nonempty down]

include flat down in
theorem walk_join_of_nil (nothing : Path.proper name = []) :
    store.walk (store.origin (Path.join base name)) (Path.elements (Path.join base name)) =
      .ok directory := by
  have walked := flat.walk_base
  rw [flat.origin_join name down, Path.elements_join base name flat.nonempty down,
    ← Path.proper_eq_added, nothing, List.append_nil]
  split
  · rename_i empty
    rw [empty.2, walk_nil] at walked
    cases walked
    rw [walk_cons, step, flat.present]
    rfl
  · exact walked

include flat down checked in
theorem fileTarget_single (last : Bytes) (single : Path.proper name = [last]) :
    store.fileTarget (Path.join base name) =
      if last.length > maxName then .error .nameTooLong
      else .ok (directory ++ [last], store.node? (directory ++ [last])) := by
  have listed : last ∈ Path.added name := by
    rw [← Path.proper_eq_added, single]
    exact List.mem_singleton_self last
  have plain := Path.added_plain name last listed
  have proper := added_proper name last down listed
  have leaf : Path.Leaf last := ⟨plain.1, plain.2, proper.1, proper.2⟩
  have same : Path.join base name = Path.join base last := by
    rw [Path.join_eq_render base name flat.nonempty down, ← Path.proper_eq_added, single,
      Path.join_eq_render base last flat.nonempty leaf.parent_not_mem, leaf.added]
  rw [same] at checked ⊢
  have located := findParent_join store base last directory flat.found leaf checked
  have fileLike := meansDirectory_join base last flat.nonempty leaf
  have free : store.node? (directory ++ [last]) ≠ some .directory := by
    intro there
    obtain ⟨_, file⟩ := flat.files [last] (by simp) _ there
    cases file
  split
  · rename_i long
    simp only [fileTarget, located, bind, Except.bind, fileLike, Bool.false_eq_true, if_false, if_pos long]
    rfl
  · rename_i short
    exact fileTarget_of store _ directory last located fileLike (Nat.not_lt.mp short) free

include flat down checked in
/-- A name with more elements leads through a directory, and there is none. -/
theorem fileTarget_deeper (first second : Bytes) (rest : List Bytes)
    (deeper : Path.proper name = first :: second :: rest) :
    store.fileTarget (Path.join base name) =
      if first.length > maxName then .error .nameTooLong
      else if (store.node? (directory ++ [first])).isSome then .error .notDirectory
      else .error .notFound := by
  have listed : first ∈ Path.added name := by
    rw [← Path.proper_eq_added, deeper]
    exact List.mem_cons_self
  have proper := added_proper name first down listed
  have elements : Path.elements (Path.join base name) =
      Path.cleanElements base ++ (first :: second :: rest) := by
    rw [Path.elements_join base name flat.nonempty down, ← Path.proper_eq_added, deeper,
      if_neg (by simp)]
  obtain ⟨last, ending⟩ : ∃ last, (Path.elements (Path.join base name)).getLast? = some last := by
    rw [elements]
    exact ⟨_, List.getLast?_eq_some_getLast (by simp)⟩
  have walking : store.walk (store.origin (Path.join base name))
      (Path.elements (Path.join base name)).dropLast =
        (store.step directory first).bind fun next => store.walk next (second :: rest).dropLast := by
    rw [flat.origin_join name down, elements, List.dropLast_append_of_ne_nil (by simp), walk_append,
      flat.walk_base, List.dropLast_cons_of_ne_nil (by simp)]
    exact walk_cons _ _ _ _
  simp only [fileTarget, findParent, checked, ending, walking, bind, Except.bind]
  by_cases long : first.length > maxName
  · simp [step, flat.present, proper.1, proper.2, long]
  · cases there : store.node? (directory ++ [first]) with
    | none => simp [step, flat.present, proper.1, proper.2, long, there]
    | some node =>
        obtain ⟨contents, rfl⟩ := flat.files [first] (by simp) node there
        have stepped : store.step directory first = .ok (directory ++ [first]) := by
          simp [step, flat.present, proper.1, proper.2, long, there]
        simp only [stepped, Option.isSome_some, if_neg long, if_true]
        -- The file stops the walk, as an element to step from or as its end.
        cases onward : (second :: rest).dropLast with
        | nil => simp [walk_nil, there, throw, throwThe, MonadExceptOf.throw]
        | cons third more => simp [walk_cons, step, there, Except.bind]

include flat down in
theorem create_eq :
    store.create (Path.join base name) =
      match hindrance base (fun taken => (store.node? (directory ++ [taken])).isSome)
        (fun below => store.terms (directory ++ below)) name with
      | some errno => .error ⟨"open", Path.join base name, errno⟩
      | none =>
        .ok (directory ++ Path.proper name, store.put (directory ++ Path.proper name) (.file {})) := by
  have refused : ∀ errno, store.fileTarget (Path.join base name) = .error errno →
      store.create (Path.join base name) = .error ⟨"open", Path.join base name, errno⟩ := by
    intro errno missed
    simp [create, faulting, missed, bind, Except.bind]
  cases checked : checkPath (Path.join base name) with
  | error errno =>
      rw [refused errno (by simp [fileTarget, findParent, checked, bind, Except.bind])]
      simp only [hindrance, checked]
  | ok _ =>
      rcases elements : Path.proper name with _ | ⟨first, _ | ⟨second, rest⟩⟩
      · rw [refused _ (fileTarget_of_directory store _ directory checked
          (flat.walk_join_of_nil name down elements) flat.present)]
        simp [hindrance, checked, elements, obstacle]
      · have target := flat.fileTarget_single name down checked first elements
        simp only [hindrance, checked, elements, obstacle, refusal]
        split at target
        · rename_i long
          rw [refused _ target, if_pos long]
          rfl
        · rename_i short
          rw [create_of_fileTarget target, if_neg short, Option.none_or]
          cases there : store.node? (directory ++ [first]) with
          | none => split <;> rfl
          | some node =>
              obtain ⟨contents, rfl⟩ := flat.files [first] (by simp) node there
              split <;> rfl
      · have target := flat.fileTarget_deeper name down checked first second rest elements
        simp only [hindrance, checked, elements, obstacle]
        split at target
        · rename_i long
          rw [refused _ target, if_pos long]
          rfl
        · rename_i short
          rw [if_neg short]
          split at target
          · rename_i there
            rw [refused _ target, if_pos there]
            rfl
          · rename_i free
            rw [refused _ target, if_neg free]
            rfl

end Flat

end IgaArchive.Store

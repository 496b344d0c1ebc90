import IgaArchive.Proofs.Path
import IgaArchive.Proofs.Result
import IgaArchive.Proofs.Store.Nodes

/-!
What the operations of a store leave alone. A path leads to one place only, which its text and the
working directory tell; creating and writing a file changes the node at that place and no other, and
directories stay directories throughout.
-/

namespace IgaArchive.Store

/-- The location that a path leads to if it leads anywhere. -/
def place (store : Store) (path : Bytes) : Location :=
  (Path.elements path).foldl follow (store.origin path)

/-- Two stores that differ at most at some locations, where no directory was lost. -/
structure ChangesOnly (may : Location → Prop) (before after : Store) : Prop where
  workingDirectory : after.workingDirectory = before.workingDirectory
  terms : after.terms = before.terms
  outside : ∀ location, ¬ may location → after.node? location = before.node? location
  directories : ∀ location, before.node? location = some .directory →
    after.node? location = some .directory

namespace ChangesOnly

theorem refl (may : Location → Prop) (store : Store) : ChangesOnly may store store :=
  ⟨rfl, rfl, fun _ _ => rfl, fun _ present => present⟩

theorem trans {may : Location → Prop} {first second third : Store}
    (earlier : ChangesOnly may first second) (later : ChangesOnly may second third) :
    ChangesOnly may first third := by
  refine ⟨later.workingDirectory.trans earlier.workingDirectory, later.terms.trans earlier.terms, ?_, ?_⟩
  · intro location outside
    rw [later.outside location outside, earlier.outside location outside]
  · intro location present
    exact later.directories location (earlier.directories location present)

theorem mono {may might : Location → Prop} {before after : Store}
    (changes : ChangesOnly may before after) (weaker : ∀ location, may location → might location) :
    ChangesOnly might before after := by
  refine ⟨changes.workingDirectory, changes.terms, ?_, changes.directories⟩
  intro location outside
  exact changes.outside location (fun inside => outside (weaker location inside))

theorem origin_eq {may : Location → Prop} {before after : Store}
    (changes : ChangesOnly may before after) (path : Bytes) :
    after.origin path = before.origin path := by
  simp [origin, changes.workingDirectory]

theorem place_eq {may : Location → Prop} {before after : Store}
    (changes : ChangesOnly may before after) (path : Bytes) :
    after.place path = before.place path := by
  simp [place, changes.origin_eq path]

theorem trail_eq {may : Location → Prop} {before after : Store}
    (changes : ChangesOnly may before after) (path : Bytes) :
    after.trail path = before.trail path := by
  simp [trail, changes.origin_eq path]

end ChangesOnly

theorem put_changesOnly (store : Store) (location : Location) (node : Node) (below : location ≠ [])
    (replaced : store.node? location ≠ some .directory) :
    ChangesOnly (· = location) store (store.put location node) := by
  refine ⟨workingDirectory_put store location node, terms_put store location node, ?_, ?_⟩
  · intro other outside
    rw [node?_put store location other node below, if_neg outside]
  · intro other present
    rw [node?_put store location other node below, if_neg]
    · exact present
    · intro same
      exact replaced (same ▸ present)

theorem step_eq_ok (store : Store) (location next : Location) (name : Bytes)
    (taken : store.step location name = .ok next) :
    next = follow location name ∧ store.node? location = some .directory ∧
      (name ≠ Path.here → name ≠ Path.parent →
        name.length ≤ maxName ∧ (store.node? next).isSome = true) := by
  rw [step] at taken
  split at taken
  · cases taken
  · rename_i present
    simp only [follow]
    split at taken
    · rename_i stays
      cases taken
      simp [stays, present]
    · rename_i goes
      split at taken
      · rename_i up
        cases taken
        exact ⟨by rw [if_neg goes, if_pos up], present, fun _ other => absurd up other⟩
      · rename_i down
        split at taken
        · cases taken
        · rename_i short
          split at taken
          · rename_i found
            cases taken
            simp [goes, down, present, found]
            omega
          · cases taken
  · cases taken

theorem walk_nil (store : Store) (location : Location) : store.walk location [] = .ok location := rfl

theorem walk_cons (store : Store) (location : Location) (name : Bytes) (names : List Bytes) :
    store.walk location (name :: names) =
      (store.step location name).bind fun next => store.walk next names := by
  simp only [walk, List.foldlM_cons]
  rfl

theorem walk_append (store : Store) (location : Location) (front back : List Bytes) :
    store.walk location (front ++ back) =
      (store.walk location front).bind fun next => store.walk next back := by
  simp only [walk, List.foldlM_append]
  rfl

theorem walk_eq_ok (store : Store) (location final : Location) (names : List Bytes)
    (walked : store.walk location names = .ok final) : final = names.foldl follow location := by
  induction names generalizing location with
  | nil =>
      cases walked
      rfl
  | cons name names ih =>
      rw [walk_cons] at walked
      obtain ⟨next, stepped, rest⟩ := Result.bind_eq_ok walked
      rw [ih next rest, (step_eq_ok store location next name stepped).1, List.foldl_cons]

theorem walk_passes (store : Store) (location final : Location) (name : Bytes) (names : List Bytes)
    (walked : store.walk location (name :: names) = .ok final) :
    store.node? location = some .directory := by
  rw [walk_cons] at walked
  obtain ⟨next, stepped, _⟩ := Result.bind_eq_ok walked
  exact (step_eq_ok store location next name stepped).2.1

theorem walk_again {may : Location → Prop} {before after : Store}
    (changes : ChangesOnly may before after) (location final : Location) (names : List Bytes)
    (walked : before.walk location names = .ok final)
    (ends : (after.node? final).isSome = true) : after.walk location names = .ok final := by
  induction names generalizing location with
  | nil => exact walked
  | cons name names ih =>
      rw [walk_cons] at walked ⊢
      obtain ⟨next, stepped, rest⟩ := Result.bind_eq_ok walked
      obtain ⟨leads, here, found⟩ := step_eq_ok before location next name stepped
      have stays := changes.directories location here
      have present : (after.node? next).isSome = true := by
        cases names with
        | nil =>
            cases rest
            exact ends
        | cons other names =>
            rw [changes.directories next (walk_passes before next final other names rest)]
            rfl
      have again : after.step location name = .ok next := by
        rw [leads] at present ⊢
        rw [step, stays]
        simp only [follow] at present ⊢
        split
        · rfl
        · rename_i goes
          split
          · rfl
          · rename_i down
            have short := (found goes down).1
            simp only [goes, down, if_false] at present
            simp [present, Nat.not_lt.mpr short]
      rw [again]
      exact ih next rest

theorem find_eq_ok (store : Store) (path : Bytes) (location : Location) (node : Node)
    (found : store.find path = .ok (location, node)) :
    checkPath path = .ok () ∧
      store.walk (store.origin path) (Path.elements path) = .ok location ∧
      location = store.place path ∧ store.node? location = some node := by
  simp only [find, bind] at found
  obtain ⟨_, checked, found⟩ := Result.bind_eq_ok found
  obtain ⟨reached, walked, found⟩ := Result.bind_eq_ok found
  split at found
  · cases found
  · rename_i present
    split at found
    · cases found
    · cases found
      exact ⟨checked, walked, walk_eq_ok _ _ _ _ walked, present⟩

theorem find_of_isDirectory (store : Store) (path : Bytes) (location : Location)
    (found : (store.find path).toOption.map (fun target => (target.1, target.2.isDirectory)) =
      some (location, true)) : store.find path = .ok (location, .directory) := by
  cases looked : store.find path with
  | error errno =>
      rw [looked] at found
      cases found
  | ok target =>
      obtain ⟨there, node⟩ := target
      rw [looked] at found
      cases node <;> cases found
      rfl

theorem find_again {may : Location → Prop} {before after : Store}
    (changes : ChangesOnly may before after) (path : Bytes) (location : Location) (node : Node)
    (found : before.find path = .ok (location, node))
    (kept : after.node? location = some node) : after.find path = .ok (location, node) := by
  obtain ⟨checked, walked, _, present⟩ := find_eq_ok before path location node found
  have again := walk_again changes _ _ _ walked (by rw [kept]; rfl)
  simp only [find, checked, walked, present, bind, Except.bind] at found
  simpa only [find, checked, changes.origin_eq, again, kept, bind, Except.bind] using found

theorem findParent_eq_ok (store : Store) (path : Bytes) (directory : Location) (name : Bytes)
    (found : store.findParent path = .ok (some (directory, name))) :
    checkPath path = .ok () ∧ (Path.elements path).getLast? = some name ∧
      store.walk (store.origin path) (Path.elements path).dropLast = .ok directory ∧
      store.node? directory = some .directory ∧ name ≠ Path.here ∧ name ≠ Path.parent := by
  simp only [findParent, bind] at found
  obtain ⟨_, checked, found⟩ := Result.bind_eq_ok found
  split at found
  · cases found
  · rename_i last ending
    obtain ⟨reached, walked, found⟩ := Result.bind_eq_ok found
    split at found
    · rename_i present
      split at found
      · cases found
      · rename_i proper
        cases found
        exact ⟨checked, ending, walked, present, fun same => proper (Or.inl same),
          fun same => proper (Or.inr same)⟩
    · cases found

theorem findParent_of (store : Store) (path : Bytes) (directory : Location) (name : Bytes)
    (checked : checkPath path = .ok ()) (ending : (Path.elements path).getLast? = some name)
    (walked : store.walk (store.origin path) (Path.elements path).dropLast = .ok directory)
    (present : store.node? directory = some .directory) (goes : name ≠ Path.here)
    (down : name ≠ Path.parent) : store.findParent path = .ok (some (directory, name)) := by
  simp [findParent, checked, ending, walked, present, goes, down, bind, Except.bind, pure, Except.pure]

theorem place_eq_parent (store : Store) (path : Bytes) (directory : Location) (name : Bytes)
    (found : store.findParent path = .ok (some (directory, name))) :
    store.place path = directory ++ [name] := by
  obtain ⟨_, ending, walked, _, goes, down⟩ := findParent_eq_ok store path directory name found
  obtain ⟨front, shape⟩ := List.getLast?_eq_some_iff.mp ending
  rw [shape, List.dropLast_concat] at walked
  rw [place, shape, List.foldl_append, ← walk_eq_ok _ _ _ _ walked]
  simp [follow, goes, down]

theorem fileTarget_eq_ok (store : Store) (path : Bytes) (location : Location) (node : Option Node)
    (found : store.fileTarget path = .ok (location, node)) :
    ∃ directory name, store.findParent path = .ok (some (directory, name)) ∧
      meansDirectory path = false ∧ name.length ≤ maxName ∧ location = directory ++ [name] ∧
      store.node? location = node ∧ node ≠ some .directory := by
  simp only [fileTarget, bind] at found
  obtain ⟨parent, located, found⟩ := Result.bind_eq_ok found
  split at found
  · cases found
  · rename_i directory name
    split at found
    · cases found
    · rename_i fileLike
      split at found
      · cases found
      · rename_i short
        split at found
        · cases found
        · rename_i other
          cases found
          refine ⟨directory, name, located, by simpa using fileLike, by omega, rfl, rfl, ?_⟩
          intro present
          exact other present

theorem fileTarget_of (store : Store) (path : Bytes) (directory : Location) (name : Bytes)
    (located : store.findParent path = .ok (some (directory, name)))
    (fileLike : meansDirectory path = false) (short : name.length ≤ maxName)
    (free : store.node? (directory ++ [name]) ≠ some .directory) :
    store.fileTarget path = .ok (directory ++ [name], store.node? (directory ++ [name])) := by
  simp only [fileTarget, located, bind, Except.bind, fileLike, Bool.false_eq_true, if_false,
    if_neg (Nat.not_lt.mpr short)]
  rfl

theorem fileTarget_again {may : Location → Prop} {before after : Store}
    (changes : ChangesOnly may before after) (path : Bytes) (location : Location)
    (node : Option Node) (found : before.fileTarget path = .ok (location, node))
    (free : after.node? location ≠ some .directory) :
    after.fileTarget path = .ok (location, after.node? location) := by
  obtain ⟨directory, name, located, fileLike, short, rfl, present, _⟩ :=
    fileTarget_eq_ok before path location node found
  obtain ⟨checked, ending, walked, here, goes, down⟩ :=
    findParent_eq_ok before path directory name located
  have again := walk_again changes _ _ _ walked (by rw [changes.directories directory here]; rfl)
  rw [← changes.origin_eq path] at again
  exact fileTarget_of after path directory name
    (findParent_of after path directory name checked ending again
      (changes.directories directory here) goes down) fileLike short free

theorem find_of_fileTarget (store : Store) (path : Bytes) (location : Location) (node : Node)
    (found : store.fileTarget path = .ok (location, some node)) :
    store.find path = .ok (location, node) := by
  obtain ⟨directory, name, located, fileLike, short, rfl, present, _⟩ :=
    fileTarget_eq_ok store path location (some node) found
  obtain ⟨checked, ending, walked, here, goes, down⟩ :=
    findParent_eq_ok store path directory name located
  obtain ⟨front, shape⟩ := List.getLast?_eq_some_iff.mp ending
  rw [shape, List.dropLast_concat] at walked
  have last : store.step directory name = .ok (directory ++ [name]) := by
    simp [step, here, goes, down, Nat.not_lt.mpr short, present]
  have all : store.walk (store.origin path) (Path.elements path) = .ok (directory ++ [name]) := by
    rw [shape, walk_append, walked]
    simp [Except.bind, walk_cons, walk_nil, last]
  simp [find, checked, all, present, fileLike, bind, Except.bind, pure, Except.pure]

theorem place_of_fileTarget (store : Store) (path : Bytes) (location : Location)
    (node : Option Node) (found : store.fileTarget path = .ok (location, node)) :
    location = store.place path ∧ location ≠ [] := by
  obtain ⟨directory, name, located, _, _, rfl, _, _⟩ := fileTarget_eq_ok store path location node found
  exact ⟨(place_eq_parent store path directory name located).symm, by simp⟩

theorem openForReading_eq_ok {store : Store} {path : Bytes} {location : Location} {node : Node} :
    store.openForReading path = .ok (location, node) ↔
      store.find path = .ok (location, node) ∧ (store.terms location).readable = true := by
  simp only [openForReading, faulting, Result.mapError_eq_ok, bind]
  constructor
  · intro opened
    obtain ⟨⟨reached, present⟩, found, opened⟩ := Result.bind_eq_ok opened
    split at opened
    · rename_i readable
      cases opened
      exact ⟨found, readable⟩
    · cases opened
  · rintro ⟨found, readable⟩
    simp [found, Except.bind, readable, pure, Except.pure]

theorem openForReading_of_find {store : Store} {path : Bytes} {location : Location} {node : Node}
    (found : store.find path = .ok (location, node)) :
    store.openForReading path = .ok (location, node) ∨
      ∃ errno, store.openForReading path = .error ⟨"open", path, errno⟩ := by
  by_cases readable : (store.terms location).readable = true
  · exact Or.inl (openForReading_eq_ok.mpr ⟨found, readable⟩)
  · refine Or.inr ⟨.denied, ?_⟩
    simp only [openForReading, faulting, found, bind, Except.bind, readable]
    rfl

theorem create_of_fileTarget {store : Store} {path : Bytes} {location : Location} {node : Option Node} :
    store.fileTarget path = .ok (location, node) → store.create path =
      if (store.terms location).readable && (store.terms location).writable then
        match node with
        | some .fullDevice => .ok (location, store)
        | _ => .ok (location, store.put location (.file {}))
      else .error ⟨"open", path, .denied⟩ := by
  intro found
  simp only [create, faulting, found, bind, Except.bind]
  split
  · cases node with
    | none => rfl
    | some node => cases node <;> rfl
  · rfl

theorem create_eq_ok (store after : Store) (path : Bytes) (location : Location)
    (created : store.create path = .ok (location, after)) :
    ∃ node, store.fileTarget path = .ok (location, node) ∧
      (store.terms location).readable = true ∧ (store.terms location).writable = true ∧
      (node = some .fullDevice ∧ after = store ∨
        node ≠ some .fullDevice ∧ after = store.put location (.file {})) := by
  have opening := created
  simp only [create, faulting, Result.mapError_eq_ok, bind] at opening
  obtain ⟨⟨reached, node⟩, found, _⟩ := Result.bind_eq_ok opening
  rw [create_of_fileTarget found] at created
  split at created
  · rename_i allowed
    obtain ⟨readable, writable⟩ := Bool.and_eq_true_iff.mp allowed
    split at created
    · cases created
      exact ⟨_, found, readable, writable, Or.inl ⟨rfl, rfl⟩⟩
    · rename_i other
      cases created
      exact ⟨_, found, readable, writable, Or.inr ⟨other, rfl⟩⟩
  · cases created

theorem fitting_le (room : Option Nat) (position count : Nat) : fitting room position count ≤ count := by
  cases room with
  | none => exact Nat.le_refl count
  | some room => exact Nat.min_le_left _ _

theorem fitting_fitting (room : Option Nat) (count : Nat) :
    fitting room 0 (fitting room 0 count) = fitting room 0 count := by
  cases room with
  | none => rfl
  | some room =>
      simp only [fitting]
      omega

theorem fitting_take {room : Option Nat} {count : Nat} (fits : fitting room 0 count = count)
    (bytes : Bytes) : fitting room 0 (bytes.take count).length = (bytes.take count).length := by
  rw [List.length_take]
  cases room with
  | none => rfl
  | some room =>
      simp only [fitting] at fits ⊢
      omega

/-- What a file takes behind bytes that all fitted is what it takes of all of them, less these. -/
theorem fitting_behind {room : Option Nat} {position : Nat}
    (fits : fitting room 0 position = position) (count : Nat) :
    fitting room 0 (position + count) = position + fitting room position count := by
  cases room with
  | none => rfl
  | some room =>
      simp only [fitting] at fits ⊢
      omega

theorem fitting_full {room : Option Nat} {count more : Nat} (full : fitting room 0 count < count)
    (longer : count ≤ more) : fitting room 0 more = fitting room 0 count := by
  cases room with
  | none => exact absurd full (Nat.lt_irrefl count)
  | some room =>
      simp only [fitting] at full ⊢
      omega

theorem writeAt_takes (store after : Store) (location : Location) (position taken : Nat) (bytes : Bytes)
    (refused : Option Errno) (wrote : store.writeAt location position bytes = (after, taken, refused)) :
    taken ≤ bytes.length ∧ (refused = none → taken = bytes.length) := by
  rw [writeAt] at wrote
  split at wrote
  · cases wrote
    refine ⟨List.length_take_le' _ _, fun fine => ?_⟩
    split at fine
    · cases fine
    · exact Nat.le_antisymm (List.length_take_le' _ _) (by omega)
  · cases wrote
    refine ⟨Nat.zero_le _, fun fine => ?_⟩
    split at fine
    · rename_i empty
      rw [List.isEmpty_iff.mp empty]
      rfl
    · cases fine
  · cases wrote
    exact ⟨Nat.zero_le _, nofun⟩

theorem writeAt_changesOnly (store : Store) (location : Location) (position : Nat) (bytes : Bytes) :
    ChangesOnly (· = location) store (store.writeAt location position bytes).1 := by
  rw [writeAt]
  split
  · rename_i contents present
    have below : location ≠ [] := by
      intro root
      rw [root] at present
      cases present
    dsimp only
    split
    · exact ChangesOnly.refl _ _
    · exact put_changesOnly store location _ below (by rw [present]; exact nofun)
  · exact ChangesOnly.refl _ _
  · exact ChangesOnly.refl _ _

theorem create_changesOnly (store after : Store) (path : Bytes) (location : Location)
    (created : store.create path = .ok (location, after)) :
    location = store.place path ∧ ChangesOnly (· = store.place path) store after := by
  obtain ⟨node, found, _, _, outcome⟩ := create_eq_ok store after path location created
  obtain ⟨place, below⟩ := place_of_fileTarget store path location node found
  obtain ⟨_, _, _, _, _, _, present, free⟩ := fileTarget_eq_ok store path location node found
  refine ⟨place, ?_⟩
  rw [← place]
  rcases outcome with ⟨_, same⟩ | ⟨_, same⟩
  · rw [same]
    exact ChangesOnly.refl _ _
  · rw [same]
    exact put_changesOnly store location _ below (by rw [present]; exact free)

theorem create_fresh (store after : Store) (path : Bytes) (location : Location)
    (created : store.create path = .ok (location, after)) :
    after.node? location = some (.file {}) ∨ after.node? location = some .fullDevice := by
  obtain ⟨node, found, _, _, outcome⟩ := create_eq_ok store after path location created
  obtain ⟨_, below⟩ := place_of_fileTarget store path location node found
  obtain ⟨_, _, _, _, _, _, present, _⟩ := fileTarget_eq_ok store path location node found
  rcases outcome with ⟨device, same⟩ | ⟨_, same⟩
  · rw [same, present, device]
    exact Or.inr rfl
  · rw [same, node?_put _ _ _ _ below, if_pos rfl]
    exact Or.inl rfl

theorem open_created {may : Location → Prop} {store created after : Store} {path : Bytes}
    {location : Location} {node : Node} (creating : store.create path = .ok (location, created))
    (changes : ChangesOnly may store after) (present : after.node? location = some node)
    (file : node ≠ .directory) : after.openForReading path = .ok (location, node) := by
  obtain ⟨_, target, readable, _⟩ := create_eq_ok _ _ _ _ creating
  refine openForReading_eq_ok.mpr ⟨?_, by rw [changes.terms, readable]⟩
  apply find_of_fileTarget
  rw [← present]
  apply fileTarget_again changes _ _ _ target
  rw [present]
  exact fun same => file (Option.some.inj same)

theorem readWhole_file (store : Store) (path : Bytes) (location : Location) (contents : Contents)
    (opened : store.openForReading path = .ok (location, .file contents)) :
    store.readWhole path = .ok contents.toBytes := by
  simp only [readWhole, opened, bind, Except.bind]
  rfl

theorem readWhole_fullDevice (store : Store) (path : Bytes) (location : Location)
    (opened : store.openForReading path = .ok (location, .fullDevice)) : store.readWhole path = .ok [] := by
  simp only [readWhole, opened, bind, Except.bind]
  rfl

def HasBytes (store : Store) (location : Location) : Prop :=
  ∃ node, store.node? location = some node ∧ node ≠ .directory

theorem put_hasBytes (store : Store) (location other : Location) (contents : Contents)
    (below : location ≠ []) (before : store.HasBytes other) :
    (store.put location (.file contents)).HasBytes other := by
  obtain ⟨node, present, file⟩ := before
  rw [HasBytes, node?_put _ _ _ _ below]
  split
  · exact ⟨_, rfl, nofun⟩
  · exact ⟨node, present, file⟩

theorem writeAt_hasBytes (store : Store) (location other : Location) (position : Nat) (bytes : Bytes)
    (before : store.HasBytes other) : (store.writeAt location position bytes).1.HasBytes other := by
  rw [writeAt]
  split
  · rename_i contents present
    dsimp only
    split
    · exact before
    · apply put_hasBytes _ _ _ _ _ before
      intro root
      rw [root] at present
      cases present
  · exact before
  · exact before

theorem create_hasBytes (store after : Store) (path : Bytes) (location other : Location)
    (created : store.create path = .ok (location, after)) (before : store.HasBytes other) :
    after.HasBytes other := by
  obtain ⟨node, found, _, _, outcome⟩ := create_eq_ok store after path location created
  obtain ⟨_, below⟩ := place_of_fileTarget store path location node found
  rcases outcome with ⟨_, same⟩ | ⟨_, same⟩
  · rwa [same]
  · rw [same]
    exact put_hasBytes store location other {} below before

theorem readAt_length_le (store : Store) (location : Location) (position length : Nat) :
    (store.readAt location position length).length ≤ length := by
  rw [readAt]
  split
  · rw [Contents.slice_eq, List.length_take]
    omega
  · simp
  · simp

/-- Fewer bytes than were asked for come from a file that ends before them. -/
theorem readAt_short (store : Store) (location : Location) (position length : Nat)
    (bytes : store.HasBytes location) (short : (store.readAt location position length).length < length) :
    ∃ contents, store.node? location = some (.file contents) ∧ contents.size < position + length := by
  obtain ⟨node, present, file⟩ := bytes
  rw [readAt, present] at short
  cases node with
  | directory => exact absurd rfl file
  | fullDevice => simp at short
  | file contents =>
      refine ⟨contents, present, ?_⟩
      simp only [Contents.slice_eq, List.length_take, List.length_drop, Contents.length_toBytes] at short
      omega

def Legible (store : Store) (path : Bytes) : Prop :=
  ∃ node, store.find path = .ok (store.place path, node) ∧ node ≠ .directory

theorem Legible.hasBytes {store : Store} {path : Bytes} (legible : store.Legible path) :
    store.HasBytes (store.place path) := by
  obtain ⟨node, found, file⟩ := legible
  exact ⟨node, (find_eq_ok _ _ _ _ found).2.2.2, file⟩

theorem Legible.find_eq {store : Store} {path : Bytes} {node : Node} (legible : store.Legible path)
    (present : store.node? (store.place path) = some node) :
    store.find path = .ok (store.place path, node) := by
  obtain ⟨there, found, _⟩ := legible
  have same := (find_eq_ok _ _ _ _ found).2.2.2
  rw [present] at same
  cases same
  exact found

theorem Legible.again {may : Location → Prop} {before after : Store} {path : Bytes}
    (legible : before.Legible path) (changes : ChangesOnly may before after)
    (bytes : after.HasBytes (before.place path)) : after.Legible path := by
  obtain ⟨old, found, oldFile⟩ := legible
  obtain ⟨node, present, file⟩ := bytes
  obtain ⟨checked, walked, _, there⟩ := find_eq_ok before path _ old found
  have again := walk_again changes _ _ _ walked (by rw [present]; rfl)
  have fileLike : old.isDirectory = false := by
    cases old with
    | directory => exact absurd rfl oldFile
    | file contents => rfl
    | fullDevice => rfl
  have plain : meansDirectory path = false := by
    simp only [find, checked, walked, there, bind, Except.bind] at found
    split at found
    · cases found
    · rename_i fine
      simpa [fileLike] using fine
  refine ⟨node, ?_, file⟩
  simp only [find, checked, changes.origin_eq, again, changes.place_eq, present, plain, bind,
    Except.bind, Bool.false_and, Bool.false_eq_true, if_false]
  rfl

end IgaArchive.Store

import IgaArchive.Proofs.Store.Directories

/-!
Stores that agree outside some locations. A path that passes none of these leads the same way in both, so
whatever is done with it fails in the same way or leaves stores that agree again.
-/

namespace IgaArchive.Store

/-- Two stores with the same terms, and the same nodes outside some locations. -/
structure AgreeOutside (aside : Location → Prop) (left right : Store) : Prop where
  workingDirectory : right.workingDirectory = left.workingDirectory
  terms : right.terms = left.terms
  outside : ∀ location, ¬ aside location → right.node? location = left.node? location

/-- A path that passes none of some locations. -/
def Clear (aside : Location → Prop) (store : Store) (path : Bytes) : Prop :=
  ∀ location ∈ store.trail path, ¬ aside location

theorem Clear.again {aside may : Location → Prop} {before after : Store} {path : Bytes}
    (clear : Clear aside before path) (changes : ChangesOnly may before after) :
    Clear aside after path := by
  rw [Clear, changes.trail_eq]
  exact clear

theorem Clear.place {aside : Location → Prop} {store : Store} {path : Bytes}
    (clear : Clear aside store path) : ¬ aside (store.place path) :=
  clear _ (place_mem_trail store path)

namespace AgreeOutside

variable {aside : Location → Prop} {left right : Store}

theorem symm (agree : AgreeOutside aside left right) : AgreeOutside aside right left :=
  ⟨agree.workingDirectory.symm, agree.terms.symm, fun location away => (agree.outside location away).symm⟩

theorem trans {last : Store} (first : AgreeOutside aside left right)
    (second : AgreeOutside aside right last) : AgreeOutside aside left last :=
  ⟨second.workingDirectory.trans first.workingDirectory, second.terms.trans first.terms,
    fun location away => (second.outside location away).trans (first.outside location away)⟩

/-- What may change a store where nothing is kept but directories leaves it in agreement. -/
theorem of_changes {may : Location → Prop} (changes : ChangesOnly may left right)
    (settled : ∀ location, may location → aside location ∨ left.node? location = some .directory) :
    AgreeOutside aside left right := by
  refine ⟨changes.workingDirectory, changes.terms, ?_⟩
  intro location away
  by_cases touched : may location
  · have present := (settled location touched).resolve_left away
    rw [present, changes.directories location present]
  · exact changes.outside location touched

theorem put (agree : AgreeOutside aside left right) (location : Location) (node : Node)
    (below : location ≠ []) : AgreeOutside aside (left.put location node) (right.put location node) := by
  refine ⟨?_, ?_, ?_⟩
  · rw [workingDirectory_put, workingDirectory_put, agree.workingDirectory]
  · rw [terms_put, terms_put, agree.terms]
  · intro other away
    rw [node?_put _ _ _ _ below, node?_put _ _ _ _ below, agree.outside other away]

section Paths

variable (agree : AgreeOutside aside left right)
include agree

theorem origin_eq (path : Bytes) : right.origin path = left.origin path := by
  simp only [origin, agree.workingDirectory]

theorem step_eq (location : Location) (name : Bytes) (here : ¬ aside location)
    (next : ¬ aside (follow location name)) : right.step location name = left.step location name := by
  rw [step, step, agree.outside location here]
  cases left.node? location with
  | none => rfl
  | some node =>
      cases node with
      | file contents => rfl
      | fullDevice => rfl
      | directory =>
          by_cases stays : name = Path.here
          · simp only [stays, if_true]
          · by_cases up : name = Path.parent
            · simp only [up, if_true]
            · simp only [follow, stays, up, if_false] at next
              simp only [agree.outside _ next]

theorem walk_eq (location : Location) (names : List Bytes)
    (clear : ∀ front back, names = front ++ back → ¬ aside (front.foldl follow location)) :
    right.walk location names = left.walk location names := by
  induction names generalizing location with
  | nil => rfl
  | cons name names ih =>
      have step := agree.step_eq location name (clear [] _ rfl) (clear [name] names rfl)
      rw [walk_cons, walk_cons, step]
      cases taken : left.step location name with
      | error errno => rfl
      | ok next =>
          have leads := (step_eq_ok left location next name taken).1
          apply ih
          rintro front back rfl
          rw [leads]
          exact clear (name :: front) back rfl

variable {path : Bytes} (clear : Clear aside left path)
include clear

theorem find_eq : right.find path = left.find path := by
  have walk := agree.walk_eq (left.origin path) (Path.elements path)
    fun front back shape => clear _ (mem_trail left path front back shape)
  simp only [find, agree.origin_eq, walk]
  cases checkPath path with
  | error errno => rfl
  | ok _ =>
      cases walked : left.walk (left.origin path) (Path.elements path) with
      | error errno => rfl
      | ok location =>
          have here : ¬ aside location := by
            rw [walk_eq_ok left _ location _ walked]
            exact clear.place
          simp only [bind, Except.bind, agree.outside location here]

theorem findParent_eq : right.findParent path = left.findParent path := by
  simp only [findParent, agree.origin_eq]
  cases ending : (Path.elements path).getLast? with
  | none => rfl
  | some last =>
      obtain ⟨above, shape⟩ := List.getLast?_eq_some_iff.mp ending
      have walk := agree.walk_eq (left.origin path) above fun front back parts =>
        clear _ (mem_trail left path front (back ++ [last]) (by rw [shape, parts, List.append_assoc]))
      simp only [shape, List.dropLast_concat, walk]
      cases walked : left.walk (left.origin path) above with
      | error errno => rfl
      | ok location =>
          have here : ¬ aside location := by
            rw [walk_eq_ok left _ location _ walked]
            exact clear _ (mem_trail left path above [last] shape)
          simp only [bind, Except.bind, agree.outside location here]

theorem node?_target_eq (directory : Location) (name : Bytes)
    (located : left.findParent path = .ok (some (directory, name))) :
    right.node? (directory ++ [name]) = left.node? (directory ++ [name]) := by
  rw [← place_eq_parent left path directory name located]
  exact agree.outside _ clear.place

theorem fileTarget_eq : right.fileTarget path = left.fileTarget path := by
  simp only [fileTarget, agree.findParent_eq clear]
  cases located : left.findParent path with
  | error errno => rfl
  | ok parent =>
      cases parent with
      | none => rfl
      | some target =>
          obtain ⟨directory, name⟩ := target
          simp only [bind, Except.bind, agree.node?_target_eq clear directory name located]

theorem create : (∃ fault, left.create path = .error fault ∧ right.create path = .error fault) ∨
    ∃ location made madeToo, left.create path = .ok (location, made) ∧
      right.create path = .ok (location, madeToo) ∧ AgreeOutside aside made madeToo := by
  have target := agree.fileTarget_eq clear
  cases found : left.fileTarget path with
  | error errno =>
      rw [found] at target
      refine Or.inl ⟨⟨"open", path, errno⟩, ?_, ?_⟩
      · simp only [Store.create, found]
        rfl
      · simp only [Store.create, target]
        rfl
  | ok reached =>
      obtain ⟨location, node⟩ := reached
      rw [found] at target
      have below := (place_of_fileTarget left path location node found).2
      have put := agree.put location (.file {}) below
      rw [create_of_fileTarget found, create_of_fileTarget target, agree.terms]
      by_cases allowed : ((left.terms location).readable && (left.terms location).writable) = true
      · rw [if_pos allowed, if_pos allowed]
        by_cases device : node = some .fullDevice
        · subst device
          exact Or.inr ⟨location, left, right, rfl, rfl, agree⟩
        · refine Or.inr ⟨location, _, _, ?_, ?_, put⟩ <;>
            cases node with
            | none => rfl
            | some node => cases node <;> first | rfl | exact (device rfl).elim
      · rw [if_neg allowed, if_neg allowed]
        exact Or.inl ⟨_, rfl, rfl⟩

theorem mkdir : (∃ errno, left.mkdir path = .error errno ∧ right.mkdir path = .error errno) ∨
    ∃ made madeToo, left.mkdir path = .ok made ∧ right.mkdir path = .ok madeToo ∧
      AgreeOutside aside made madeToo := by
  have parent := agree.findParent_eq clear
  simp only [Store.mkdir, parent]
  cases located : left.findParent path with
  | error errno => exact Or.inl ⟨errno, rfl, rfl⟩
  | ok found =>
      cases found with
      | none => exact Or.inl ⟨.alreadyExists, rfl, rfl⟩
      | some target =>
          obtain ⟨directory, name⟩ := target
          simp only [bind, Except.bind, agree.node?_target_eq clear directory name located]
          by_cases long : name.length > maxName
          · exact Or.inl ⟨.nameTooLong, if_pos long, if_pos long⟩
          · rw [if_neg long, if_neg long]
            by_cases taken : (left.node? (directory ++ [name])).isSome = true
            · exact Or.inl ⟨.alreadyExists, if_pos taken, if_pos taken⟩
            · rw [if_neg taken, if_neg taken, agree.terms]
              by_cases allowed : (left.terms (directory ++ [name])).writable = true
              · exact Or.inr ⟨_, _, if_pos allowed, if_pos allowed, agree.put _ _ (by simp)⟩
              · exact Or.inl ⟨.denied, if_neg allowed, if_neg allowed⟩

end Paths

theorem mkdir_last (agree : AgreeOutside aside left right) {path : Bytes}
    (clear : Clear aside left path) :
    let last (store : Store) : Store × Option Fault :=
      match store.mkdir path with
      | .ok store => (store, none)
      | .error errno =>
        match store.find path with
        | .ok (_, .directory) => (store, none)
        | _ => (store, some ⟨"mkdir", path, errno⟩)
    (last right).2 = (last left).2 ∧ AgreeOutside aside (last left).1 (last right).1 := by
  dsimp only
  rcases agree.mkdir clear with ⟨errno, made, madeToo⟩ | ⟨first, second, made, madeToo, agreed⟩
  · simp only [made, madeToo, agree.find_eq clear]
    split <;> exact ⟨rfl, agree⟩
  · simp only [made, madeToo]
    exact ⟨trivial, agreed⟩

theorem mkdirAllWithin (fuel : Nat) (agree : AgreeOutside aside left right) {path : Bytes}
    (clear : Clear aside left path) :
    (right.mkdirAllWithin fuel path).2 = (left.mkdirAllWithin fuel path).2 ∧
      AgreeOutside aside (left.mkdirAllWithin fuel path).1 (right.mkdirAllWithin fuel path).1 := by
  induction fuel generalizing path with
  | zero => exact ⟨rfl, agree⟩
  | succ fuel ih =>
      simp only [Store.mkdirAllWithin, agree.find_eq clear]
      cases found : left.find path with
      | ok target =>
          obtain ⟨location, node⟩ := target
          cases node <;> exact ⟨rfl, agree⟩
      | error errno =>
          cases named : parentText? path with
          | none => exact agree.mkdir_last clear
          | some above =>
              have makes := mkdirAllWithin_onlyMakes fuel left above
              have clearAbove : Clear aside left above := fun location member =>
                clear location (trail_parentText left path above named location member)
              obtain ⟨failed, agreed⟩ := ih clearAbove
              cases made : left.mkdirAllWithin fuel above with
              | mk between outcome =>
                  cases madeToo : right.mkdirAllWithin fuel above with
                  | mk betweenToo other =>
                      rw [made] at makes
                      rw [made, madeToo] at failed agreed
                      simp only at failed agreed
                      subst failed
                      simp only [made, madeToo]
                      cases other with
                      | some fault => exact ⟨rfl, agreed⟩
                      | none => exact agreed.mkdir_last (clear.again makes.changesOnly)

theorem mkdirAll (agree : AgreeOutside aside left right) {path : Bytes}
    (clear : Clear aside left path) :
    (right.mkdirAll path).2 = (left.mkdirAll path).2 ∧
      AgreeOutside aside (left.mkdirAll path).1 (right.mkdirAll path).1 :=
  mkdirAllWithin _ agree clear

end AgreeOutside

end IgaArchive.Store

import IgaArchive.Proofs.Store.Frame

/-!
Making directories. A directory is made only where nothing was, and making one with all those above it
makes none that the path does not pass.
-/

namespace IgaArchive.Store

/-- Two stores of which the later one has some more directories, and nothing else has changed. -/
structure OnlyMakes (may : Location → Prop) (before after : Store) : Prop where
  workingDirectory : after.workingDirectory = before.workingDirectory
  terms : after.terms = before.terms
  nodes : ∀ location, after.node? location = before.node? location ∨
    before.node? location = none ∧ after.node? location = some .directory ∧ may location

namespace OnlyMakes

theorem refl (may : Location → Prop) (store : Store) : OnlyMakes may store store :=
  ⟨rfl, rfl, fun _ => Or.inl rfl⟩

theorem trans {may : Location → Prop} {first second third : Store}
    (earlier : OnlyMakes may first second) (later : OnlyMakes may second third) :
    OnlyMakes may first third := by
  refine ⟨later.workingDirectory.trans earlier.workingDirectory, later.terms.trans earlier.terms, ?_⟩
  intro location
  rcases later.nodes location with kept | ⟨absent, made, allowed⟩
  · rw [kept]
    exact earlier.nodes location
  · rcases earlier.nodes location with kept | ⟨_, present, _⟩
    · exact Or.inr ⟨kept ▸ absent, made, allowed⟩
    · rw [present] at absent
      cases absent

theorem mono {may might : Location → Prop} {before after : Store} (makes : OnlyMakes may before after)
    (weaker : ∀ location, may location → might location) : OnlyMakes might before after := by
  refine ⟨makes.workingDirectory, makes.terms, ?_⟩
  intro location
  rcases makes.nodes location with kept | ⟨absent, made, allowed⟩
  · exact Or.inl kept
  · exact Or.inr ⟨absent, made, weaker location allowed⟩

theorem changesOnly {may : Location → Prop} {before after : Store}
    (makes : OnlyMakes may before after) : ChangesOnly may before after := by
  refine ⟨makes.workingDirectory, makes.terms, ?_, ?_⟩
  · intro location outside
    rcases makes.nodes location with kept | ⟨_, _, allowed⟩
    · exact kept
    · exact absurd allowed outside
  · intro location present
    rcases makes.nodes location with kept | ⟨_, made, _⟩
    · rw [kept, present]
    · exact made

theorem of_present {may : Location → Prop} {before after : Store} (makes : OnlyMakes may before after)
    (location : Location) (node : Node) (present : before.node? location = some node) :
    after.node? location = some node := by
  rcases makes.nodes location with kept | ⟨absent, _, _⟩
  · rw [kept, present]
  · rw [present] at absent
    cases absent

theorem hasBytes {may : Location → Prop} {before after : Store} {location : Location}
    (makes : OnlyMakes may before after) (bytes : before.HasBytes location) :
    after.HasBytes location := by
  obtain ⟨node, present, file⟩ := bytes
  exact ⟨node, makes.of_present location node present, file⟩

end OnlyMakes

theorem mem_trail (store : Store) (path : Bytes) (front back : List Bytes)
    (shape : Path.elements path = front ++ back) :
    front.foldl follow (store.origin path) ∈ store.trail path := by
  simp only [trail, List.mem_map, List.mem_range]
  refine ⟨front.length, ?_, ?_⟩
  · rw [shape, List.length_append]
    omega
  · rw [shape, List.take_left]

theorem place_mem_trail (store : Store) (path : Bytes) : store.place path ∈ store.trail path :=
  mem_trail store path _ [] (List.append_nil _).symm

theorem parentText?_eq_some (path above : Bytes) (named : parentText? path = some above) :
    Path.elements above = (Path.elements path).dropLast ∧
      Path.isAbsolute above = Path.isAbsolute path := by
  have slashes : ∀ b ∈ (path.reverse.takeWhile Path.isSlash).reverse, b = Bytes.slash := by
    intro b member
    simpa [Path.isSlash] using List.all_eq_true.mp List.all_takeWhile b (List.mem_reverse.mp member)
  have whole : (path.reverse.dropWhile Path.isSlash).reverse ++
      (path.reverse.takeWhile Path.isSlash).reverse = path := by
    rw [← List.reverse_append, List.takeWhile_append_dropWhile, List.reverse_reverse]
  have unslashed := List.head?_dropWhile_not Path.isSlash path.reverse
  simp only [parentText?] at named
  generalize trimmed : (path.reverse.dropWhile Path.isSlash).reverse = short at named whole
  split at named
  · rename_i long
    have parts := Path.upTo_append_after short
    rcases Path.upToLastSlash_ends short with empty | ⟨front, ends⟩
    · simp [empty] at long
    · rw [ends] at named parts long
      rw [List.dropLast_concat, Option.some.injEq] at named
      subst named
      have nonempty : Path.afterLastSlash short ≠ [] := by
        intro missing
        rw [missing, List.append_nil] at parts
        have reversed : path.reverse.dropWhile Path.isSlash = Bytes.slash :: front.reverse := by
          rw [← List.reverse_reverse (path.reverse.dropWhile Path.isSlash), trimmed, ← parts]
          simp
        simp [reversed, Path.isSlash] at unslashed
      have last := Path.elements_single _ nonempty (Path.afterLastSlash_plain short)
      have elements : Path.elements path = Path.elements front ++ [Path.afterLastSlash short] := by
        rw [← whole, Path.elements_drop_slashes _ _ slashes]
        conv => lhs; rw [← parts]
        rw [List.append_assoc, List.singleton_append, Path.elements_append_slash, last]
      refine ⟨by rw [elements, List.dropLast_concat], ?_⟩
      have base : front ≠ [] := by
        intro missing
        simp [missing] at long
      rw [← whole, ← parts, List.append_assoc, List.append_assoc, Path.isAbsolute_append _ _ base]
  · cases named

theorem trail_parentText (store : Store) (path above : Bytes) (named : parentText? path = some above)
    (location : Location) (member : location ∈ store.trail above) :
    location ∈ store.trail path := by
  obtain ⟨elements, rooted⟩ := parentText?_eq_some path above named
  have origin : store.origin above = store.origin path := by simp [Store.origin, rooted]
  simp only [trail, List.mem_map, List.mem_range, elements, origin, List.length_dropLast] at *
  obtain ⟨count, bound, same⟩ := member
  refine ⟨count, by omega, ?_⟩
  rw [← same, List.dropLast_eq_take, List.take_take, Nat.min_eq_left (by omega)]

theorem mkdir_eq_ok (store after : Store) (path : Bytes) (made : store.mkdir path = .ok after) :
    store.node? (store.place path) = none ∧ store.place path ≠ [] ∧
      after = store.put (store.place path) .directory := by
  simp only [mkdir, bind] at made
  obtain ⟨parent, located, made⟩ := Result.bind_eq_ok made
  split at made
  · cases made
  · rename_i directory name
    have place := place_eq_parent store path directory name located
    split at made
    · cases made
    · split at made
      · cases made
      · rename_i absent
        split at made
        · cases made
          rw [place]
          exact ⟨by simpa using absent, by simp, rfl⟩
        · cases made

theorem mkdir_onlyMakes (store after : Store) (path : Bytes) (made : store.mkdir path = .ok after) :
    OnlyMakes (· ∈ store.trail path) store after := by
  obtain ⟨absent, below, rfl⟩ := mkdir_eq_ok store after path made
  refine ⟨workingDirectory_put _ _ _, terms_put _ _ _, ?_⟩
  intro location
  rw [node?_put _ _ _ _ below]
  split
  · rename_i here
    exact Or.inr ⟨here ▸ absent, rfl, here ▸ place_mem_trail store path⟩
  · exact Or.inl rfl

theorem mkdir_after_onlyMakes (store middle after : Store) (path : Bytes)
    (above : OnlyMakes (· ∈ store.trail path) store middle) (made : middle.mkdir path = .ok after) :
    OnlyMakes (· ∈ store.trail path) store after := by
  have last := mkdir_onlyMakes middle after path made
  rw [above.changesOnly.trail_eq path] at last
  exact above.trans last

theorem mkdirAllWithin_onlyMakes (fuel : Nat) (store : Store) (path : Bytes) :
    OnlyMakes (· ∈ store.trail path) store (mkdirAllWithin fuel store path).1 := by
  induction fuel generalizing store path with
  | zero => exact OnlyMakes.refl _ _
  | succ fuel ih =>
      rw [mkdirAllWithin]
      split
      · exact OnlyMakes.refl _ _
      · exact OnlyMakes.refl _ _
      · -- The directories above come first, then the directory itself in the store they leave.
        cases named : parentText? path with
        | none =>
            have above := OnlyMakes.refl (· ∈ store.trail path) store
            simp only
            split
            · exact mkdir_after_onlyMakes store store _ path above (by assumption)
            · split <;> exact above
        | some above =>
            have made := (ih store above).mono (trail_parentText store path above named)
            cases reached : mkdirAllWithin fuel store above with
            | mk middle failed =>
                rw [reached] at made
                simp only [reached]
                split
                · exact made
                · split
                  · exact mkdir_after_onlyMakes store middle _ path made (by assumption)
                  · split <;> exact made

theorem mkdirAll_onlyMakes (store : Store) (path : Bytes) :
    OnlyMakes (· ∈ store.trail path) store (store.mkdirAll path).1 :=
  mkdirAllWithin_onlyMakes _ store path

theorem mkdirAll_present (store : Store) (path : Bytes) (location : Location)
    (found : store.find path = .ok (location, .directory)) : store.mkdirAll path = (store, none) := by
  simp [mkdirAll, mkdirAllWithin, found]

end IgaArchive.Store

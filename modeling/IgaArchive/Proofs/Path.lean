import IgaArchive.EntryName

/-!
Paths by their elements. A joined path has the elements of the clean base followed by those of the
name, as long as the name may be extracted; so nothing of the base is folded away.
-/

namespace IgaArchive.Path

theorem elements_nil : elements [] = [] := by
  simp [elements, Bytes.fields, Bytes.pieces]

theorem elements_append_slash (before after : Bytes) :
    elements (before ++ Bytes.slash :: after) = elements before ++ elements after := by
  have slash : isSlash Bytes.slash = true := by decide
  simp only [elements, Bytes.fields, Bytes.pieces]
  rw [List.splitOnP_append_cons before after slash, List.filter_append]

theorem elements_single (name : Bytes) (nonempty : name ≠ []) (plain : Bytes.slash ∉ name) :
    elements name = [name] := by
  have unsplit : ∀ b ∈ name, isSlash b = false := by
    intro b member
    apply beq_false_of_ne
    intro same
    exact plain (same ▸ member)
  simp [elements, Bytes.fields, Bytes.pieces, List.splitOnP_eq_singleton unsplit, nonempty]

/-- A path is empty, or one element, or two shorter paths around a slash. -/
theorem slash_induction {motive : Bytes → Prop} (empty : motive [])
    (single : ∀ name, name ≠ [] → Bytes.slash ∉ name → motive name)
    (split : ∀ first rest, motive first → motive rest → motive (first ++ Bytes.slash :: rest))
    (path : Bytes) : motive path := by
  induction length : path.length using Nat.strongRecOn generalizing path with
  | ind n ih =>
      by_cases slashed : Bytes.slash ∈ path
      · obtain ⟨first, rest, shape, _⟩ := List.eq_append_cons_of_mem slashed
        have total := congrArg List.length shape
        simp only [List.length_append, List.length_cons] at total
        rw [shape]
        exact split first rest (ih first.length (by omega) first rfl) (ih rest.length (by omega) rest rfl)
      · by_cases none : path = []
        · rw [none]
          exact empty
        · exact single path none slashed

theorem elements_plain (path element : Bytes) (member : element ∈ elements path) :
    element ≠ [] ∧ Bytes.slash ∉ element := by
  induction path using slash_induction with
  | empty => simp [elements_nil] at member
  | single name nonempty plain =>
      rw [elements_single name nonempty plain, List.mem_singleton] at member
      exact member ▸ ⟨nonempty, plain⟩
  | split first rest before behind =>
      rw [elements_append_slash] at member
      exact (List.mem_append.mp member).elim before behind

theorem elements_intercalate (names : List Bytes)
    (plain : ∀ name ∈ names, name ≠ [] ∧ Bytes.slash ∉ name) :
    elements ([Bytes.slash].intercalate names) = names := by
  induction names with
  | nil => simp [elements_nil]
  | cons name names ih =>
      have first := plain name (by simp)
      have rest := ih (fun other member => plain other (List.mem_cons_of_mem _ member))
      cases names with
      | nil => simpa using elements_single name first.1 first.2
      | cons next names =>
          rw [List.intercalate_cons_cons, List.append_assoc, List.singleton_append,
            elements_append_slash, elements_single name first.1 first.2, rest,
            List.singleton_append]

/-- A rendered path has the elements it was made from; the path of none is `.` unless rooted. -/
theorem elements_render (rooted : Bool) (names : List Bytes)
    (plain : ∀ name ∈ names, name ≠ [] ∧ Bytes.slash ∉ name) :
    elements (render rooted names) =
      if rooted = false ∧ names = [] then [here] else names := by
  have joined := elements_intercalate names plain
  cases rooted with
  | true =>
      have rooting := elements_append_slash [] ([Bytes.slash].intercalate names)
      simp only [List.nil_append, elements_nil] at rooting
      simp [render, rooting, joined]
  | false =>
      cases names with
      | nil => decide
      | cons name names => simp [render, joined]

theorem isAbsolute_render (rooted : Bool) (names : List Bytes)
    (plain : ∀ name ∈ names, name ≠ [] ∧ Bytes.slash ∉ name) :
    isAbsolute (render rooted names) = rooted := by
  cases rooted with
  | true => simp [render, isAbsolute]
  | false =>
      cases names with
      | nil => decide
      | cons name names =>
          obtain ⟨nonempty, slashless⟩ := plain name (by simp)
          obtain ⟨first, rest, shape⟩ := List.exists_cons_of_ne_nil nonempty
          subst shape
          have other : first ≠ Bytes.slash := by
            intro same
            exact slashless (by simp [same])
          cases names with
          | nil => simp [render, isAbsolute, other]
          | cons next names => simp [render, isAbsolute, other, List.intercalate_cons_cons]

theorem isAbsolute_append (base rest : Bytes) (nonempty : base ≠ []) :
    isAbsolute (base ++ rest) = isAbsolute base := by
  obtain ⟨first, tail, shape⟩ := List.exists_cons_of_ne_nil nonempty
  simp [isAbsolute, shape]

theorem cleanStep_plain (rooted : Bool) (kept : List Bytes) (element name : Bytes)
    (member : name ∈ cleanStep rooted kept element) :
    name ∈ kept ∨ name = element ∧ element ≠ here := by
  rw [cleanStep.eq_def] at member
  split at member
  · exact Or.inl member
  · rename_i proper
    split at member
    · rename_i up
      split at member
      · split at member
        · cases member
        · rw [List.mem_singleton] at member
          refine Or.inr ⟨member.trans up.symm, ?_⟩
          intro same
          exact proper (Or.inr same)
      · rename_i last before
        split at member
        · rcases List.mem_cons.mp member with same | inside
          · refine Or.inr ⟨same.trans up.symm, ?_⟩
            intro same
            exact proper (Or.inr same)
          · exact Or.inl inside
        · exact Or.inl (List.mem_cons_of_mem _ member)
    · rcases List.mem_cons.mp member with same | inside
      · refine Or.inr ⟨same, ?_⟩
        intro same
        exact proper (Or.inr same)
      · exact Or.inl inside

theorem foldl_cleanStep_plain (rooted : Bool) (kept names : List Bytes) (name : Bytes)
    (member : name ∈ names.foldl (cleanStep rooted) kept) :
    name ∈ kept ∨ name ∈ names ∧ name ≠ here := by
  induction names generalizing kept with
  | nil => exact Or.inl member
  | cons element names ih =>
      rcases ih _ member with inside | ⟨inside, proper⟩
      · rcases cleanStep_plain rooted kept element name inside with old | ⟨same, proper⟩
        · exact Or.inl old
        · subst same
          exact Or.inr ⟨by simp, proper⟩
      · exact Or.inr ⟨List.mem_cons_of_mem _ inside, proper⟩

theorem cleanElements_plain (path name : Bytes) (member : name ∈ cleanElements path) :
    name ≠ [] ∧ Bytes.slash ∉ name := by
  rw [cleanElements, List.mem_reverse] at member
  rcases foldl_cleanStep_plain _ _ _ _ member with inside | ⟨inside, proper⟩
  · cases inside
  · exact elements_plain path name inside

theorem foldl_cleanStep_down (rooted : Bool) (kept names : List Bytes)
    (plain : ∀ name ∈ names, name ≠ []) (down : parent ∉ names) :
    names.foldl (cleanStep rooted) kept =
      (names.filter fun name => name ≠ here).reverse ++ kept := by
  induction names generalizing kept with
  | nil => simp
  | cons name names ih =>
      have later := fun other inside => plain other (List.mem_cons_of_mem name inside)
      have below : parent ∉ names := fun inside => down (List.mem_cons_of_mem _ inside)
      have nonempty : name ≠ [] := plain name (by simp)
      have notParent : name ≠ parent := by
        intro same
        exact down (by simp [same])
      rw [List.foldl_cons, ih _ later below, cleanStep.eq_def]
      by_cases stay : name = here
      · simp [stay]
      · simp [nonempty, stay, notParent]

end IgaArchive.Path

namespace IgaArchive.EntryName

theorem fields_append_slash (before after : Bytes) :
    Bytes.fields isSeparator (before ++ Bytes.slash :: after) =
      Bytes.fields isSeparator before ++ Bytes.fields isSeparator after := by
  have slash : isSeparator Bytes.slash = true := by decide
  simp only [Bytes.fields, Bytes.pieces]
  rw [List.splitOnP_append_cons before after slash, List.filter_append]

theorem parent_mem_fields (name : Bytes) (member : Path.parent ∈ Path.elements name) :
    Path.parent ∈ Bytes.fields isSeparator name := by
  induction name using Path.slash_induction with
  | empty => simp [Path.elements_nil] at member
  | single name nonempty plain =>
      rw [Path.elements_single name nonempty plain, List.mem_singleton] at member
      rw [← member]
      decide
  | split first rest before behind =>
      rw [Path.elements_append_slash] at member
      rw [fields_append_slash]
      rcases List.mem_append.mp member with early | late
      · exact List.mem_append_left _ (before early)
      · exact List.mem_append_right _ (behind late)

theorem check_eq_ok (name : Bytes) (accepted : check name = .ok ()) :
    name ≠ [] ∧ Path.parent ∉ Path.elements name := by
  rw [check] at accepted
  split at accepted
  · cases accepted
  · rename_i nonempty
    refine ⟨nonempty, ?_⟩
    intro up
    split at accepted
    · cases accepted
    · have found := parent_mem_fields name up
      rw [if_pos (List.contains_iff_mem.mpr found)] at accepted
      cases accepted

end IgaArchive.EntryName

namespace IgaArchive.Path

/-- The elements that a name adds to the path it is joined to. -/
def added (name : Bytes) : List Bytes :=
  (elements name).filter fun element => element ≠ here

theorem added_plain (name element : Bytes) (member : element ∈ added name) :
    element ≠ [] ∧ Bytes.slash ∉ element := by
  exact elements_plain name element (List.mem_filter.mp member).1

theorem join_eq_render (base name : Bytes) (nonempty : base ≠ []) (down : parent ∉ elements name) :
    join base name = render (isAbsolute base) (cleanElements base ++ added name) := by
  have rooted := isAbsolute_append base (Bytes.slash :: name) nonempty
  have plain : ∀ element ∈ elements name, element ≠ [] :=
    fun element member => (elements_plain name element member).1
  rw [join, if_neg nonempty, clean, rooted]
  congr 1
  rw [cleanElements, rooted, elements_append_slash, List.foldl_append,
    foldl_cleanStep_down _ _ _ plain down, List.reverse_append, List.reverse_reverse]
  rfl

theorem joined_plain (base name element : Bytes)
    (member : element ∈ cleanElements base ++ added name) :
    element ≠ [] ∧ Bytes.slash ∉ element := by
  rcases List.mem_append.mp member with inside | inside
  · exact cleanElements_plain base element inside
  · exact added_plain name element inside

theorem elements_join (base name : Bytes) (nonempty : base ≠ []) (down : parent ∉ elements name) :
    elements (join base name) =
      if isAbsolute base = false ∧ cleanElements base ++ added name = [] then [here]
      else cleanElements base ++ added name := by
  rw [join_eq_render base name nonempty down]
  exact elements_render _ _ (joined_plain base name)

theorem isAbsolute_join (base name : Bytes) (nonempty : base ≠ [])
    (down : parent ∉ elements name) : isAbsolute (join base name) = isAbsolute base := by
  rw [join_eq_render base name nonempty down]
  exact isAbsolute_render _ _ (joined_plain base name)

theorem elements_subset (path element : Bytes) (member : element ∈ elements path) (b : UInt8)
    (inside : b ∈ element) : b ∈ path := by
  induction path using slash_induction with
  | empty => simp [elements_nil] at member
  | single name nonempty plain =>
      rw [elements_single name nonempty plain, List.mem_singleton] at member
      exact member ▸ inside
  | split first rest before behind =>
      rw [elements_append_slash] at member
      rcases List.mem_append.mp member with early | late
      · exact List.mem_append_left _ (before early)
      · exact List.mem_append_right _ (List.mem_cons_of_mem _ (behind late))

theorem cleanElements_subset (path element : Bytes) (member : element ∈ cleanElements path)
    (b : UInt8) (inside : b ∈ element) : b ∈ path := by
  rw [cleanElements, List.mem_reverse] at member
  rcases foldl_cleanStep_plain _ _ _ _ member with none | ⟨kept, _⟩
  · cases none
  · exact elements_subset path element kept b inside

theorem mem_intercalate (names : List Bytes) (b : UInt8)
    (member : b ∈ [Bytes.slash].intercalate names) :
    b = Bytes.slash ∨ ∃ name ∈ names, b ∈ name := by
  induction names with
  | nil => simp at member
  | cons name names ih =>
      cases names with
      | nil =>
          rw [List.intercalate_singleton] at member
          exact Or.inr ⟨name, by simp, member⟩
      | cons next names =>
          rw [List.intercalate_cons_cons, List.append_assoc, List.mem_append, List.singleton_append,
            List.mem_cons] at member
          rcases member with here | slash | later
          · exact Or.inr ⟨name, by simp, here⟩
          · exact Or.inl slash
          · rcases ih later with slash | ⟨other, inside, found⟩
            · exact Or.inl slash
            · exact Or.inr ⟨other, List.mem_cons_of_mem _ inside, found⟩

theorem intercalate_concat (front : List Bytes) (name : Bytes) :
    ∃ lead, [Bytes.slash].intercalate (front ++ [name]) = lead ++ name := by
  induction front with
  | nil => exact ⟨[], by simp⟩
  | cons first front ih =>
      obtain ⟨lead, shape⟩ := ih
      cases front with
      | nil => exact ⟨first ++ [Bytes.slash], by simp [List.intercalate_cons_cons]⟩
      | cons next front =>
          refine ⟨first ++ [Bytes.slash] ++ lead, ?_⟩
          rw [List.cons_append, List.cons_append, List.intercalate_cons_cons, ← List.cons_append, shape,
            List.append_assoc (first ++ [Bytes.slash])]

/-- A name that is one proper element of a path. -/
structure Leaf (name : Bytes) : Prop where
  nonempty : name ≠ []
  plain : Bytes.slash ∉ name
  goes : name ≠ here
  down : name ≠ parent

namespace Leaf

variable {name : Bytes} (leaf : Leaf name)
include leaf

theorem elements : Path.elements name = [name] :=
  elements_single name leaf.nonempty leaf.plain

theorem parent_not_mem : parent ∉ Path.elements name := by
  rw [leaf.elements, List.mem_singleton]
  exact fun same => leaf.down same.symm

theorem added : Path.added name = [name] := by
  simp [Path.added, leaf.elements, leaf.goes]

theorem elements_join (base : Bytes) (nonempty : base ≠ []) :
    Path.elements (join base name) = cleanElements base ++ [name] := by
  rw [Path.elements_join base name nonempty leaf.parent_not_mem, leaf.added, if_neg (by simp)]

theorem join_eq (base : Bytes) (nonempty : base ≠ []) :
    join base name = (if isAbsolute base then [Bytes.slash] else []) ++
      [Bytes.slash].intercalate (cleanElements base ++ [name]) := by
  rw [join_eq_render base name nonempty leaf.parent_not_mem, leaf.added, render]
  split <;> simp

theorem mem_join (base : Bytes) (nonempty : base ≠ []) (b : UInt8) (member : b ∈ join base name) :
    b = Bytes.slash ∨ b ∈ base ∨ b ∈ name := by
  rw [leaf.join_eq base nonempty] at member
  rcases List.mem_append.mp member with root | inside
  · split at root
    · exact Or.inl (List.mem_singleton.mp root)
    · cases root
  · rcases mem_intercalate _ b inside with slash | ⟨element, listed, found⟩
    · exact Or.inl slash
    · rcases List.mem_append.mp listed with early | last
      · exact Or.inr (Or.inl (cleanElements_subset base element early b found))
      · rw [List.mem_singleton] at last
        exact Or.inr (Or.inr (last ▸ found))

theorem join_ends (base : Bytes) (nonempty : base ≠ []) : ∃ lead, join base name = lead ++ name := by
  obtain ⟨lead, shape⟩ := intercalate_concat (cleanElements base) name
  exact ⟨_, by rw [leaf.join_eq base nonempty, shape, ← List.append_assoc]⟩

end Leaf

theorem upTo_append_after (path : Bytes) : upToLastSlash path ++ afterLastSlash path = path := by
  rw [upToLastSlash, afterLastSlash, ← List.reverse_append, List.takeWhile_append_dropWhile,
    List.reverse_reverse]

theorem afterLastSlash_plain (path : Bytes) : Bytes.slash ∉ afterLastSlash path := by
  intro member
  rw [afterLastSlash, List.mem_reverse] at member
  have kept := List.all_eq_true.mp List.all_takeWhile _ member
  simp [isSlash] at kept

theorem upToLastSlash_ends (path : Bytes) :
    upToLastSlash path = [] ∨ ∃ front, upToLastSlash path = front ++ [Bytes.slash] := by
  cases dropped : path.reverse.dropWhile fun b => !isSlash b with
  | nil => exact Or.inl (by rw [upToLastSlash, dropped]; rfl)
  | cons last front =>
      have slash := List.head?_dropWhile_not (fun b => !isSlash b) path.reverse
      rw [dropped] at slash
      refine Or.inr ⟨front.reverse, ?_⟩
      rw [upToLastSlash, dropped, List.reverse_cons]
      have same : last = Bytes.slash := by simpa [isSlash] using slash
      rw [same]

theorem elements_of_fileName (path name : Bytes) (named : fileName? path = some name) :
    name ≠ [] ∧ Bytes.slash ∉ name ∧ ∃ front, elements path = front ++ [name] := by
  simp only [fileName?] at named
  split at named
  · cases named
  · rename_i nonempty
    cases named
    have plain := afterLastSlash_plain path
    have proper : afterLastSlash path ≠ [] := by simpa using nonempty
    have single := elements_single _ proper plain
    refine ⟨proper, plain, ?_⟩
    have parts := upTo_append_after path
    rcases upToLastSlash_ends path with empty | ⟨front, ends⟩
    · rw [empty, List.nil_append] at parts
      rw [parts] at single ⊢
      exact ⟨[], single⟩
    · refine ⟨elements front, ?_⟩
      rw [ends, List.append_assoc, List.singleton_append] at parts
      conv => lhs; rw [← parts]
      rw [elements_append_slash, single]

theorem elements_drop_slashes (path slashes : Bytes) (only : ∀ b ∈ slashes, b = Bytes.slash) :
    elements (path ++ slashes) = elements path := by
  induction slashes generalizing path with
  | nil => simp
  | cons b slashes ih =>
      have slash : b = Bytes.slash := only b (by simp)
      have rest := ih (path ++ [b]) (fun other member => only other (List.mem_cons_of_mem _ member))
      rw [List.append_assoc, List.singleton_append] at rest
      rw [rest, slash, elements_append_slash, elements_nil, List.append_nil]

end IgaArchive.Path

import IgaArchive.Log
import IgaArchive.Proofs.Store.Directories

/-!
What a log does to the files of a store. Only a verbose log that is kept in a file writes anything,
and then it touches nothing but that file and the directories on the way to it.
-/

namespace IgaArchive.LogFile

/-- The locations that a log file may touch: where it is open, and those that its path passes. -/
def Reaches (file : LogFile) (store : Store) (location : Location) : Prop :=
  location ∈ store.trail file.path ∨ location ∈ store.trail (Path.directory file.path) ∨
    ∃ position, file.opened = some (location, position)

theorem open?_spec (file : LogFile) (store : Store) :
    Store.ChangesOnly (file.Reaches store) store (file.open? store).1 ∧
      ∀ location position, (file.open? store).2 = some (location, position) →
        location = store.place file.path := by
  rw [open?]
  split
  · exact ⟨Store.ChangesOnly.refl _ _, nofun⟩
  · rename_i location node _ found
    refine ⟨Store.ChangesOnly.refl _ _, ?_⟩
    intro other position opened
    simp only at opened
    split at opened
    · cases opened
      exact (Store.find_eq_ok store file.path location node found).2.2.1
    · cases opened
  · have makes := Store.mkdirAll_onlyMakes store (Path.directory file.path)
    have allowed : ∀ location, location ∈ store.trail (Path.directory file.path) →
        file.Reaches store location := fun location inside => Or.inr (Or.inl inside)
    split
    · rename_i middle fault made
      rw [made] at makes
      exact ⟨(makes.mono allowed).changesOnly, nofun⟩
    · rename_i middle made
      rw [made] at makes
      have above := (makes.mono allowed).changesOnly
      split
      · rename_i location after created
        obtain ⟨place, changes⟩ := Store.create_changesOnly middle after file.path location created
        have same := above.place_eq file.path
        rw [same] at place changes
        refine ⟨above.trans (changes.mono ?_), ?_⟩
        · intro other here
          exact Or.inl (here ▸ Store.place_mem_trail store file.path)
        · intro other position opened
          cases opened
          exact place
      · exact ⟨above, nofun⟩
  · exact ⟨Store.ChangesOnly.refl _ _, nofun⟩

theorem writeOpened_changesOnly (store : Store) (location : Location) (position : LogPosition)
    (line : Bytes) :
    Store.ChangesOnly (· = location) store (writeOpened store location position line).1 := by
  cases position <;> exact Store.writeAt_changesOnly _ _ _ _

theorem open?_hasBytes (file : LogFile) (store : Store) (location : Location)
    (before : store.HasBytes location) : (file.open? store).1.HasBytes location := by
  rw [open?]
  split
  · exact before
  · exact before
  · have makes := Store.mkdirAll_onlyMakes store (Path.directory file.path)
    split
    · rename_i middle fault made
      rw [made] at makes
      exact makes.hasBytes before
    · rename_i middle made
      rw [made] at makes
      split
      · rename_i place after created
        exact Store.create_hasBytes middle after file.path place location created (makes.hasBytes before)
      · exact makes.hasBytes before
  · exact before

theorem writeOpened_hasBytes (store : Store) (location other : Location) (position : LogPosition)
    (line : Bytes) (before : store.HasBytes other) :
    (writeOpened store location position line).1.HasBytes other := by
  cases position <;> exact Store.writeAt_hasBytes _ _ _ _ _ before

theorem write_hasBytes (file : LogFile) (store : Store) (line : Bytes) (location : Location)
    (before : store.HasBytes location) : (file.write store line).1.HasBytes location := by
  rw [write]
  split
  · exact before
  · cases file.opened with
    | some place => exact writeOpened_hasBytes _ _ _ _ _ before
    | none =>
        have opened := open?_hasBytes file store location before
        cases opening : file.open? store with
        | mk middle place =>
            rw [opening] at opened
            cases place with
            | none => exact opened
            | some place => exact writeOpened_hasBytes _ _ _ _ _ opened

theorem write_spec (file : LogFile) (store : Store) (line : Bytes) :
    Store.ChangesOnly (file.Reaches store) store (file.write store line).1 ∧
      ∀ location, (file.write store line).2.Reaches store location → file.Reaches store location := by
  rw [write]
  split
  · exact ⟨Store.ChangesOnly.refl _ _, fun _ reached => reached⟩
  · cases already : file.opened with
    | some place =>
        obtain ⟨location, position⟩ := place
        have here : file.Reaches store location := Or.inr (Or.inr ⟨position, already⟩)
        refine ⟨(writeOpened_changesOnly store location position line).mono ?_, ?_⟩
        · intro other same
          exact same ▸ here
        · rintro other (passed | passed | ⟨at_, opened⟩)
          · exact Or.inl passed
          · exact Or.inr (Or.inl passed)
          · cases opened
            exact here
    | none =>
        obtain ⟨changes, placed⟩ := open?_spec file store
        cases opening : file.open? store with
        | mk middle opened =>
            rw [opening] at changes placed
            cases opened with
            | none => exact ⟨changes, fun _ reached => reached⟩
            | some place =>
                obtain ⟨location, position⟩ := place
                have here : file.Reaches store location := by
                  rw [placed location position rfl]
                  exact Or.inl (Store.place_mem_trail store file.path)
                refine ⟨changes.trans ((writeOpened_changesOnly middle location position line).mono ?_), ?_⟩
                · intro other same
                  exact same ▸ here
                · rintro other (passed | passed | ⟨at_, reopened⟩)
                  · exact Or.inl passed
                  · exact Or.inr (Or.inl passed)
                  · cases reopened
                    exact here

end IgaArchive.LogFile

namespace IgaArchive.Log

/-- The locations that a log may touch. A log that is not verbose or not kept in a file touches none. -/
def Reaches (log : Log) (store : Store) (location : Location) : Prop :=
  log.verbose = true ∧ ∃ file, log.file = some file ∧ file.Reaches store location

def TouchesWith (log : Log) (store : Store) (path : Bytes) (location : Location) : Prop :=
  location = store.place path ∨ log.Reaches store location

theorem reaches_congr {may : Location → Prop} {before after : Store}
    (changes : Store.ChangesOnly may before after) (log : Log) (location : Location) :
    log.Reaches after location ↔ log.Reaches before location := by
  simp [Reaches, LogFile.Reaches, changes.trail_eq]

theorem quiet_again {may : Location → Prop} {before after : Store} {log later : Log}
    (changes : Store.ChangesOnly may before after)
    (reach : ∀ location, later.Reaches after location → log.Reaches before location) (path : Bytes)
    (quiet : ¬ log.Reaches before (before.place path)) : ¬ later.Reaches after (after.place path) := by
  intro reached
  rw [changes.place_eq] at reached
  exact quiet (reach _ reached)

theorem detail_spec (log : Log) (store : Store) (message : Bytes) :
    Store.ChangesOnly (log.Reaches store) store (log.detail store message).1 ∧
      ∀ location, (log.detail store message).2.Reaches store location → log.Reaches store location := by
  rw [detail]
  split
  · rename_i verbose
    cases kept : log.file with
    | none =>
        simp only [note, kept]
        refine ⟨Store.ChangesOnly.refl _ _, ?_⟩
        rintro location ⟨_, file, same, _⟩
        simp at same
    | some file =>
        obtain ⟨changes, reached⟩ := LogFile.write_spec file store (line log.stamp message)
        simp only [note, kept]
        refine ⟨changes.mono fun location inside => ⟨verbose, file, kept, inside⟩, ?_⟩
        rintro location ⟨_, later, same, inside⟩
        cases same
        exact ⟨verbose, file, kept, reached location inside⟩
  · exact ⟨Store.ChangesOnly.refl _ _, fun _ reached => reached⟩

theorem detail_hasBytes (log : Log) (store : Store) (message : Bytes) (location : Location)
    (before : store.HasBytes location) : (log.detail store message).1.HasBytes location := by
  rw [detail]
  split
  · rw [note]
    cases log.file with
    | none => exact before
    | some file => exact LogFile.write_hasBytes file store _ location before
  · exact before

end IgaArchive.Log

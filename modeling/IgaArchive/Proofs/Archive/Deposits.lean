import IgaArchive.Proofs.Archive.RoundTrip
import IgaArchive.Proofs.Basin
import IgaArchive.Proofs.Store.Flat

/-!
Extraction into a directory that began empty, told in full: which files come to stand there, with what
bytes, and how the run ends. None of it rests on anything but the container, the policy, the buffer, and
the length of the paths.
-/

namespace IgaArchive.Archive

/-- What the latest of some deposits leaves at a place within the directory. -/
def bytesAt (held : List (Entry × Bytes)) (below : Location) : Option Bytes :=
  (held.find? fun deposit => Path.proper deposit.1.name = below).map Prod.snd

def refusedAs (errno : Errno) : Failure.Kind :=
  if errno = .notFound then .notFound else .other

/-- What ends a run at an entry whose file was made: a full file, a payload that is cut off, or what closing
the file reports. -/
def setback (container : Bytes) (directory : Directory) (buffer : Nat) (terms : Store.Terms)
    (entry : Entry) : Option Failure.Kind :=
  if Store.fitting terms.room 0 (obtained container directory buffer entry) <
      obtained container directory buffer entry then some .other
  else if entry.size.toNat ≤ (ciphertext container directory entry).length then
    terms.closing.map refusedAs
  else some .unexpectedEnd

/-- What extracting entries adds to the files in a directory that began empty, the latest first, and the
kind of failure that ends it. The terms are those of the places within the directory. -/
def deposit (container : Bytes) (directory : Directory) (base : Bytes) (terms : Location → Store.Terms)
    (policy : KeyPolicy) (buffer : Nat) :
    List Entry → List (Entry × Bytes) → Option Failure.Kind × List (Entry × Bytes)
  | [], held => (none, held)
  | entry :: rest, held =>
    match Store.hindrance base (fun name => (bytesAt held [name]).isSome) terms entry.name with
    | some errno => (some (refusedAs errno), held)
    | none =>
      let place := terms (Path.proper entry.name)
      let next := (entry, portion container directory (Payload.key entry.name policy) buffer place.room
        entry) :: held
      match setback container directory buffer place entry with
      | some kind => (some kind, next)
      | none => deposit container directory base terms policy buffer rest next

def ending {α : Type} (result : Except Failure α) : Option Failure.Kind :=
  (Result.error? result).map Failure.kind

theorem deposit_entries (container : Bytes) (directory : Directory) (base : Bytes)
    (terms : Location → Store.Terms) (policy : KeyPolicy) (buffer : Nat) (entries : List Entry)
    (held : List (Entry × Bytes)) :
    ∃ written, written <+: entries ∧
      (deposit container directory base terms policy buffer entries held).2.map Prod.fst =
        written.reverse ++ held.map Prod.fst ∧
      ((deposit container directory base terms policy buffer entries held).1 = none →
        written = entries) := by
  induction entries generalizing held with
  | nil => exact ⟨[], List.prefix_rfl, rfl, fun _ => rfl⟩
  | cons entry rest ih =>
      rw [deposit]
      cases Store.hindrance base (fun name => (bytesAt held [name]).isSome) terms entry.name with
      | some errno => exact ⟨[], List.nil_prefix, rfl, nofun⟩
      | none =>
          dsimp only
          cases setback container directory buffer (terms (Path.proper entry.name)) entry with
          | some kind =>
              exact ⟨[entry], (List.prefix_cons_inj entry).mpr List.nil_prefix, rfl, nofun⟩
          | none =>
              obtain ⟨written, front, shape, all⟩ := ih ((entry, portion container directory
                (Payload.key entry.name policy) buffer (terms (Path.proper entry.name)).room entry) :: held)
              refine ⟨entry :: written, (List.prefix_cons_inj entry).mpr front, ?_, ?_⟩
              · rw [shape, List.map_cons, List.reverse_cons, List.append_assoc]
                rfl
              · intro fine
                rw [all fine]

/-- A directory that began empty and holds what was deposited since. Neither the log nor the archive that is
read stands within it. -/
structure Stocked (archive : Archive) (container out : Bytes) (base : Location)
    (terms : Location → Store.Terms) (held : List (Entry × Bytes)) (workspace : Workspace) : Prop where
  terms : ∀ below ≠ [], workspace.store.terms (base ++ below) = terms below
  found : workspace.store.find (baseOf out) = .ok (base, .directory)
  nodes : ∀ below ≠ [], workspace.store.node? (base ++ below) =
    (bytesAt held below).map fun bytes => .file (.ofBytes bytes)
  quiet : ∀ below ≠ [], ¬ workspace.log.Reaches workspace.store (base ++ below)
  supplies : archive.Supplies container workspace.store
  apart : ∀ below ≠ [], ¬ archive.ReadsFrom (base ++ below)
  unread : ∀ source, archive.ReadsFrom source → ¬ workspace.log.Reaches workspace.store source

/-- What follows once the file of a member is made: it holds what comes out of the container and fits, and
the run ends as `setback` says. -/
theorem fillTask_ends (archive : Archive) (container : Bytes) (task : Task) (location : Location)
    (buffer : Int) (made : Workspace) (positive : 0 < buffer)
    (supplies : archive.Supplies container made.store) (apart : ¬ archive.ReadsFrom location)
    (empty : made.store.node? location = some (.file {})) :
    ∃ result counts, (do
        Action.during (.extract task.entry.name) (archive.transferTo task location buffer)
        Action.during (.close task.destination)
          (Action.ask (·.close task.destination location)) : Action Unit).runOn made =
      (result, { made with
        store := made.store.fill location (portion container archive.directory task.key buffer.toNat
          (made.store.terms location).room task.entry),
        tracker := made.tracker.map (Tracker.addAll · counts) }) ∧
      ending result =
        setback container archive.directory buffer.toNat (made.store.terms location) task.entry := by
  have room : made.store.roomAt location = (made.store.terms location).room := by
    rw [Store.roomAt, empty]
  obtain ⟨counts, run⟩ := transferTo_fills archive container task location buffer made positive supplies
    apart (Or.inl empty)
  have moving := Action.during_run (.extract task.entry.name) (archive.transferTo task location buffer) made
  rw [run, room] at moving
  rw [setback]
  by_cases full : Store.fitting (made.store.terms location).room 0
      (obtained container archive.directory buffer.toNat task.entry) <
        obtained container archive.directory buffer.toNat task.entry
  · rw [if_pos full, Result.mapError_error] at moving
    rw [if_pos full]
    exact ⟨_, counts, Action.bind_of_error _ _ _ _ _ moving, rfl⟩
  · by_cases whole : task.entry.size.toNat ≤ (ciphertext container archive.directory task.entry).length
    · rw [if_neg full, if_pos whole, Result.mapError_ok] at moving
      rw [if_neg full, if_pos whole, Action.bind_of_ok _ _ _ _ _ moving, Action.during_run]
      refine ⟨_, counts, rfl, ?_⟩
      simp only [Action.runOn, Action.ask, Store.close, Store.terms_fill]
      cases (made.store.terms location).closing <;> rfl
    · rw [if_neg full, if_neg whole, Result.mapError_error] at moving
      rw [if_neg full, if_neg whole]
      exact ⟨_, counts, Action.bind_of_error _ _ _ _ _ moving, rfl⟩

section Stocked

variable {archive : Archive} {container out : Bytes} {base : Location} {terms : Location → Store.Terms}
variable {held : List (Entry × Bytes)} {before : Workspace}
variable (stocked : Stocked archive container out base terms held before)
include stocked

theorem Stocked.flat : before.store.Flat (baseOf out) base := by
  refine ⟨stocked.found, ?_⟩
  intro below down node there
  rw [stocked.nodes below down] at there
  obtain ⟨bytes, _, rfl⟩ := Option.map_eq_some_iff.mp there
  exact ⟨_, rfl⟩

theorem Stocked.taken : (fun name => (before.store.node? (base ++ [name])).isSome) =
    fun name => (bytesAt held [name]).isSome := by
  funext name
  rw [stocked.nodes [name] (by simp), Option.isSome_map]

theorem Stocked.track (change : Tracker → Tracker) :
    Stocked archive container out base terms held (before.track change) :=
  ⟨stocked.terms, stocked.found, stocked.nodes, stocked.quiet, stocked.supplies, stocked.apart, stocked.unread⟩

theorem Stocked.add {after : Workspace} (entry : Entry) (bytes : Bytes)
    (goes : Path.proper entry.name ≠ [])
    (changes : Store.ChangesOnly (fun location => location = base ++ Path.proper entry.name ∨
      before.log.Reaches before.store location) before.store after.store)
    (reach : ∀ location, after.log.Reaches after.store location →
      before.log.Reaches before.store location)
    (filled : after.store.node? (base ++ Path.proper entry.name) = some (.file (.ofBytes bytes))) :
    Stocked archive container out base terms ((entry, bytes) :: held) after := by
  refine ⟨?_, ?_, ?_, ?_, ?_, stocked.apart, ?_⟩
  · intro below down
    rw [changes.terms]
    exact stocked.terms below down
  · exact Store.find_again changes _ _ _ stocked.found
      (changes.directories base (Store.find_eq_ok _ _ _ _ stocked.found).2.2.2)
  · intro below down
    by_cases here : Path.proper entry.name = below
    · subst here
      simp only [bytesAt, List.find?_cons, decide_true, Option.map_some]
      exact filled
    · have other : ¬ (base ++ below = base ++ Path.proper entry.name ∨
          before.log.Reaches before.store (base ++ below)) := by
        intro touched
        rcases touched with same | reached
        · exact here (List.append_cancel_left same).symm
        · exact stocked.quiet below down reached
      rw [changes.outside _ other, stocked.nodes below down]
      simp only [bytesAt, List.find?_cons, here, decide_false]
  · exact fun below down reached => stocked.quiet below down (reach _ reached)
  · refine stocked.supplies.again changes ?_
    intro source reads touched
    rcases touched with here | reached
    · exact stocked.apart _ goes (here ▸ reads)
    · exact stocked.unread source reads reached
  · exact fun source reads reached => stocked.unread source reads (reach _ reached)

variable (buffer : Int) (task : Task)
variable (aimed : task.destination = Path.join (baseOf out) task.entry.name)
variable (down : Path.parent ∉ Path.elements task.entry.name)
include aimed down

theorem Stocked.create_eq :
    before.store.create task.destination =
      match Store.hindrance (baseOf out) (fun name => (bytesAt held [name]).isSome) terms
        task.entry.name with
      | some errno => .error ⟨"open", task.destination, errno⟩
      | none => .ok (base ++ Path.proper task.entry.name,
          before.store.put (base ++ Path.proper task.entry.name) (.file {})) := by
  have creates := stocked.flat.create_eq task.entry.name down
  rw [stocked.taken, Store.hindrance_congr _ _ _ _ _ stocked.terms] at creates
  rw [aimed]
  exact creates

theorem Stocked.extractTask_hindered (errno : Errno)
    (hindered : Store.hindrance (baseOf out) (fun name => (bytesAt held [name]).isSome) terms
      task.entry.name = some errno) :
    ∃ failure after, (archive.extractTask buffer task).runOn before = (.error failure, after) ∧
      failure.kind = refusedAs errno ∧ Stocked archive container out base terms held after := by
  have creating := stocked.create_eq task aimed down
  rw [hindered] at creating
  have refused := Action.alter_of_error (·.create task.destination)
    (before.track fun tracker => tracker.entry task.entry.name) _ creating
  have failed : (Action.during (.create task.destination)
      (Action.alter (·.create task.destination))).runOn
        (before.track fun tracker => tracker.entry task.entry.name) = _ :=
    Action.during_eq_error.mpr ⟨_, rfl, refused⟩
  rw [extractTask, Action.bind_of_ok (Action.track _) _ before _ () rfl]
  exact ⟨_, _, Action.bind_of_error _ _ _ _ _ failed, rfl, stocked.track _⟩

theorem Stocked.extractTask_deposits (positive : 0 < buffer)
    (free : Store.hindrance (baseOf out) (fun name => (bytesAt held [name]).isSome) terms
      task.entry.name = none) :
    let place := terms (Path.proper task.entry.name)
    ∃ result after, (archive.extractTask buffer task).runOn before = (result, after) ∧
      ending result = setback container archive.directory buffer.toNat place task.entry ∧
      Stocked archive container out base terms ((task.entry,
        portion container archive.directory task.key buffer.toNat place.room task.entry) :: held)
        after := by
  intro place
  obtain ⟨last, single⟩ := Store.hindrance_eq_none _ _ _ _ free
  have goes : Path.proper task.entry.name ≠ [] := by simp [single]
  have creating := stocked.create_eq task aimed down
  rw [free] at creating
  have here := (Store.create_changesOnly _ _ _ _ creating).1
  have prepared := prepared_of_create task before.store _ before.log _
    (by rw [← here]; exact stocked.quiet _ goes) creating
  have nonroot : base ++ Path.proper task.entry.name ≠ [] := List.append_ne_nil_of_right_ne_nil _ goes
  have empty := prepared.untouched
  rw [Store.node?_put _ _ _ _ nonroot, if_pos rfl] at empty
  have changes : Store.ChangesOnly (fun location => location = base ++ Path.proper task.entry.name ∨
      before.log.Reaches before.store location) before.store _ := prepared.changes.mono (by
    intro location touching
    rcases touching with there | reached
    · exact Or.inl (there.trans here.symm)
    · exact Or.inr reached)
  have supplies := stocked.supplies.again changes (by
    intro source reads touching
    rcases touching with there | reached
    · exact stocked.apart _ goes (there ▸ reads)
    · exact stocked.unread source reads reached)
  have made : (Action.during (.create task.destination)
      (Action.alter (·.create task.destination))).runOn
        (before.track fun tracker => tracker.entry task.entry.name) =
      (.ok (base ++ Path.proper task.entry.name), { before with
        store := before.store.put (base ++ Path.proper task.entry.name) (.file {}),
        tracker := before.tracker.map (·.entry task.entry.name) }) :=
    Action.during_eq_ok.mpr (Action.alter_eq_ok.mpr ⟨_, creating, rfl⟩)
  obtain ⟨result, counts, run, ends⟩ := fillTask_ends archive container task
    (base ++ Path.proper task.entry.name) buffer
    { store := (before.log.detail (before.store.put (base ++ Path.proper task.entry.name) (.file {}))
        task.description).1
      log := (before.log.detail (before.store.put (base ++ Path.proper task.entry.name) (.file {}))
        task.description).2
      tracker := before.tracker.map (·.entry task.entry.name) }
    positive supplies (stocked.apart _ goes) empty
  have kept := (congrFun changes.terms _).trans (stocked.terms _ goes)
  dsimp only at run ends
  rw [kept] at run ends
  have room : (before.log.detail (before.store.put (base ++ Path.proper task.entry.name) (.file {}))
      task.description).1.roomAt (base ++ Path.proper task.entry.name) = place.room := by
    rw [Store.roomAt, empty]
    exact congrArg Store.Terms.room kept
  have filling := Store.fill_changesOnly _ _
    (portion container archive.directory task.key buffer.toNat place.room task.entry) (Or.inl empty)
    (by rw [room]; exact Store.fitting_take (Store.fitting_fitting _ _) _)
  rw [extractTask, Action.bind_of_ok (Action.track _) _ before _ () rfl,
    Action.bind_of_ok _ _ _ _ _ made, Action.bind_of_ok _ _ _ _ _ (Action.detail_run _ _), run]
  refine ⟨_, _, rfl, ends, stocked.add task.entry _ goes ?_ ?_ ?_⟩
  · exact changes.trans (filling.mono fun _ there => Or.inl there)
  · intro location reached
    exact prepared.reach location ((Log.reaches_congr filling _ location).mp reached)
  · exact Store.node?_fill _ _ _ empty

end Stocked

theorem taskOf_entry (directory : Directory) (out : Bytes) (policy : KeyPolicy) (entry : Entry) :
    (taskOf directory out policy entry).entry = entry := rfl

/-- A run over entries ends as `deposit` says and leaves what it says. -/
theorem Stocked.extractTasks_deposit {archive : Archive} {container out : Bytes} {base : Location}
    {terms : Location → Store.Terms} (policy : KeyPolicy) (buffer : Int) (positive : 0 < buffer)
    (entries : List Entry) (down : ∀ entry ∈ entries, Path.parent ∉ Path.elements entry.name)
    (held : List (Entry × Bytes)) (before : Workspace)
    (stocked : Stocked archive container out base terms held before) :
    ∃ result after,
      (archive.extractTasks buffer (entries.map (taskOf archive.directory out policy))).runOn before =
        (result, after) ∧
      ending result =
        (deposit container archive.directory (baseOf out) terms policy buffer.toNat entries held).1 ∧
      Stocked archive container out base terms
        (deposit container archive.directory (baseOf out) terms policy buffer.toNat entries held).2
        after := by
  induction entries generalizing held before with
  | nil => exact ⟨_, _, rfl, rfl, stocked⟩
  | cons entry rest ih =>
      have first := down entry (by simp)
      have later := fun other listed => down other (List.mem_cons_of_mem _ listed)
      rw [List.map_cons, extractTasks, deposit]
      cases way : Store.hindrance (baseOf out) (fun name => (bytesAt held [name]).isSome) terms
          entry.name with
      | some errno =>
          obtain ⟨failure, after, ran, kind, still⟩ := stocked.extractTask_hindered buffer
            (taskOf archive.directory out policy entry) rfl first errno way
          refine ⟨_, _, Action.bind_of_error _ _ _ _ _ ran, ?_, still⟩
          exact congrArg some kind
      | none =>
          obtain ⟨result, after, ran, ends, further⟩ := stocked.extractTask_deposits buffer
            (taskOf archive.directory out policy entry) rfl first positive way
          rw [taskOf_entry] at ends
          dsimp only
          cases result with
          | error failure =>
              rw [← ends]
              exact ⟨_, _, Action.bind_of_error _ _ _ _ _ ran, rfl, further⟩
          | ok _ =>
              rw [← ends, Action.bind_of_ok _ _ _ _ _ ran]
              exact ih later _ after further

end IgaArchive.Archive

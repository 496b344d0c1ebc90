import IgaArchive.Proofs.Archive.Transfer

/-!
Extracting members. Each destination ends up with the decoded payload of the last entry that goes
there, whatever the transfer buffer and the tracker; the archive itself is read as it was as long as no
destination and no log line touches it.
-/

namespace IgaArchive.Archive

def closed (task : Task) (location : Location) (store : Store) : Except Failure Unit :=
  ((store.close task.destination location).mapError .store).mapError (.during (.close task.destination))

/-- What extracting one member does to the files and the log, whatever the buffer and the tracker. -/
def extraction (container : Bytes) (directory : Directory) (task : Task) (store : Store) (log : Log) :
    Except Failure Unit × Store × Log :=
  match store.create task.destination with
  | .error fault => (.error (.during (.create task.destination) (.store fault)), store, log)
  | .ok (location, created) =>
    let (noted, log) := log.detail created task.description
    let (outcome, store) := delivered noted location task.destination
      (plaintext container directory task.key task.entry)
    (do
      outcome.mapError (.during (.extract task.entry.name))
      closed task location store, store, log)

def extractions (container : Bytes) (directory : Directory) :
    List Task → Store → Log → Except Failure Unit × Store × Log
  | [], store, log => (.ok (), store, log)
  | task :: tasks, store, log =>
    match extraction container directory task store log with
    | (.ok (), store, log) => extractions container directory tasks store log
    | (.error failure, store, log) => (.error failure, store, log)

/-- An archive whose container neither the tasks nor the log will touch, with all payloads in range. -/
structure Poised (archive : Archive) (container : Bytes) (tasks : List Task) (workspace : Workspace) :
    Prop where
  supplies : archive.Supplies container workspace.store
  inRange : ∀ task ∈ tasks,
    (archive.directory.start task.entry).toNatClampNeg + task.entry.size.toNat ≤ container.length
  apart : ∀ task ∈ tasks, ¬ archive.ReadsFrom (workspace.store.place task.destination)
  unread : ∀ location, archive.ReadsFrom location → ¬ workspace.log.Reaches workspace.store location
  quiet : ∀ task ∈ tasks,
    ¬ workspace.log.Reaches workspace.store (workspace.store.place task.destination)

structure Ready (archive : Archive) (source : Location) (container : Bytes) (tasks : List Task)
    (workspace : Workspace) : Prop extends Poised archive container tasks workspace where
  inFile : archive.container = .inFile source

theorem delivered_changesOnly (store : Store) (location : Location) (destination bytes : Bytes)
    (fresh : store.node? location = some (.file {}) ∨ store.node? location = some .fullDevice) :
    Store.ChangesOnly (· = location) store (delivered store location destination bytes).2 := by
  apply Store.fill_changesOnly store location _ fresh
  rw [accepted_length, Store.fitting_fitting]

theorem delivered_node (store : Store) (location : Location) (destination bytes : Bytes)
    (fresh : store.node? location = some (.file {}) ∨ store.node? location = some .fullDevice) :
    (delivered store location destination bytes).2.node? location =
        some (.file (.ofBytes (accepted store location bytes))) ∨
      (delivered store location destination bytes).2.node? location = some .fullDevice ∧
        accepted store location bytes = [] := by
  rcases fresh with empty | device
  · exact Or.inl (Store.node?_fill store location _ empty)
  · have nothing : accepted store location bytes = [] :=
      Store.fits_device device (by rw [accepted_length, Store.fitting_fitting])
    simp only [delivered, nothing, Store.fill, if_true]
    exact Or.inr ⟨device, trivial⟩

theorem delivered_eq_ok (store : Store) (location : Location) (destination bytes : Bytes) :
    (delivered store location destination bytes).1 = .ok () ↔ accepted store location bytes = bytes := by
  have bound := Store.fitting_le (store.roomAt location) 0 bytes.length
  rw [← accepted_length] at bound
  rw [delivered]
  split
  · rename_i short
    simp only [reduceCtorEq, false_iff]
    intro whole
    rw [whole] at short
    exact Nat.lt_irrefl _ short
  · rename_i all
    simp only [true_iff]
    exact (List.take_prefix _ _).eq_of_length_le (Nat.not_lt.mp all)

/-- What has been taken where a path leads: the bytes of a file, or none by a device. -/
def Keeps (store : Store) (path : Bytes) (place : Location) (bytes : Bytes) : Prop :=
  ∃ node, store.find path = .ok (place, node) ∧
    (node = .file (.ofBytes bytes) ∨ node = .fullDevice ∧ bytes = [])

theorem keeps_of_created {may : Location → Prop} {store created after : Store} {path : Bytes}
    {location : Location} {bytes : Bytes} (creating : store.create path = .ok (location, created))
    (changes : Store.ChangesOnly may store after)
    (there : after.node? location = some (.file (.ofBytes bytes)) ∨
      after.node? location = some .fullDevice ∧ bytes = []) :
    Keeps after path location bytes := by
  rcases there with file | ⟨device, nothing⟩
  · have opens := Store.open_created creating changes file (by simp)
    exact ⟨_, (Store.openForReading_eq_ok.mp opens).1, Or.inl rfl⟩
  · have opens := Store.open_created creating changes device (by simp)
    exact ⟨_, (Store.openForReading_eq_ok.mp opens).1, Or.inr ⟨rfl, nothing⟩⟩

/-- A destination that holds the payload of its task, unless a device has taken an empty one. -/
def Holds (container : Bytes) (directory : Directory) (task : Task) (place : Location)
    (store : Store) : Prop :=
  ∃ node, store.find task.destination = .ok (place, node) ∧
    (node = .file (.ofBytes (plaintext container directory task.key task.entry)) ∨
      node = .fullDevice ∧ plaintext container directory task.key task.entry = [])

structure Prepared (task : Task) (store : Store) (log : Log) (location : Location)
    (created noted : Store) (kept : Log) : Prop where
  creating : store.create task.destination = .ok (location, created)
  place : location = store.place task.destination
  changes : Store.ChangesOnly (log.TouchesWith store task.destination) store noted
  reach : ∀ other, kept.Reaches noted other → log.Reaches store other
  untouched : noted.node? location = created.node? location

theorem prepared_of_create (task : Task) (store created : Store) (log : Log) (location : Location)
    (quiet : ¬ log.Reaches store (store.place task.destination))
    (creating : store.create task.destination = .ok (location, created)) :
    Prepared task store log location created (log.detail created task.description).1
      (log.detail created task.description).2 := by
  obtain ⟨place, making⟩ := Store.create_changesOnly _ _ _ _ creating
  obtain ⟨noting, reach⟩ := Log.detail_spec log created task.description
  refine ⟨creating, place, ?_, ?_, ?_⟩
  · refine (making.mono fun _ here => Or.inl here).trans (noting.mono ?_)
    intro other reached
    exact Or.inr ((Log.reaches_congr making log other).mp reached)
  · intro other reached
    rw [Log.reaches_congr noting] at reached
    exact (Log.reaches_congr making log other).mp (reach other reached)
  · apply noting.outside
    rw [Log.reaches_congr making, place]
    exact quiet

theorem Prepared.fresh {task : Task} {store : Store} {log : Log} {location : Location}
    {created noted : Store} {kept : Log}
    (prepared : Prepared task store log location created noted kept) :
    noted.node? location = some (.file {}) ∨ noted.node? location = some .fullDevice := by
  rw [prepared.untouched]
  exact Store.create_fresh _ _ _ _ prepared.creating

theorem extraction_of_refused (container : Bytes) (directory : Directory) (task : Task)
    (store : Store) (log : Log) (fault : Fault)
    (creating : store.create task.destination = .error fault) :
    extraction container directory task store log =
      (.error (.during (.create task.destination) (.store fault)), store, log) := by
  simp only [extraction, creating]

theorem extraction_of_create (container : Bytes) (directory : Directory) (task : Task)
    (store created : Store) (log : Log) (location : Location)
    (creating : store.create task.destination = .ok (location, created)) :
    extraction container directory task store log =
      (do
          (delivered (log.detail created task.description).1 location task.destination
            (plaintext container directory task.key task.entry)).1.mapError
              (.during (.extract task.entry.name))
          closed task location (delivered (log.detail created task.description).1 location
            task.destination (plaintext container directory task.key task.entry)).2,
        (delivered (log.detail created task.description).1 location task.destination
          (plaintext container directory task.key task.entry)).2,
        (log.detail created task.description).2) := by
  simp only [extraction, creating]

/-- Extracting a member touches its destination and what the log reaches. If it succeeds, the
destination holds the decoded payload; only a device takes an empty payload without holding it. -/
theorem extraction_spec (container : Bytes) (directory : Directory) (task : Task)
    (store after : Store) (log later : Log) (outcome : Except Failure Unit)
    (quiet : ¬ log.Reaches store (store.place task.destination))
    (ran : extraction container directory task store log = (outcome, after, later)) :
    Store.ChangesOnly (log.TouchesWith store task.destination) store after ∧
      (∀ location, later.Reaches after location → log.Reaches store location) ∧
      (outcome = .ok () →
        Holds container directory task (store.place task.destination) after) := by
  cases creating : store.create task.destination with
  | error fault =>
      rw [extraction_of_refused _ _ _ _ _ _ creating] at ran
      cases ran
      exact ⟨Store.ChangesOnly.refl _ _, fun _ reached => reached, nofun⟩
  | ok target =>
      obtain ⟨location, created⟩ := target
      have prepared := prepared_of_create task store created log location quiet creating
      have filling := delivered_changesOnly _ location task.destination
        (plaintext container directory task.key task.entry) prepared.fresh
      have all := prepared.changes.trans (filling.mono fun _ here => Or.inl (here.trans prepared.place))
      rw [extraction_of_create _ _ _ _ _ _ _ creating] at ran
      cases ran
      refine ⟨all, ?_, ?_⟩
      · intro other reached
        rw [Log.reaches_congr filling] at reached
        exact prepared.reach other reached
      · intro fine
        obtain ⟨_, moved, _⟩ := Result.bind_eq_ok fine
        have whole := (delivered_eq_ok _ _ _ _).mp (Result.mapError_eq_ok.mp moved)
        have there := delivered_node _ location task.destination
          (plaintext container directory task.key task.entry) prepared.fresh
        rw [whole] at there
        rw [← prepared.place]
        exact keeps_of_created creating all there

/-- Extracting one member does what `extraction` says, and tells the tracker its name and then counts. -/
theorem extractTask_run (archive : Archive) (container : Bytes) (task : Task) (rest : List Task)
    (buffer : Int) (before : Workspace) (positive : 0 < buffer)
    (poised : Poised archive container (task :: rest) before) :
    ∃ counts, (archive.extractTask buffer task).runOn before =
      ((extraction container archive.directory task before.store before.log).1,
        { store := (extraction container archive.directory task before.store before.log).2.1
          log := (extraction container archive.directory task before.store before.log).2.2
          tracker := before.tracker.map fun tracker =>
            (tracker.entry task.entry.name).addAll counts }) := by
  rw [extractTask]
  rw [Action.bind_of_ok (Action.track _) _ before _ () rfl]
  cases creating : before.store.create task.destination with
  | error fault =>
      rw [extraction_of_refused _ _ _ _ _ _ creating]
      refine ⟨[], Action.bind_of_error _ _ _ _ _ ?_⟩
      simp [Action.runOn, Action.during, Action.alter, Workspace.track, creating, Tracker.addAll]
  | ok target =>
      obtain ⟨location, created⟩ := target
      have prepared := prepared_of_create task before.store created before.log location
        (poised.quiet task (by simp)) creating
      have made : (Action.during (.create task.destination)
          (Action.alter (·.create task.destination))).runOn
            (before.track fun tracker => tracker.entry task.entry.name) =
          (.ok location, { before with
            store := created, tracker := before.tracker.map (·.entry task.entry.name) }) := by
        simp [Action.runOn, Action.during, Action.alter, Workspace.track, creating]
      -- Neither the new file nor the log line touches the archive.
      have supplies := poised.supplies.again prepared.changes (by
        rintro source reads (here | reached)
        · exact poised.apart task (by simp) (here ▸ reads)
        · exact poised.unread source reads reached)
      obtain ⟨counts, run⟩ := transferTo_run archive container task location buffer
        { store := (before.log.detail created task.description).1
          log := (before.log.detail created task.description).2
          tracker := before.tracker.map (·.entry task.entry.name) }
        positive supplies (poised.inRange task (by simp))
        (by rw [prepared.place]; exact poised.apart task (by simp)) prepared.fresh
      refine ⟨counts, ?_⟩
      rw [Action.bind_of_ok _ _ _ _ _ made, Action.bind_of_ok _ _ _ _ _ (Action.detail_run _ _),
        extraction_of_create _ _ _ _ _ _ _ creating]
      have moving := Action.during_run (.extract task.entry.name)
        (archive.transferTo task location buffer)
        { store := (before.log.detail created task.description).1
          log := (before.log.detail created task.description).2
          tracker := before.tracker.map (·.entry task.entry.name) }
      rw [run] at moving
      cases outcome : (delivered (before.log.detail created task.description).1 location
          task.destination (plaintext container archive.directory task.key task.entry)).1 with
      | error failure =>
          rw [outcome, Result.mapError_error] at moving
          rw [Action.bind_of_error _ _ _ _ _ moving]
          simp [Option.map_map, Function.comp_def, bind, Except.bind]
      | ok _ =>
          rw [outcome, Result.mapError_ok] at moving
          rw [Action.bind_of_ok _ _ _ _ _ moving]
          simp [Action.runOn, Action.during, Action.ask, closed, Option.map_map, Function.comp_def, bind,
            Except.bind]

theorem Poised.after_extraction (archive : Archive) (container : Bytes) (task : Task)
    (rest : List Task) (before after : Workspace) (outcome : Except Failure Unit)
    (poised : Poised archive container (task :: rest) before)
    (ran : extraction container archive.directory task before.store before.log =
      (outcome, after.store, after.log)) : Poised archive container rest after := by
  obtain ⟨changes, reach, _⟩ := extraction_spec container archive.directory task before.store
    after.store before.log after.log outcome (poised.quiet task (by simp)) ran
  refine ⟨?_, ?_, ?_, ?_, ?_⟩
  · apply poised.supplies.again changes
    rintro source reads (here | reached)
    · exact poised.apart task (by simp) (here ▸ reads)
    · exact poised.unread source reads reached
  · intro other inside
    exact poised.inRange other (List.mem_cons_of_mem _ inside)
  · intro other inside
    rw [changes.place_eq]
    exact poised.apart other (List.mem_cons_of_mem _ inside)
  · intro source reads reached
    exact poised.unread source reads (reach source reached)
  · intro other inside
    exact Log.quiet_again changes reach _ (poised.quiet other (List.mem_cons_of_mem _ inside))

theorem extractTasks_run (archive : Archive) (container : Bytes) (tasks : List Task)
    (buffer : Int) (before : Workspace) (positive : 0 < buffer)
    (poised : Poised archive container tasks before) :
    ∃ history, (archive.extractTasks buffer tasks).runOn before =
        ((extractions container archive.directory tasks before.store before.log).1,
          { store := (extractions container archive.directory tasks before.store before.log).2.1
            log := (extractions container archive.directory tasks before.store before.log).2.2
            tracker := before.tracker.map (·.tellAll history) }) ∧
      ((extractions container archive.directory tasks before.store before.log).1 = .ok () →
        history.map Prod.fst = tasks.map (·.entry.name)) := by
  induction tasks generalizing before with
  | nil =>
      refine ⟨[], ?_, fun _ => rfl⟩
      have run : (archive.extractTasks buffer []).runOn before = (.ok (), before) := rfl
      rw [run]
      simp [extractions, Tracker.tellAll]
  | cons task tasks ih =>
      obtain ⟨counts, run⟩ := extractTask_run archive container task tasks buffer before positive poised
      cases ran : extraction container archive.directory task before.store before.log with
      | mk outcome left =>
          obtain ⟨store, log⟩ := left
          rw [ran] at run
          rw [extractTasks, extractions, ran]
          cases outcome with
          | error failure =>
              refine ⟨[(task.entry.name, counts)], ?_, nofun⟩
              rw [Action.bind_of_error _ _ _ _ _ run]
              rfl
          | ok done =>
              obtain ⟨history, rest, told⟩ := ih { store, log, tracker := before.tracker.map fun tracker =>
                (tracker.entry task.entry.name).addAll counts }
                (Poised.after_extraction archive container task tasks before _ _ poised ran)
              refine ⟨(task.entry.name, counts) :: history, ?_, ?_⟩
              · rw [Action.bind_of_ok _ _ _ _ _ run, rest]
                simp [Option.map_map, Function.comp_def, Tracker.tellAll]
              · intro fine
                rw [List.map_cons, List.map_cons, told fine]

theorem Holds.again {container : Bytes} {directory : Directory} {task : Task} {place : Location}
    {may : Location → Prop} {before after : Store}
    (holds : Holds container directory task place before)
    (changes : Store.ChangesOnly may before after) (outside : ¬ may place) :
    Holds container directory task place after := by
  obtain ⟨node, found, shape⟩ := holds
  have present := (Store.find_eq_ok _ _ _ _ found).2.2.2
  refine ⟨node, Store.find_again changes _ _ _ found ?_, shape⟩
  rw [changes.outside place outside, present]

def Touched (tasks : List Task) (store : Store) (log : Log) (location : Location) : Prop :=
  (∃ task ∈ tasks, location = store.place task.destination) ∨ log.Reaches store location

/-- Extracting members touches their destinations only. If all goes well, each destination holds the
payload of the last member that went there. -/
theorem extractions_spec (container : Bytes) (directory : Directory) (tasks : List Task)
    (store after : Store) (log later : Log) (outcome : Except Failure Unit)
    (quiet : ∀ task ∈ tasks, ¬ log.Reaches store (store.place task.destination))
    (ran : extractions container directory tasks store log = (outcome, after, later)) :
    Store.ChangesOnly (Touched tasks store log) store after ∧
      (outcome = .ok () → ∀ front task back, tasks = front ++ task :: back →
        (∀ other ∈ back, store.place other.destination ≠ store.place task.destination) →
        Holds container directory task (store.place task.destination) after) := by
  induction tasks generalizing store log with
  | nil =>
      cases ran
      refine ⟨Store.ChangesOnly.refl _ _, ?_⟩
      intro _ front task back shape
      simp at shape
  | cons first tasks ih =>
      rw [extractions] at ran
      cases step : extraction container directory first store log with
      | mk result left =>
          obtain ⟨middle, kept⟩ := left
          obtain ⟨changes, reach, holds⟩ := extraction_spec container directory first store middle log
            kept result (quiet first (by simp)) step
          have soFar : Store.ChangesOnly (Touched (first :: tasks) store log) store middle := by
            refine changes.mono ?_
            rintro location (here | reached)
            · exact Or.inl ⟨first, by simp, here⟩
            · exact Or.inr reached
          rw [step] at ran
          cases result with
          | error failure =>
              cases ran
              exact ⟨soFar, nofun⟩
          | ok done =>
              have quietLater : ∀ task ∈ tasks,
                  ¬ kept.Reaches middle (middle.place task.destination) := by
                intro task inside
                exact Log.quiet_again changes reach _ (quiet task (List.mem_cons_of_mem _ inside))
              obtain ⟨rest, last⟩ := ih middle kept quietLater ran
              have restTouched : ∀ location, Touched tasks middle kept location →
                  Touched tasks store log location := by
                rintro location (⟨task, inside, here⟩ | reached)
                · exact Or.inl ⟨task, inside, by rw [here, changes.place_eq]⟩
                · exact Or.inr (reach _ reached)
              refine ⟨soFar.trans ((rest.mono restTouched).mono ?_), ?_⟩
              · rintro location (⟨task, inside, here⟩ | reached)
                · exact Or.inl ⟨task, List.mem_cons_of_mem _ inside, here⟩
                · exact Or.inr reached
              · intro fine front task back shape unmatched
                cases front with
                | nil =>
                    -- The first member: no later one goes to its destination.
                    obtain ⟨rfl, rfl⟩ := List.cons.inj shape
                    refine (holds rfl).again (rest.mono restTouched) ?_
                    rintro (⟨other, inside, here⟩ | reached)
                    · exact unmatched other inside here.symm
                    · exact quiet first (by simp) reached
                | cons earlier front =>
                    obtain ⟨rfl, rfl⟩ := List.cons.inj shape
                    have found := last fine front task back rfl (by
                      intro other inside
                      rw [changes.place_eq, changes.place_eq]
                      exact unmatched other inside)
                    rwa [changes.place_eq] at found

theorem extraction_of_fillable (container : Bytes) (directory : Directory) (task : Task)
    (store : Store) (log : Log) (quiet : ¬ log.Reaches store (store.place task.destination))
    (fillable : store.Fillable task.destination) :
    ∃ after later, extraction container directory task store log = (.ok (), after, later) ∧
      after.node? (store.place task.destination) =
        some (.file (.ofBytes (plaintext container directory task.key task.entry))) := by
  have creating := Store.create_of_fillable store task.destination fillable
  have prepared := prepared_of_create task store _ log _ quiet creating
  obtain ⟨node, target, _, plain⟩ := fillable
  obtain ⟨_, below⟩ := Store.place_of_fileTarget _ _ _ _ target
  have empty := prepared.untouched
  rw [Store.node?_put _ _ _ _ below, if_pos rfl] at empty
  have filling := delivered_changesOnly _ (store.place task.destination) task.destination
    (plaintext container directory task.key task.entry) (Or.inl empty)
  rw [← prepared.changes.terms] at plain
  -- There is room for any number of bytes, and nothing to report when the file is closed.
  have all : accepted (log.detail (store.put (store.place task.destination) (.file {}))
      task.description).1 (store.place task.destination)
        (plaintext container directory task.key task.entry) =
      plaintext container directory task.key task.entry := by
    simp only [accepted, Store.roomAt, empty, plain, Store.fitting, List.take_length]
  have present := delivered_node _ (store.place task.destination) task.destination
    (plaintext container directory task.key task.entry) (Or.inl empty)
  rw [extraction_of_create _ _ _ _ _ _ _ creating, (delivered_eq_ok _ _ _ _).mpr all]
  refine ⟨_, _, Prod.ext ?_ rfl, ?_⟩
  · simp only [Result.mapError_ok, bind, Except.bind, closed, Store.close, filling.terms, plain]
  · rw [all] at present
    simp only [delivered, all, Store.node?_fill _ _ _ empty]

theorem fillable_after {task : Task} {store after : Store} {log : Log} {contents : Contents}
    (changes : Store.ChangesOnly (log.TouchesWith store task.destination) store after)
    (filled : after.node? (store.place task.destination) = some (.file contents)) (path : Bytes)
    (fillable : store.Fillable path) (quiet : ¬ log.Reaches store (store.place path)) :
    after.Fillable path := by
  by_cases same : store.place path = store.place task.destination
  · apply fillable.again changes
    · rw [same, filled]
      exact nofun
    · rw [same, filled]
      exact nofun
  · have untouched := changes.outside (store.place path) (by
      rintro (here | reached)
      · exact same here
      · exact quiet reached)
    have ⟨node, target, file, _⟩ := fillable
    obtain ⟨_, _, _, _, _, _, present, free⟩ := Store.fileTarget_eq_ok _ _ _ _ target
    apply fillable.again changes
    · rwa [untouched, present]
    · rwa [untouched, present]

theorem extractions_of_fillable (container : Bytes) (directory : Directory) (tasks : List Task)
    (store : Store) (log : Log)
    (quiet : ∀ task ∈ tasks, ¬ log.Reaches store (store.place task.destination))
    (fillable : ∀ task ∈ tasks, store.Fillable task.destination) :
    ∃ after later, extractions container directory tasks store log = (.ok (), after, later) ∧
      ∀ path, store.Fillable path → ¬ log.Reaches store (store.place path) → after.Fillable path := by
  induction tasks generalizing store log with
  | nil => exact ⟨store, log, rfl, fun _ same _ => same⟩
  | cons first tasks ih =>
      obtain ⟨middle, kept, step, filled⟩ := extraction_of_fillable container directory first store log
        (quiet first (by simp)) (fillable first (by simp))
      obtain ⟨changes, reach, _⟩ := extraction_spec container directory first store middle log kept _
        (quiet first (by simp)) step
      obtain ⟨after, later, rest, still⟩ := ih middle kept
        (fun task inside => Log.quiet_again changes reach _ (quiet task (List.mem_cons_of_mem _ inside)))
        (fun task inside => fillable_after changes filled _ (fillable task (List.mem_cons_of_mem _ inside))
          (quiet task (List.mem_cons_of_mem _ inside)))
      refine ⟨after, later, by simp only [extractions, step, rest], ?_⟩
      intro path before unreached
      exact still path (fillable_after changes filled path before unreached)
        (Log.quiet_again changes reach path unreached)

theorem Holds.node? {container : Bytes} {directory : Directory} {task : Task} {place : Location}
    {store : Store} (holds : Holds container directory task place store)
    (fillable : store.Fillable task.destination) :
    store.node? place =
      some (.file (.ofBytes (plaintext container directory task.key task.entry))) := by
  obtain ⟨node, found, shape⟩ := holds
  obtain ⟨_, _, rfl, present⟩ := Store.find_eq_ok _ _ _ _ found
  obtain ⟨there, target, file, _⟩ := fillable
  obtain ⟨_, _, _, _, _, _, same, _⟩ := Store.fileTarget_eq_ok _ _ _ _ target
  rcases shape with whole | ⟨device, _⟩
  · rw [present, whole]
  · rw [← same, present, device] at file
    exact absurd rfl file

end IgaArchive.Archive

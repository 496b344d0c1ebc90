import IgaArchive.Proofs.Archive.Decoding
import IgaArchive.Proofs.Store.Agreement

/-!
Two extractions side by side. They start from files that agree outside some locations and keep logs that
may differ. As long as no destination passes these locations, and the logs get at nothing else but
directories, both extract the same members and end in the same way.
-/

namespace IgaArchive.Log

/-- A log that gets at nothing but some locations and directories that are there already. -/
def Settled (aside : Location → Prop) (store : Store) (log : Log) : Prop :=
  ∀ location, log.Reaches store location → aside location ∨ store.node? location = some .directory

variable {aside : Location → Prop} {store : Store} {log : Log}

theorem Settled.again {may : Location → Prop} {after : Store} {later : Log}
    (settled : Settled aside store log) (changes : Store.ChangesOnly may store after)
    (reach : ∀ location, later.Reaches after location → log.Reaches store location) :
    Settled aside after later := by
  intro location reached
  rcases settled location (reach location reached) with inside | present
  · exact Or.inl inside
  · exact Or.inr (changes.directories location present)

theorem Settled.kept {may : Location → Prop} {after : Store} (settled : Settled aside store log)
    (changes : Store.ChangesOnly may store after) : Settled aside after log :=
  settled.again changes fun location => (reaches_congr changes log location).mp

theorem Settled.detail (settled : Settled aside store log) (message : Bytes) :
    Store.AgreeOutside aside store (log.detail store message).1 ∧
      (log.detail store message).1.workingDirectory = store.workingDirectory ∧
      Settled aside (log.detail store message).1 (log.detail store message).2 := by
  obtain ⟨changes, reach⟩ := detail_spec log store message
  refine ⟨.of_changes changes settled, changes.workingDirectory, settled.again changes ?_⟩
  intro location reached
  exact reach location ((reaches_congr changes _ location).mp reached)

end IgaArchive.Log

namespace IgaArchive.Archive

/-- The files and logs of two runs that go on from `start`. -/
structure Alongside (start : Store) (aside : Location → Prop) (left : Store) (log : Log) (right : Store)
    (other : Log) : Prop where
  home : left.workingDirectory = start.workingDirectory
  agree : Store.AgreeOutside aside left right
  settled : log.Settled aside left
  settledToo : other.Settled aside right

variable {start left right : Store} {aside : Location → Prop} {log other : Log}

theorem Alongside.clear (alongside : Alongside start aside left log right other) {path : Bytes}
    (clear : Store.Clear aside start path) : Store.Clear aside left path := by
  intro location member
  apply clear location
  simpa only [Store.trail, Store.origin, alongside.home] using member

theorem Alongside.detail (alongside : Alongside start aside left log right other)
    (message messageToo : Bytes) :
    Alongside start aside (log.detail left message).1 (log.detail left message).2
      (other.detail right messageToo).1 (other.detail right messageToo).2 := by
  obtain ⟨agree, home, settled⟩ := alongside.settled.detail message
  obtain ⟨agreeToo, _, settledToo⟩ := alongside.settledToo.detail messageToo
  exact ⟨home.trans alongside.home, (agree.symm.trans alongside.agree).trans agreeToo, settled, settledToo⟩

theorem Alongside.changed {may might : Location → Prop} {next nextToo : Store}
    (alongside : Alongside start aside left log right other)
    (changes : Store.ChangesOnly may left next) (changesToo : Store.ChangesOnly might right nextToo)
    (agree : Store.AgreeOutside aside next nextToo) : Alongside start aside next log nextToo other :=
  ⟨changes.workingDirectory.trans alongside.home, agree, alongside.settled.kept changes,
    alongside.settledToo.kept changesToo⟩

theorem delivered_alongside (alongside : Alongside start aside left log right other)
    (location : Location) (destination bytes : Bytes) (away : ¬ aside location)
    (fresh : left.node? location = some (.file {}) ∨ left.node? location = some .fullDevice) :
    (delivered right location destination bytes).1 = (delivered left location destination bytes).1 ∧
      Alongside start aside (delivered left location destination bytes).2 log
        (delivered right location destination bytes).2 other := by
  have same := alongside.agree.outside location away
  have changes := delivered_changesOnly left location destination bytes fresh
  have changesToo := delivered_changesOnly right location destination bytes (by rw [same]; exact fresh)
  have below : location ≠ [] := by
    intro root
    rw [root] at fresh
    exact fresh.elim nofun nofun
  have taken : accepted right location bytes = accepted left location bytes := by
    simp only [accepted, Store.roomAt, same, alongside.agree.terms]
  simp only [delivered, taken] at changes changesToo ⊢
  refine ⟨trivial, alongside.changed changes changesToo ?_⟩
  rw [Store.fill, Store.fill]
  split
  · exact alongside.agree
  · exact alongside.agree.put _ _ below

theorem extraction_alongside (container : Bytes) (directory : Directory) (task : Task)
    (alongside : Alongside start aside left log right other)
    (clear : Store.Clear aside start task.destination) :
    (extraction container directory task right other).1 =
        (extraction container directory task left log).1 ∧
      Alongside start aside (extraction container directory task left log).2.1
        (extraction container directory task left log).2.2
        (extraction container directory task right other).2.1
        (extraction container directory task right other).2.2 := by
  have way := alongside.clear clear
  rcases alongside.agree.create way with ⟨fault, failed, failedToo⟩ |
    ⟨location, made, madeToo, creating, creatingToo, agreed⟩
  · rw [extraction_of_refused _ _ _ _ _ _ failed, extraction_of_refused _ _ _ _ _ _ failedToo]
    exact ⟨rfl, alongside⟩
  · obtain ⟨place, changes⟩ := Store.create_changesOnly _ _ _ _ creating
    have changesToo := (Store.create_changesOnly _ _ _ _ creatingToo).2
    have noted := (alongside.changed changes changesToo agreed).detail task.description task.description
    have away : ¬ aside location := by
      rw [place]
      exact way.place
    -- The line for the log has left the new file as it is.
    have untouched := ((alongside.changed changes changesToo agreed).settled.detail
      task.description).1.outside location away
    obtain ⟨same, after⟩ := delivered_alongside noted location task.destination
      (plaintext container directory task.key task.entry) away
      (by rw [untouched]; exact Store.create_fresh _ _ _ _ creating)
    rw [extraction_of_create _ _ _ _ _ _ _ creating, extraction_of_create _ _ _ _ _ _ _ creatingToo]
    refine ⟨?_, after⟩
    simp only [same, closed, Store.close, after.agree.terms]

theorem extractions_alongside (container : Bytes) (directory : Directory) (list : List Task)
    (alongside : Alongside start aside left log right other)
    (clear : ∀ task ∈ list, Store.Clear aside start task.destination) :
    (extractions container directory list right other).1 =
        (extractions container directory list left log).1 ∧
      Alongside start aside (extractions container directory list left log).2.1
        (extractions container directory list left log).2.2
        (extractions container directory list right other).2.1
        (extractions container directory list right other).2.2 := by
  induction list generalizing left log right other with
  | nil => exact ⟨rfl, alongside⟩
  | cons task tasks ih =>
      obtain ⟨same, after⟩ :=
        extraction_alongside container directory task alongside (clear task (by simp))
      cases ran : extraction container directory task left log with
      | mk outcome reached =>
          cases ranToo : extraction container directory task right other with
          | mk outcomeToo reachedToo =>
              rw [ran, ranToo] at same after
              simp only at same
              subst same
              simp only [extractions, ran, ranToo]
              cases outcomeToo with
              | error failure => exact ⟨rfl, after⟩
              | ok _ => exact ih after fun other inside => clear other (List.mem_cons_of_mem _ inside)

def Beside (start : Store) (aside : Location → Prop) (left right : Workspace) : Prop :=
  Alongside start aside left.store left.log right.store right.log

theorem makeOutput_beside (options : ExtractOptions) {left right : Workspace}
    (beside : Beside start aside left right)
    (clear : options.makeDirectory = true → Store.Clear aside start options.outputDirectory) :
    ((makeOutput options).runOn right).1 = ((makeOutput options).runOn left).1 ∧
      Beside start aside ((makeOutput options).runOn left).2 ((makeOutput options).runOn right).2 := by
  rw [makeOutput]
  split
  · rename_i asked
    simp only [Bool.and_eq_true] at asked
    obtain ⟨same, agree⟩ := beside.agree.mkdirAll (beside.clear (clear asked.1))
    have makes := Store.mkdirAll_onlyMakes left.store options.outputDirectory
    have makesToo := Store.mkdirAll_onlyMakes right.store options.outputDirectory
    rw [Action.during_run, Action.during_run, Action.mkdirAll_run, Action.mkdirAll_run, same]
    exact ⟨rfl, beside.changed makes.changesOnly makesToo.changesOnly agree⟩
  · exact ⟨rfl, beside⟩

theorem performing_beside (options : ExtractOptions) (archive archiveToo : Archive) (container : Bytes)
    (list : List Task) (size : UInt64) (buffer : Int) {left right : Workspace} (positive : 0 < buffer)
    (same : archiveToo.directory = archive.directory) (beside : Beside start aside left right)
    (poised : Poised archive container list left) (poisedToo : Poised archiveToo container list right)
    (output : options.makeDirectory = true → Store.Clear aside start options.outputDirectory)
    (clear : ∀ task ∈ list, Store.Clear aside start task.destination) :
    let run (archive : Archive) (before : Workspace) :=
      (makeOutput options >>= fun _ =>
        Action.tracked size (archive.extractTasks buffer list)).runOn before
    (run archiveToo right).1 = (run archive left).1 ∧
      Beside start aside (run archive left).2 (run archiveToo right).2 := by
  obtain ⟨sameMade, after⟩ := makeOutput_beside options beside output
  dsimp only
  cases made : (makeOutput options).runOn left with
  | mk outcome between =>
      cases madeToo : (makeOutput options).runOn right with
      | mk outcomeToo betweenToo =>
          obtain ⟨makes, sameLog⟩ := makeOutput_spec options left between outcome made
          obtain ⟨makesToo, sameLogToo⟩ := makeOutput_spec options right betweenToo outcomeToo madeToo
          rw [made, madeToo] at sameMade after
          simp only at sameMade
          subst sameMade
          cases outcomeToo with
          | error failure =>
              rw [Action.bind_of_error _ _ _ _ _ made, Action.bind_of_error _ _ _ _ _ madeToo]
              exact ⟨rfl, after⟩
          | ok _ =>
              obtain ⟨_, run, _⟩ := extractTasks_run archive container list buffer
                (between.track fun tracker => tracker.init size) positive
                ((poised.onlyMakes makes sameLog).track _)
              obtain ⟨_, runToo, _⟩ := extractTasks_run archiveToo container list buffer
                (betweenToo.track fun tracker => tracker.init size) positive
                ((poisedToo.onlyMakes makesToo sameLogToo).track _)
              rw [Action.bind_of_ok _ _ _ _ _ made, Action.bind_of_ok _ _ _ _ _ madeToo,
                Action.tracked_run, Action.tracked_run, run, runToo, same]
              exact extractions_alongside container archive.directory list after clear

end IgaArchive.Archive

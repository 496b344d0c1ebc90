import IgaArchive.Proofs.Archive.Rejection

/-!
An extraction that stops on the way. Members are extracted one after another, so a failure at one of
them leaves those before it whole, those behind it untouched, and of itself at most a front part. The
archive has been checked by then, so its payloads are there to be read: only a destination can fail.
-/

namespace IgaArchive.Tracker

/-- A tracker that reports no progress, and the text it has printed. -/
structure Shows (tracker : Tracker) (text : Bytes) : Prop where
  disabled : tracker.enabled = false
  printed : tracker.printed = text

namespace Shows

variable {tracker : Tracker} {text : Bytes}

theorem entry (showing : tracker.Shows text) (name : Bytes) :
    (tracker.entry name).Shows (text ++ (name ++ [Bytes.newline])) := by
  constructor
  · exact showing.disabled
  · rw [Tracker.entry, print, showing.printed]

theorem add (showing : tracker.Shows text) (count : UInt64) : (tracker.add count).Shows text := by
  rw [Tracker.add]
  split
  · exact showing
  · simp only [showing.disabled, Bool.false_eq_true, if_false]
    exact ⟨rfl, showing.printed⟩

theorem addAll (showing : tracker.Shows text) (counts : List UInt64) :
    (tracker.addAll counts).Shows text := by
  induction counts generalizing tracker with
  | nil => exact showing
  | cons count counts ih => exact ih (showing.add count)

theorem tellAll (showing : tracker.Shows text) (history : List (Bytes × List UInt64)) :
    (tracker.tellAll history).Shows
      (text ++ history.flatMap fun (name, _) => name ++ [Bytes.newline]) := by
  induction history generalizing tracker text with
  | nil =>
      rw [List.flatMap_nil, List.append_nil]
      exact showing
  | cons told history ih =>
      obtain ⟨name, counts⟩ := told
      rw [List.flatMap_cons, ← List.append_assoc]
      exact ih ((showing.entry name).addAll counts)

theorem stop (showing : tracker.Shows text) : tracker.stop.Shows text := by
  rw [Tracker.stop, showing.disabled]
  exact showing

end Shows

end IgaArchive.Tracker

namespace IgaArchive.Store

theorem create_again {may : Location → Prop} {before created after : Store} {path : Bytes}
    {location : Location} (creating : before.create path = .ok (location, created))
    (changes : ChangesOnly may before after) (bytes : after.HasBytes location) :
    ∃ target, after.create path = .ok target := by
  obtain ⟨_, target, readable, writable, _⟩ := create_eq_ok _ _ _ _ creating
  obtain ⟨node, present, file⟩ := bytes
  have again := fileTarget_again changes path location _ target (by
    rw [present]
    exact fun same => file (Option.some.inj same))
  rw [create_of_fileTarget again, changes.terms, readable, writable, Bool.and_self, if_pos rfl]
  split
  · exact ⟨_, rfl⟩
  · exact ⟨_, rfl⟩

theorem create_eq_error (store : Store) (path : Bytes) (fault : Fault)
    (refused : store.create path = .error fault) : ∃ errno, fault = ⟨"open", path, errno⟩ := by
  rw [create, faulting, Result.mapError_eq_error] at refused
  obtain ⟨errno, same, _⟩ := refused
  exact ⟨errno, same⟩

end IgaArchive.Store

namespace IgaArchive.Archive

theorem extractTasks_eq_error (archive : Archive) (buffer : Int) (list : List Task)
    (before after : Workspace) (failure : Failure)
    (failed : (archive.extractTasks buffer list).runOn before = (.error failure, after)) :
    ∃ front task back between, list = front ++ task :: back ∧
      (archive.extractTasks buffer front).runOn before = (.ok (), between) ∧
      (archive.extractTask buffer task).runOn between = (.error failure, after) := by
  induction list generalizing before with
  | nil => cases failed
  | cons first rest ih =>
      rw [extractTasks] at failed
      rcases Action.bind_cases failed with ⟨_, same, stopped⟩ | ⟨_, middle, step, continued⟩
      · cases same
        exact ⟨[], first, rest, before, rfl, rfl, stopped⟩
      · obtain ⟨front, task, back, between, rfl, done, stopped⟩ := ih middle continued
        refine ⟨first :: front, task, back, between, rfl, ?_, stopped⟩
        rw [extractTasks, Action.bind_of_ok _ _ _ _ _ step]
        exact done

theorem Poised.mono {archive : Archive} {container : Bytes} {list fewer : List Task}
    {workspace : Workspace} (poised : Poised archive container list workspace)
    (among : ∀ task ∈ fewer, task ∈ list) : Poised archive container fewer workspace := by
  constructor
  · exact poised.supplies
  · exact fun task member => poised.inRange task (among task member)
  · exact fun task member => poised.apart task (among task member)
  · exact poised.unread
  · exact fun task member => poised.quiet task (among task member)

theorem extractions_reach (container : Bytes) (directory : Directory) (list : List Task)
    (store after : Store) (log later : Log) (outcome : Except Failure Unit)
    (quiet : ∀ task ∈ list, ¬ log.Reaches store (store.place task.destination))
    (ran : extractions container directory list store log = (outcome, after, later))
    (location : Location) (reached : later.Reaches after location) : log.Reaches store location := by
  induction list generalizing store log with
  | nil =>
      cases ran
      exact reached
  | cons first list ih =>
      rw [extractions] at ran
      cases step : extraction container directory first store log with
      | mk result left =>
          obtain ⟨middle, kept⟩ := left
          obtain ⟨changes, reach, _⟩ := extraction_spec container directory first store middle log kept
            result (quiet first (by simp)) step
          rw [step] at ran
          cases result with
          | error failure =>
              cases ran
              exact reach location reached
          | ok done =>
              apply reach location
              refine ih middle kept ?_ ran
              intro task inside
              exact Log.quiet_again changes reach _ (quiet task (List.mem_cons_of_mem _ inside))

theorem Poised.after_extractions {archive : Archive} {container : Bytes} {front rest : List Task}
    {before after : Workspace} {outcome : Except Failure Unit}
    (poised : Poised archive container (front ++ rest) before)
    (ran : extractions container archive.directory front before.store before.log =
      (outcome, after.store, after.log)) : Poised archive container rest after := by
  have frontQuiet : ∀ task ∈ front,
      ¬ before.log.Reaches before.store (before.store.place task.destination) :=
    fun task member => poised.quiet task (List.mem_append_left _ member)
  have changes := (extractions_spec _ _ front before.store after.store _ _ _ frontQuiet ran).1
  have reach := extractions_reach _ _ front before.store after.store _ _ _ frontQuiet ran
  constructor
  · apply poised.supplies.again changes
    rintro source reads (⟨task, member, here⟩ | reached)
    · exact poised.apart task (List.mem_append_left _ member) (here ▸ reads)
    · exact poised.unread source reads reached
  · intro task member
    exact poised.inRange task (List.mem_append_right _ member)
  · intro task member
    rw [changes.place_eq]
    exact poised.apart task (List.mem_append_right _ member)
  · intro source reads reached
    exact poised.unread source reads (reach source reached)
  · intro task member
    exact Log.quiet_again changes reach _ (poised.quiet task (List.mem_append_right _ member))

/-- A run over `list` that has finished the tasks of `front` and fails at `task`, with the workspace
`between` these. -/
structure Halt (container : Bytes) (directory : Directory) (list front : List Task) (task : Task)
    (back : List Task) (before between after : Workspace) (failure : Failure) : Prop where
  shape : list = front ++ task :: back
  quiet : ∀ task ∈ list, ¬ before.log.Reaches before.store (before.store.place task.destination)
  done : extractions container directory front before.store before.log =
    (.ok (), between.store, between.log)
  stopped : extraction container directory task between.store between.log =
    (.error failure, after.store, after.log)
  told : ∃ history, after.tracker = before.tracker.map (·.tellAll history) ∧
    history.map Prod.fst = (front ++ [task]).map (·.entry.name)

theorem extractTasks_halt (archive : Archive) (container : Bytes) (list : List Task) (buffer : Int)
    (before after : Workspace) (failure : Failure) (positive : 0 < buffer)
    (poised : Poised archive container list before)
    (failed : (archive.extractTasks buffer list).runOn before = (.error failure, after)) :
    ∃ front task back between,
      Halt container archive.directory list front task back before between after failure := by
  obtain ⟨front, task, back, between, rfl, done, stopped⟩ :=
    extractTasks_eq_error archive buffer list before after failure failed
  obtain ⟨history, run, told⟩ := extractTasks_run archive container front buffer before positive
    (poised.mono fun task member => List.mem_append_left _ member)
  rw [run] at done
  obtain ⟨fine, left⟩ := Prod.mk.inj done
  have ran : extractions container archive.directory front before.store before.log =
      (.ok (), between.store, between.log) := by
    rw [← left]
    exact Prod.ext fine rfl
  obtain ⟨counts, last⟩ := extractTask_run archive container task back buffer between positive
    (poised.after_extractions ran)
  rw [last] at stopped
  obtain ⟨error, ended⟩ := Prod.mk.inj stopped
  refine ⟨front, task, back, between, rfl, poised.quiet, ran, ?_,
    history ++ [(task.entry.name, counts)], ?_, ?_⟩
  · rw [← ended]
    exact Prod.ext error rfl
  · rw [← ended, ← left]
    simp [Tracker.tellAll, Option.map_map, Function.comp_def]
  · rw [List.map_append, List.map_append, told fine]
    rfl

theorem delivered_hasBytes (store : Store) (location other : Location) (destination bytes : Bytes)
    (target : store.HasBytes location) (before : store.HasBytes other) :
    (delivered store location destination bytes).2.HasBytes other := by
  have below : location ≠ [] := by
    rintro rfl
    obtain ⟨node, present, file⟩ := target
    exact file (Option.some.inj present).symm
  simp only [delivered, Store.fill]
  split
  · exact before
  · exact Store.put_hasBytes store location other _ below before

theorem extraction_hasBytes (container : Bytes) (directory : Directory) (task : Task)
    (store after : Store) (log later : Log) (outcome : Except Failure Unit)
    (ran : extraction container directory task store log = (outcome, after, later)) :
    (∀ location, store.HasBytes location → after.HasBytes location) ∧
      ∀ location created, store.create task.destination = .ok (location, created) →
        after.HasBytes location := by
  cases creating : store.create task.destination with
  | error fault =>
      rw [extraction_of_refused _ _ _ _ _ _ creating] at ran
      cases ran
      exact ⟨fun _ before => before, by simp⟩
  | ok target =>
      obtain ⟨place, created⟩ := target
      rw [extraction_of_create _ _ _ _ _ _ _ creating] at ran
      cases ran
      have made : created.HasBytes place := by
        rcases Store.create_fresh _ _ _ _ creating with empty | device
        · exact ⟨_, empty, by simp⟩
        · exact ⟨_, device, by simp⟩
      have noted : ∀ other, created.HasBytes other →
          (log.detail created task.description).1.HasBytes other :=
        fun other present => Log.detail_hasBytes log created task.description other present
      constructor
      · intro other before
        apply delivered_hasBytes _ _ _ _ _ (noted place made)
        exact noted other (Store.create_hasBytes store created _ place other creating before)
      · rintro _ _ ⟨⟩
        exact delivered_hasBytes _ _ _ _ _ (noted place made) (noted place made)

theorem extractions_hasBytes (container : Bytes) (directory : Directory) (list : List Task)
    (store after : Store) (log later : Log) (outcome : Except Failure Unit)
    (ran : extractions container directory list store log = (outcome, after, later))
    (location : Location) (before : store.HasBytes location) : after.HasBytes location := by
  induction list generalizing store log with
  | nil =>
      cases ran
      exact before
  | cons first list ih =>
      rw [extractions] at ran
      cases step : extraction container directory first store log with
      | mk result left =>
          obtain ⟨middle, kept⟩ := left
          have still := (extraction_hasBytes _ _ _ _ _ _ _ _ step).1 location before
          rw [step] at ran
          cases result with
          | error failure =>
              cases ran
              exact still
          | ok done => exact ih middle kept ran still

theorem extractions_create_again (container : Bytes) (directory : Directory) (list : List Task)
    (store after : Store) (log later : Log)
    (quiet : ∀ task ∈ list, ¬ log.Reaches store (store.place task.destination))
    (ran : extractions container directory list store log = (.ok (), after, later)) (task : Task)
    (member : task ∈ list) : ∃ target, after.create task.destination = .ok target := by
  induction list generalizing store log with
  | nil => cases member
  | cons first list ih =>
      have changes := (extractions_spec container directory (first :: list) store after log later _
        quiet ran).1
      rw [extractions] at ran
      cases step : extraction container directory first store log with
      | mk result left =>
          obtain ⟨middle, kept⟩ := left
          rw [step] at ran
          cases result with
          | error failure => cases ran
          | ok done =>
              rcases List.mem_cons.mp member with rfl | later
              · cases creating : store.create task.destination with
                | error fault =>
                    simp only [extraction, creating] at step
                    cases step
                | ok target =>
                    obtain ⟨location, created⟩ := target
                    have filled := (extraction_hasBytes _ _ _ _ _ _ _ _ step).2 location created creating
                    have still := extractions_hasBytes _ _ _ _ _ _ _ _ ran location filled
                    exact Store.create_again creating changes still
              · obtain ⟨stepChanges, reach, _⟩ := extraction_spec _ _ first store middle log kept _
                  (quiet first (by simp)) step
                refine ih middle kept ?_ ran later
                intro other inside
                exact Log.quiet_again stepChanges reach _ (quiet other (List.mem_cons_of_mem _ inside))

/-- How extracting a member can fail: its destination is not made and nothing is touched, or the
destination takes a front part of the payload only, or it has taken all and is not closed. -/
theorem extraction_eq_error (container : Bytes) (directory : Directory) (task : Task)
    (store after : Store) (log later : Log) (failure : Failure)
    (quiet : ¬ log.Reaches store (store.place task.destination))
    (failed : extraction container directory task store log = (.error failure, after, later)) :
    (∃ errno, failure = .during (.create task.destination) (.store ⟨"open", task.destination, errno⟩) ∧
      after = store ∧ ∀ target, store.create task.destination ≠ .ok target) ∨
    ∃ taken, Keeps after task.destination (store.place task.destination) taken ∧
      (failure = .during (.extract task.entry.name)
          (.during .writePayload (.store ⟨"write", task.destination, .noSpace⟩)) ∧
          taken <+: plaintext container directory task.key task.entry ∧
          taken.length < (plaintext container directory task.key task.entry).length ∨
        (∃ errno, failure = .during (.close task.destination)
          (.store ⟨"close", task.destination, errno⟩)) ∧
          taken = plaintext container directory task.key task.entry) := by
  cases creating : store.create task.destination with
  | error fault =>
      obtain ⟨errno, rfl⟩ := Store.create_eq_error _ _ _ creating
      rw [extraction_of_refused _ _ _ _ _ _ creating] at failed
      cases failed
      exact Or.inl ⟨errno, rfl, rfl, by simp⟩
  | ok target =>
      obtain ⟨location, created⟩ := target
      have prepared := prepared_of_create task store created log location quiet creating
      have changes := (extraction_spec _ _ _ _ _ _ _ _ quiet failed).1
      rw [extraction_of_create _ _ _ _ _ _ _ creating] at failed
      obtain ⟨stopped, ended⟩ := Prod.mk.inj failed
      obtain ⟨ended, _⟩ := Prod.mk.inj ended
      have there := delivered_node _ location task.destination
        (plaintext container directory task.key task.entry) prepared.fresh
      rw [ended] at there
      refine Or.inr ⟨accepted (log.detail created task.description).1 location
        (plaintext container directory task.key task.entry), ?_, ?_⟩
      · rw [← prepared.place]
        exact keeps_of_created creating changes there
      · rcases Result.bind_eq_error stopped with refused | ⟨_, moved, unclosed⟩
        · rw [delivered] at refused
          split at refused
          · rename_i short
            cases refused
            exact Or.inl ⟨rfl, List.take_prefix _ _, short⟩
          · cases refused
        · have whole := (delivered_eq_ok _ _ _ _).mp (Result.mapError_eq_ok.mp moved)
          refine Or.inr ⟨?_, whole⟩
          rw [closed, Store.close] at unclosed
          split at unclosed
          · cases unclosed
          · cases unclosed
            exact ⟨_, rfl⟩

/-- Why an extraction stops at a task: its destination cannot be made and is as it was, or writing the
payload to it fails, at once, so that it keeps a front part only, or as is told when it is closed. -/
inductive Obstacle (container : Bytes) (directory : Directory) (policy : KeyPolicy) (task : Task)
    (started after : Store) : Failure → Prop where
  | unmade (errno : Errno) (unchanged : after.node? (started.place task.destination) =
      started.node? (started.place task.destination)) :
      Obstacle container directory policy task started after
        (.during (.create task.destination) (.store ⟨"open", task.destination, errno⟩))
  | unfilled (errno : Errno) (payload taken : Bytes)
      (decodes : Decodes container directory policy task.entry payload) (front : taken <+: payload)
      (short : taken.length < payload.length)
      (keeps : Keeps after task.destination (started.place task.destination) taken) :
      Obstacle container directory policy task started after
        (.during (.extract task.entry.name)
          (.during .writePayload (.store ⟨"write", task.destination, errno⟩)))
  | unclosed (errno : Errno) (payload : Bytes)
      (decodes : Decodes container directory policy task.entry payload)
      (keeps : Keeps after task.destination (started.place task.destination) payload) :
      Obstacle container directory policy task started after
        (.during (.close task.destination) (.store ⟨"close", task.destination, errno⟩))

/-- How an extraction that `started` in one workspace and stopped at `task` leaves things: the tasks of
`front` are done, and those of `back` have not begun. -/
structure StoppedAt (container : Bytes) (directory : Directory) (policy : KeyPolicy)
    (front : List Task) (task : Task) (back : List Task) (started after : Workspace)
    (failure : Failure) : Prop where
  /-- Every earlier payload is whole unless a later task went to the same destination. -/
  whole : ∀ early done late, front = early ++ done :: late →
    (∀ other ∈ late ++ [task], other.destination ≠ done.destination) →
    ∃ payload, Decodes container directory policy done.entry payload ∧
      Keeps after.store done.destination (started.store.place done.destination) payload
  obstacle : Obstacle container directory policy task started.store after.store failure
  untouched : ∀ other ∈ back, (∀ earlier ∈ front ++ [task], earlier.destination ≠ other.destination) →
    after.store.node? (started.store.place other.destination) =
      started.store.node? (started.store.place other.destination)
  /-- A tracker that reports no progress has printed the names of the tasks that were begun. -/
  printed : ∀ tracker, started.tracker = some tracker → tracker.enabled = false →
    ∃ shown, after.tracker = some shown ∧ shown.printed = tracker.printed ++
      (front ++ [task]).flatMap fun begun => begun.entry.name ++ [Bytes.newline]

theorem Holds.keeps {container : Bytes} {directory : Directory} {outputDirectory : Bytes}
    {policy : KeyPolicy} {list : List Task} {task : Task} {place : Location} {store : Store}
    (holds : Holds container directory task place store) (within : Within directory container.length)
    (listed : tasks directory outputDirectory policy = .ok list) (member : task ∈ list) :
    ∃ payload, Decodes container directory policy task.entry payload ∧
      Keeps store task.destination place payload := by
  obtain ⟨_, rfl⟩ := (tasks_eq_ok _ _ _ _).mp listed
  obtain ⟨entry, inside, rfl⟩ := List.mem_map.mp member
  exact ⟨_, plaintext_decodes container directory policy entry within inside, holds⟩

theorem place_ne_of_listed {directory : Directory} {outputDirectory : Bytes} {policy : KeyPolicy}
    {list : List Task} (listed : tasks directory outputDirectory policy = .ok list) (store : Store)
    {first second : Task} (firstIn : first ∈ list) (secondIn : second ∈ list)
    (different : first.destination ≠ second.destination) :
    store.place first.destination ≠ store.place second.destination :=
  fun same => different
    (destination_eq_of_place_eq _ _ _ list listed store first second firstIn secondIn same)

section Halt

variable {container : Bytes} {directory : Directory} {list front : List Task} {task : Task}
variable {back : List Task} {before between after : Workspace} {failure : Failure}
variable (halt : Halt container directory list front task back before between after failure)
include halt

theorem Halt.quiet_front (done : Task) (member : done ∈ front) :
    ¬ before.log.Reaches before.store (before.store.place done.destination) :=
  halt.quiet done (halt.shape ▸ List.mem_append_left _ member)

theorem Halt.front_changes :
    Store.ChangesOnly (Touched front before.store before.log) before.store between.store :=
  (extractions_spec _ _ front before.store between.store _ _ _ halt.quiet_front halt.done).1

theorem Halt.front_reach (location : Location) (reached : between.log.Reaches between.store location) :
    before.log.Reaches before.store location :=
  extractions_reach _ _ front before.store between.store _ _ _ halt.quiet_front halt.done location reached

theorem Halt.quiet_task :
    ¬ between.log.Reaches between.store (between.store.place task.destination) := by
  apply Log.quiet_again halt.front_changes halt.front_reach
  exact halt.quiet task (by simp [halt.shape])

theorem Halt.task_changes :
    Store.ChangesOnly (before.log.TouchesWith before.store task.destination) between.store
      after.store := by
  have changes := (extraction_spec _ _ task between.store after.store _ _ _ halt.quiet_task
    halt.stopped).1
  refine changes.mono ?_
  rintro location (here | reached)
  · exact Or.inl (here.trans (halt.front_changes.place_eq _))
  · exact Or.inr (halt.front_reach location reached)

theorem Halt.changes :
    Store.ChangesOnly (Touched (front ++ [task]) before.store before.log) before.store
      after.store := by
  apply Store.ChangesOnly.trans
  · refine halt.front_changes.mono ?_
    rintro location (⟨done, member, here⟩ | reached)
    · exact Or.inl ⟨done, List.mem_append_left _ member, here⟩
    · exact Or.inr reached
  · refine halt.task_changes.mono ?_
    rintro location (here | reached)
    · exact Or.inl ⟨task, by simp, here⟩
    · exact Or.inr reached

theorem Halt.printed (tracker : Tracker) (tracked : before.tracker = some tracker)
    (disabled : tracker.enabled = false) :
    ∃ shown, after.tracker = some shown ∧ shown.Shows (tracker.printed ++
      (front ++ [task]).flatMap fun begun => begun.entry.name ++ [Bytes.newline]) := by
  obtain ⟨history, told, names⟩ := halt.told
  have showing := Tracker.Shows.tellAll ⟨disabled, rfl⟩ history
  have lines : (history.flatMap fun (name, _) => name ++ [Bytes.newline]) =
      (front ++ [task]).flatMap fun begun => begun.entry.name ++ [Bytes.newline] :=
    calc
      _ = (history.map Prod.fst).flatMap (· ++ [Bytes.newline]) := (List.flatMap_map ..).symm
      _ = ((front ++ [task]).map (·.entry.name)).flatMap (· ++ [Bytes.newline]) := by rw [names]
      _ = _ := List.flatMap_map ..
  rw [lines] at showing
  exact ⟨tracker.tellAll history, by rw [told, tracked, Option.map_some], showing⟩

variable {outputDirectory : Bytes} {policy : KeyPolicy}
variable (listed : tasks directory outputDirectory policy = .ok list)
include listed

theorem Halt.untouched (other : Task) (member : other ∈ list)
    (apart : ∀ earlier ∈ front ++ [task], earlier.destination ≠ other.destination) :
    after.store.node? (before.store.place other.destination) =
      before.store.node? (before.store.place other.destination) := by
  apply halt.changes.outside
  rintro (⟨earlier, begun, here⟩ | reached)
  · have among : earlier ∈ list := by
      rw [halt.shape, List.append_cons]
      exact List.mem_append_left _ begun
    exact place_ne_of_listed listed _ among member (apart earlier begun) here.symm
  · exact halt.quiet other member reached

theorem Halt.whole (within : Within directory container.length) (early : List Task) (done : Task)
    (late : List Task) (split : front = early ++ done :: late)
    (last : ∀ other ∈ late ++ [task], other.destination ≠ done.destination) :
    ∃ payload, Decodes container directory policy done.entry payload ∧
      Keeps after.store done.destination (before.store.place done.destination) payload := by
  have among : ∀ other ∈ done :: late ++ [task], other ∈ list := by
    intro other member
    rw [halt.shape, split, List.append_cons _ task]
    apply List.mem_append_left
    rw [List.append_assoc]
    exact List.mem_append_right _ member
  have isDone := among done (by simp)
  have holds := (extractions_spec _ _ front before.store between.store _ _ _ halt.quiet_front
    halt.done).2 rfl early done late split (by
      intro other member
      apply place_ne_of_listed listed _ (among other (by simp [member])) isDone
      exact last other (List.mem_append_left _ member))
  -- The task that fails leaves it alone.
  have still := holds.again halt.task_changes (by
    rintro (here | reached)
    · exact place_ne_of_listed listed _ isDone (among task (by simp)) (last task (by simp)).symm here
    · exact halt.quiet done isDone reached)
  exact still.keeps within listed isDone

theorem Halt.obstacle (within : Within directory container.length) :
    Obstacle container directory policy task before.store after.store failure := by
  have isTask : task ∈ list := by simp [halt.shape]
  rcases extraction_eq_error _ _ task between.store after.store _ _ failure halt.quiet_task
    halt.stopped with ⟨errno, rfl, same, uncreated⟩ | ⟨taken, keeps, cause⟩
  · apply Obstacle.unmade
    -- Whatever was filled before could be made again, so no earlier task went there.
    have first : ∀ done ∈ front, done.destination ≠ task.destination := by
      intro done member meets
      obtain ⟨target, creating⟩ := extractions_create_again _ _ front before.store between.store _ _
        halt.quiet_front halt.done done member
      rw [meets] at creating
      exact uncreated target creating
    rw [same]
    apply halt.front_changes.outside
    rintro (⟨done, member, here⟩ | reached)
    · have isDone : done ∈ list := halt.shape ▸ List.mem_append_left _ member
      exact place_ne_of_listed listed _ isDone isTask (first done member) here.symm
    · exact halt.quiet task isTask reached
  · obtain ⟨_, rfl⟩ := (tasks_eq_ok _ _ _ _).mp listed
    obtain ⟨entry, inside, rfl⟩ := List.mem_map.mp isTask
    have decodes := plaintext_decodes container directory policy entry within inside
    rw [halt.front_changes.place_eq] at keeps
    rcases cause with ⟨rfl, front, short⟩ | ⟨⟨errno, rfl⟩, whole⟩
    · exact Obstacle.unfilled _ _ taken decodes front short keeps
    · exact Obstacle.unclosed errno _ decodes (whole ▸ keeps)

end Halt

theorem makeOutput_tracker (options : ExtractOptions) (before after : Workspace)
    (outcome : Except Failure Unit) (made : (makeOutput options).runOn before = (outcome, after)) :
    after.tracker = before.tracker := by
  rw [makeOutput] at made
  split at made
  · rw [Action.during_run, Action.mkdirAll_run] at made
    cases made
    rfl
  · cases made
    rfl

/-- A workspace in which nothing was done but write detail lines and make the output directory. -/
structure Readied (options : ExtractOptions) (before started : Workspace) : Prop where
  tracker : started.tracker = before.tracker
  nodes : ∀ location, ¬ before.log.Reaches before.store location →
    started.store.node? location = before.store.node? location ∨
      options.Makes before.store location ∧ before.store.node? location = none ∧
        started.store.node? location = some .directory

theorem OpenedFrom.readied {path : Bytes} {options : ExtractOptions}
    {before opened started : Workspace} {archive : Archive} {location : Location} {contents : Contents}
    {container : Bytes} {outcome : Except Failure Unit}
    (open_ : OpenedFrom path options.lz4 before opened archive location contents container)
    (made : (makeOutput options).runOn opened = (outcome, started)) :
    Readied options before started := by
  obtain ⟨makes, _⟩ := makeOutput_spec options opened started outcome made
  constructor
  · exact (makeOutput_tracker options opened started outcome made).trans open_.tracker
  · intro other unreached
    rw [← open_.changes.outside other unreached]
    rcases makes.nodes other with same | ⟨absent, present, wanted, passed⟩
    · exact Or.inl same
    · rw [open_.changes.trail_eq] at passed
      exact Or.inr ⟨⟨wanted, passed⟩, absent, present⟩

def threeMembers : Bytes :=
  containerOf [⟨utf8 "a", [1, 2]⟩, ⟨utf8 "b", [3, 4, 5]⟩, ⟨utf8 "c", [6]⟩]

def threeMembersDirectory : Directory where
  header := .standard
  entries := [⟨0, utf8 "a", 0, 2⟩, ⟨1, utf8 "b", 2, 3⟩, ⟨2, utf8 "c", 5, 1⟩]
  dataStart := 30

/-- A store with an archive of three members and room for two bytes where the second one goes. -/
def secondOutOfRoom : Workspace where
  store := (Store.initial.put [utf8 "work", utf8 "in.iga"] (.file (.ofBytes threeMembers))).setTerms
    [utf8 "work", utf8 "b"] { room := some 2 }
  tracker := some { enabled := false, clock := .still 0 }

def noRoom : Failure :=
  .during (.extract (utf8 "b")) (.during .writePayload (.store ⟨"write", utf8 "b", .noSpace⟩))

end IgaArchive.Archive

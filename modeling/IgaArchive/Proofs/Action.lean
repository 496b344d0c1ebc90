import IgaArchive.Proofs.Log
import IgaArchive.Workspace

/-!
Running actions. A successful run comes apart into the successful runs of its steps, and two runs that
start from the same files and the same log agree as long as each of their steps agrees, whatever
trackers they report to. An action whose steps are questions, checks and lines for the log does nothing
but write those lines.
-/

namespace IgaArchive.Payload

theorem checkBuffer_eq_ok {size : Int} : checkBuffer size = .ok () ↔ ValidBuffer size := by
  rw [checkBuffer]
  split <;> simp_all

end IgaArchive.Payload

namespace IgaArchive.Action

variable {α β : Type}

theorem bind_of_ok (action : Action α) (next : α → Action β) (before between : Workspace) (middle : α)
    (ran : action.runOn before = (.ok middle, between)) :
    (action >>= next).runOn before = (next middle).runOn between := by
  simp only [runOn, bind, ExceptT.bind, ExceptT.mk, StateT.bind] at *
  rw [ran]
  rfl

theorem bind_of_error (action : Action α) (next : α → Action β) (before between : Workspace)
    (failure : Failure) (ran : action.runOn before = (.error failure, between)) :
    (action >>= next).runOn before = (.error failure, between) := by
  simp only [runOn, bind, ExceptT.bind, ExceptT.mk, StateT.bind] at *
  rw [ran]
  rfl

theorem bind_cases {action : Action α} {next : α → Action β} {before after : Workspace}
    {result : Except Failure β} (ran : (action >>= next).runOn before = (result, after)) :
    (∃ failure, result = .error failure ∧ action.runOn before = (.error failure, after)) ∨
      ∃ middle between, action.runOn before = (.ok middle, between) ∧
        (next middle).runOn between = (result, after) := by
  cases first : action.runOn before with
  | mk outcome between =>
      cases outcome with
      | error failure =>
          rw [bind_of_error action next before between failure first] at ran
          cases ran
          exact Or.inl ⟨failure, rfl, rfl⟩
      | ok middle =>
          rw [bind_of_ok action next before between middle first] at ran
          exact Or.inr ⟨middle, between, rfl, ran⟩

theorem bind_eq_ok {action : Action α} {next : α → Action β} {before after : Workspace} {value : β}
    (finished : (action >>= next).runOn before = (.ok value, after)) :
    ∃ middle between, action.runOn before = (.ok middle, between) ∧
      (next middle).runOn between = (.ok value, after) := by
  rcases bind_cases finished with ⟨_, failed, _⟩ | rest
  · cases failed
  · exact rest

theorem pure_eq_ok {value result : α} {before after : Workspace} :
    (pure value : Action α).runOn before = (.ok result, after) ↔ value = result ∧ before = after := by
  have run : (pure value : Action α).runOn before = (.ok value, before) := rfl
  simp [run]

theorem ofExcept_run (result : Except Failure α) (before : Workspace) :
    (ofExcept result).runOn before = (result, before) := rfl

theorem ofExcept_eq_ok {result : Except Failure α} {before after : Workspace} {value : α} :
    (ofExcept result).runOn before = (.ok value, after) ↔ result = .ok value ∧ before = after := by
  simp [runOn, ofExcept]

theorem checkBuffer_run {size : Int} (valid : Payload.ValidBuffer size) (before : Workspace) :
    (ofExcept (Payload.checkBuffer size)).runOn before = (.ok (), before) :=
  ofExcept_eq_ok.mpr ⟨Payload.checkBuffer_eq_ok.mpr valid, rfl⟩

theorem checkBuffer_refuses {size : Int} (invalid : ¬ Payload.ValidBuffer size) (before : Workspace) :
    (ofExcept (Payload.checkBuffer size)).runOn before = (.error (.bufferSize size), before) := by
  rw [Payload.checkBuffer, if_neg invalid]
  rfl

theorem ofExcept_eq_error {result : Except Failure α} {before after : Workspace} {failure : Failure} :
    (ofExcept result).runOn before = (.error failure, after) ↔
      result = .error failure ∧ before = after := by
  simp [runOn, ofExcept]

theorem during_run (step : Step) (action : Action α) (before : Workspace) :
    (during step action).runOn before =
      ((action.runOn before).1.mapError (.during step), (action.runOn before).2) := rfl

theorem during_eq_ok {step : Step} {action : Action α} {before after : Workspace} {value : α} :
    (during step action).runOn before = (.ok value, after) ↔
      action.runOn before = (.ok value, after) := by
  rw [during_run, Prod.ext_iff, Prod.ext_iff, Result.mapError_eq_ok]

theorem during_eq_error {step : Step} {action : Action α} {before after : Workspace}
    {failure : Failure} :
    (during step action).runOn before = (.error failure, after) ↔
      ∃ cause, failure = .during step cause ∧ action.runOn before = (.error cause, after) := by
  rw [during_run, Prod.ext_iff, Result.mapError_eq_error]
  simp only [Prod.ext_iff]
  constructor
  · rintro ⟨⟨cause, same, failed⟩, rfl⟩
    exact ⟨cause, same, failed, rfl⟩
  · rintro ⟨cause, same, failed, rfl⟩
    exact ⟨⟨cause, same, failed⟩, rfl⟩

theorem ask_eq_ok {question : Store → Except Fault α} {before after : Workspace} {value : α} :
    (ask question).runOn before = (.ok value, after) ↔
      question before.store = .ok value ∧ before = after := by
  simp [runOn, ask, Result.mapError_eq_ok]

theorem ask_eq_error {question : Store → Except Fault α} {before after : Workspace}
    {failure : Failure} :
    (ask question).runOn before = (.error failure, after) ↔
      ∃ fault, failure = .store fault ∧ question before.store = .error fault ∧ before = after := by
  simp only [runOn, ask, Prod.mk.injEq, Result.mapError_eq_error]
  constructor
  · rintro ⟨⟨fault, same, failed⟩, rfl⟩
    exact ⟨fault, same, failed, rfl⟩
  · rintro ⟨fault, same, failed, rfl⟩
    exact ⟨⟨fault, same, failed⟩, rfl⟩

theorem ask_run (question : Store → Except Fault α) (before : Workspace) :
    (∃ value, (ask question).runOn before = (.ok value, before)) ∨
      ∃ fault, (ask question).runOn before = (.error (.store fault), before) := by
  cases asked : question before.store with
  | ok value => exact Or.inl ⟨value, ask_eq_ok.mpr ⟨asked, rfl⟩⟩
  | error fault => exact Or.inr ⟨fault, ask_eq_error.mpr ⟨fault, rfl, asked, rfl⟩⟩

theorem openForReading_run (step : Step) (path : Bytes) (before : Workspace) (location : Location)
    (node : Store.Node) (opened : before.store.openForReading path = .ok (location, node)) :
    (during step (ask (·.openForReading path))).runOn before = (.ok (location, node), before) := by
  apply during_eq_ok.mpr
  exact ask_eq_ok.mpr ⟨opened, rfl⟩

theorem alter_eq_ok {change : Store → Except Fault (α × Store)} {before after : Workspace} {value : α} :
    (alter change).runOn before = (.ok value, after) ↔
      ∃ store, change before.store = .ok (value, store) ∧ { before with store } = after := by
  rw [runOn, alter]
  cases changed : change before.store with
  | error fault => simp
  | ok outcome =>
      obtain ⟨result, store⟩ := outcome
      constructor
      · intro finished
        cases finished
        exact ⟨store, rfl, rfl⟩
      · rintro ⟨_, same, rfl⟩
        cases same
        rfl

theorem alter_of_error (change : Store → Except Fault (α × Store)) (before : Workspace) (fault : Fault)
    (failed : change before.store = .error fault) :
    (alter change).runOn before = (.error (.store fault), before) := by
  rw [runOn, alter, failed]

theorem alter_eq_error {change : Store → Except Fault (α × Store)} {before after : Workspace}
    {failure : Failure} (failed : (alter change).runOn before = (.error failure, after)) :
    ∃ fault, failure = .store fault ∧ before = after := by
  rw [runOn, alter] at failed
  cases changed : change before.store with
  | error fault =>
      rw [changed] at failed
      cases failed
      exact ⟨fault, rfl, rfl⟩
  | ok outcome =>
      rw [changed] at failed
      cases failed

theorem mkdirAll_run (path : Bytes) (before : Workspace) :
    (mkdirAll path).runOn before =
      (match (before.store.mkdirAll path).2 with
        | none => .ok ()
        | some fault => .error (.store fault),
        { before with store := (before.store.mkdirAll path).1 }) := by
  rw [runOn, mkdirAll]
  split <;> rename_i made <;> rw [made]

theorem detail_run (message : Bytes) (before : Workspace) :
    (detail message).runOn before =
      (.ok (), { before with store := (before.log.detail before.store message).1
                             log := (before.log.detail before.store message).2 }) := rfl

theorem detail_eq_ok {message : Bytes} {before after : Workspace}
    (noted : (detail message).runOn before = (.ok (), after)) :
    after.tracker = before.tracker ∧
      Store.ChangesOnly (before.log.Reaches before.store) before.store after.store ∧
      ∀ location, after.log.Reaches after.store location →
        before.log.Reaches before.store location := by
  obtain ⟨changes, reached⟩ := Log.detail_spec before.log before.store message
  rw [detail_run] at noted
  cases noted
  refine ⟨rfl, changes, ?_⟩
  intro location reaches
  exact reached location ((Log.reaches_congr changes _ location).mp reaches)

theorem tracked_run (size : UInt64) (action : Action α) (before : Workspace) :
    (tracked size action).runOn before =
      ((action.runOn (before.track fun tracker => tracker.init size)).1,
        (action.runOn (before.track fun tracker => tracker.init size)).2.track Tracker.stop) := rfl

theorem tracked_eq_ok {size : UInt64} {action : Action α} {before after : Workspace} {value : α}
    (finished : (tracked size action).runOn before = (.ok value, after)) :
    ∃ ended, action.runOn (before.track fun tracker => tracker.init size) = (.ok value, ended) ∧
      ended.track Tracker.stop = after := by
  simp only [runOn, tracked] at *
  cases ran : action (before.track fun tracker => tracker.init size) with
  | mk result ended =>
      rw [ran] at finished
      cases finished
      exact ⟨ended, rfl, rfl⟩

theorem exists_ok {run : Except Failure α × Workspace} (fine : run.1.toOption.isSome = true) :
    ∃ value after, run = (.ok value, after) := by
  obtain ⟨result, after⟩ := run
  cases result with
  | error failure => cases fine
  | ok value => exact ⟨value, after, rfl⟩

theorem exists_error {run : Except Failure α × Workspace} (failed : run.1.toOption.isSome = false) :
    ∃ failure after, run = (.error failure, after) := by
  obtain ⟨result, after⟩ := run
  cases result with
  | error failure => exact ⟨failure, after, rfl⟩
  | ok value => cases failed

theorem exists_of_error? {run : Except Failure α × Workspace} {failure : Failure}
    (failed : Result.error? run.1 = some failure) : ∃ after, run = (.error failure, after) :=
  ⟨run.2, Prod.ext (Result.eq_error_of_error? failed) rfl⟩

/-- Two runs with the same result that leave the same files and the same log. -/
structure Agree (left right : Except Failure α × Workspace) : Prop where
  result : left.1 = right.1
  store : left.2.store = right.2.store
  log : left.2.log = right.2.log

def Alike (left right : Workspace) : Prop :=
  left.store = right.store ∧ left.log = right.log

theorem Alike.track {left right : Workspace} (alike : Alike left right)
    (first second : Tracker → Tracker) : Alike (left.track first) (right.track second) :=
  alike

namespace Agree

theorem bind {first second : Action α} {left right : α → Action β} {before other : Workspace}
    (start : Agree (first.runOn before) (second.runOn other))
    (rest : ∀ value between others, first.runOn before = (.ok value, between) →
      Alike between others → Agree ((left value).runOn between) ((right value).runOn others)) :
    Agree ((first >>= left).runOn before) ((second >>= right).runOn other) := by
  obtain ⟨result, store, log⟩ := start
  cases ran : first.runOn before with
  | mk outcome between =>
      cases ranOther : second.runOn other with
      | mk same others =>
          rw [ran, ranOther] at result store log
          simp only at result
          subst result
          cases outcome with
          | error failure =>
              rw [bind_of_error _ _ _ _ _ ran, bind_of_error _ _ _ _ _ ranOther]
              exact ⟨rfl, store, log⟩
          | ok value =>
              rw [bind_of_ok _ _ _ _ _ ran, bind_of_ok _ _ _ _ _ ranOther]
              exact rest value between others ran ⟨store, log⟩

theorem ofExcept {left right : Workspace} (alike : Alike left right) (result : Except Failure α) :
    Agree ((Action.ofExcept result).runOn left) ((Action.ofExcept result).runOn right) :=
  ⟨rfl, alike.1, alike.2⟩

theorem during (step : Step) {left right : Action α} {before other : Workspace}
    (same : Agree (left.runOn before) (right.runOn other)) :
    Agree ((Action.during step left).runOn before) ((Action.during step right).runOn other) :=
  ⟨congrArg (Except.mapError (Failure.during step)) same.result, same.store, same.log⟩

theorem ask {left right : Workspace} (alike : Alike left right) (question : Store → Except Fault α) :
    Agree ((Action.ask question).runOn left) ((Action.ask question).runOn right) := by
  refine ⟨?_, alike.1, alike.2⟩
  simp only [runOn, Action.ask, alike.1]

theorem mkdirAll {left right : Workspace} (alike : Alike left right) (path : Bytes) :
    Agree ((Action.mkdirAll path).runOn left) ((Action.mkdirAll path).runOn right) := by
  rw [mkdirAll_run, mkdirAll_run, alike.1]
  exact ⟨rfl, rfl, alike.2⟩

theorem detail {left right : Workspace} (alike : Alike left right) (message : Bytes) :
    Agree ((Action.detail message).runOn left) ((Action.detail message).runOn right) := by
  simp only [runOn, Action.detail, alike.1, alike.2]
  exact ⟨rfl, rfl, rfl⟩

theorem tracked (size : UInt64) {left right : Action α} {before other : Workspace}
    (same : Agree (left.runOn (before.track fun tracker => tracker.init size))
      (right.runOn (other.track fun tracker => tracker.init size))) :
    Agree ((Action.tracked size left).runOn before) ((Action.tracked size right).runOn other) :=
  ⟨same.result, same.store, same.log⟩

end Agree

end IgaArchive.Action

namespace IgaArchive.Workspace

def detailed (workspace : Workspace) (messages : List Bytes) : Workspace :=
  messages.foldl (fun workspace message => ((Action.detail message).runOn workspace).2) workspace

theorem detailed_append (workspace : Workspace) (first second : List Bytes) :
    workspace.detailed (first ++ second) = (workspace.detailed first).detailed second :=
  List.foldl_append

theorem detailed_cons (workspace : Workspace) (message : Bytes) (messages : List Bytes) :
    workspace.detailed (message :: messages) =
      ((Action.detail message).runOn workspace).2.detailed messages := rfl

/-- Detail lines change only what the log may touch, and they never reach the tracker. -/
theorem detailed_spec (workspace : Workspace) (messages : List Bytes) :
    (workspace.detailed messages).tracker = workspace.tracker ∧
      Store.ChangesOnly (workspace.log.Reaches workspace.store) workspace.store
        (workspace.detailed messages).store := by
  induction messages generalizing workspace with
  | nil => exact ⟨rfl, Store.ChangesOnly.refl _ _⟩
  | cons message messages ih =>
      obtain ⟨sameTracker, changes, reach⟩ :=
        Action.detail_eq_ok (Action.detail_run message workspace)
      obtain ⟨laterTracker, later⟩ := ih ((Action.detail message).runOn workspace).2
      rw [detailed_cons]
      exact ⟨laterTracker.trans sameTracker, changes.trans (later.mono reach)⟩

theorem detailed_of_quiet (workspace : Workspace) (messages : List Bytes)
    (quiet : workspace.log.verbose = false) : workspace.detailed messages = workspace := by
  induction messages with
  | nil => rfl
  | cons message messages ih =>
      have same : ((Action.detail message).runOn workspace).2 = workspace := by
        simp [Action.detail_run, Log.detail, quiet]
      rw [detailed_cons, same, ih]

theorem detailed_store (workspace : Workspace) (messages : List Bytes)
    (unfiled : workspace.log.file = none) :
    (workspace.detailed messages).store = workspace.store := by
  induction messages generalizing workspace with
  | nil => rfl
  | cons message messages ih =>
      have step : ((Action.detail message).runOn workspace).2.store = workspace.store ∧
          ((Action.detail message).runOn workspace).2.log.file = none := by
        rw [Action.detail_run, Log.detail]
        split
        · simp [Log.note, unfiled]
        · exact ⟨rfl, unfiled⟩
      rw [detailed_cons, ih _ step.2, step.1]

end IgaArchive.Workspace

namespace IgaArchive.Action

variable {α β : Type}

/-- An action that does nothing but write detail lines, whether it succeeds or fails. -/
def OnlyDetails (action : Action α) : Prop :=
  ∀ before, ∃ messages, (action.runOn before).2 = before.detailed messages

namespace OnlyDetails

theorem pure (value : α) : OnlyDetails (Pure.pure value : Action α) :=
  fun _ => ⟨[], rfl⟩

theorem ofExcept (result : Except Failure α) : OnlyDetails (Action.ofExcept result) :=
  fun _ => ⟨[], rfl⟩

theorem ask (question : Store → Except Fault α) : OnlyDetails (Action.ask question) :=
  fun _ => ⟨[], rfl⟩

theorem detail (message : Bytes) : OnlyDetails (Action.detail message) :=
  fun _ => ⟨[message], rfl⟩

theorem during (step : Step) {action : Action α} (only : OnlyDetails action) :
    OnlyDetails (Action.during step action) :=
  only

theorem bind {action : Action α} {next : α → Action β} (first : OnlyDetails action)
    (rest : ∀ value, OnlyDetails (next value)) : OnlyDetails (action >>= next) := by
  intro before
  obtain ⟨messages, noted⟩ := first before
  cases ran : action.runOn before with
  | mk result between =>
      rw [ran] at noted
      simp only at noted
      cases result with
      | error failure => exact ⟨messages, by rw [bind_of_error _ _ _ _ _ ran, noted]⟩
      | ok value =>
          obtain ⟨later, further⟩ := rest value between
          refine ⟨messages ++ later, ?_⟩
          rw [bind_of_ok _ _ _ _ _ ran, further, noted, Workspace.detailed_append]

end OnlyDetails

end IgaArchive.Action

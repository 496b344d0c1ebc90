import IgaArchive.Proofs.Archive.Deposits
import IgaArchive.Proofs.Archive.Rejection
import IgaArchive.Proofs.Cipher

/-!
Forcing the script key. Two extractions of one archive into empty directories, with keys chosen by name
and with the script key forced, end alike and make the same files; scripts come out the same, and all other
files as complements of each other.
-/

namespace IgaArchive.Archive

/-- What opening an archive comes to, told by what its path opens. -/
def appraise (path : Bytes) (wrapped : Bool) (opened : Except Fault Store.Node) :
    Except Failure Directory := do
  let node ← opened.mapError fun fault => .during .openArchive (.store fault)
  let bytes ← bytesOf path (if wrapped then .readFrameMagic else .readSignature) node
  let container ← containerIn wrapped bytes
  verdict container

theorem openAt_appraised (path : Bytes) (wrapped : Bool) (before : Workspace) :
    ((openAt path wrapped).runOn before).1.map Archive.directory =
      appraise path wrapped ((before.store.openForReading path).map Prod.snd) := by
  cases opened : before.store.openForReading path with
  | error fault =>
      have asked : (Action.during .openArchive (Action.ask (·.openForReading path))).runOn before =
          (.error (.during .openArchive (.store fault)), before) :=
        Action.during_eq_error.mpr ⟨_, rfl, Action.ask_eq_error.mpr ⟨fault, rfl, opened, rfl⟩⟩
      rw [openAt, Action.bind_of_error _ _ _ _ _ asked]
      rfl
  | ok target =>
      obtain ⟨location, node⟩ := target
      have asked := Action.openForReading_run .openArchive path before location node opened
      cases taken : bytesOf path (if wrapped then .readFrameMagic else .readSignature) node with
      | error failure =>
          have failing : (Action.ofExcept (bytesOf path
              (if wrapped then .readFrameMagic else .readSignature) node)).runOn before =
              (.error failure, before) := by
            rw [taken]
            rfl
          have ended : ((openAt path wrapped).runOn before).1 = .error failure := by
            rw [openAt, Action.bind_of_ok _ _ _ _ _ asked]
            cases wrapped with
            | false => exact congrArg Prod.fst (Action.bind_of_error _ _ _ _ _ failing)
            | true => exact congrArg Prod.fst (Action.bind_of_error _ _ _ _ _ failing)
          rw [ended]
          simp only [appraise, Except.map, Result.mapError_ok, bind, Except.bind, taken]
      | ok bytes =>
          have whole : before.store.readWhole path = .ok bytes := by
            simp only [Store.readWhole, opened, bind, Except.bind]
            cases node <;> cases taken <;> rfl
          simp only [appraise, Except.map, Result.mapError_ok, bind, Except.bind, taken]
          cases held : containerIn wrapped bytes with
          | error failure => rw [openAt_of_failure path bytes wrapped before failure whole held]
          | ok container =>
              obtain ⟨messages, place, run⟩ := openAt_of_container path bytes container wrapped before
                whole held
              rw [run]
              cases judged : verdict container with
              | error failure => simp only [Except.map, judged]
              | ok directory => simp only [Except.map, judged]

theorem tasks_eq (directory : Directory) (out : Bytes) (policy : KeyPolicy) :
    tasks directory out policy =
      (directory.entries.mapM fun entry => EntryName.check entry.name).map fun _ =>
        directory.entries.map (taskOf directory out policy) := by
  have each : ∀ entries : List Entry, entries.mapM (taskFor directory (baseOf out) policy) =
      (entries.mapM fun entry => EntryName.check entry.name).map fun _ =>
        entries.map (taskOf directory out policy) := by
    intro entries
    induction entries with
    | nil => rfl
    | cons entry entries ih =>
        rw [List.mapM_cons, List.mapM_cons, taskFor_eq, ih]
        cases EntryName.check entry.name with
        | error refusal => rfl
        | ok _ => cases entries.mapM fun entry => EntryName.check entry.name <;> rfl
  exact each directory.entries

theorem vet_appraised (path : Bytes) (options : ExtractOptions) (before : Workspace) :
    ((vet path options).runOn before).1.map (fun vetted => vetted.1.directory) = (do
      Payload.checkBuffer (Payload.chosenBuffer options.buffer)
      let directory ← appraise path options.lz4 ((before.store.openForReading path).map Prod.snd)
      let _ ← (directory.entries.mapM fun entry => EntryName.check entry.name).mapError .entryName
      return directory) := by
  rw [vet, ← openAt_appraised]
  cases checked : Payload.checkBuffer (Payload.chosenBuffer options.buffer) with
  | error failure => rfl
  | ok _ =>
      rw [Action.bind_of_ok _ _ _ _ _ (Action.ofExcept_run _ _)]
      cases opening : (openAt path options.lz4).runOn before with
      | mk result opened =>
          cases result with
          | error failure =>
              rw [Action.bind_of_error _ _ _ _ _ opening]
              rfl
          | ok archive =>
              rw [Action.bind_of_ok _ _ _ _ _ opening, tasks_eq]
              simp only [Except.map, bind, Except.bind]
              cases archive.directory.entries.mapM fun entry => EntryName.check entry.name <;> rfl

/-- How an extraction ended, and which files it left in the directory it went to. -/
structure Leaves (base : Location) (held : List (Entry × Bytes)) (kind : Option Failure.Kind)
    (run : Except Failure Unit × Workspace) : Prop where
  ends : ending run.1 = kind
  nodes : ∀ below ≠ [], run.2.store.node? (base ++ below) =
    (bytesAt held below).map fun bytes => .file (.ofBytes bytes)

section Extract

variable (path : Bytes) (options : ExtractOptions) (base : Location) (before : Workspace)
variable (target : EmptyTarget options.outputDirectory base before)
include target

theorem extract_refused (failure : Failure)
    (refused : ((vet path options).runOn before).1 = .error failure) :
    Leaves base [] (some failure.kind) ((extract path options).runOn before) := by
  obtain ⟨messages, noted⟩ := vet_onlyDetails path options before
  obtain ⟨_, changes⟩ := Workspace.detailed_spec before messages
  rw [extract_eq_vet, Action.bind_of_error _ _ _ _ failure (Prod.ext refused noted)]
  refine ⟨rfl, ?_⟩
  intro below down
  exact (changes.outside _ (target.quiet below down)).trans (target.empty below down)

theorem extract_deposits (archive : Archive) (list : List Task) (opened : Workspace)
    (terms : Location → Store.Terms) (ruled : ∀ below ≠ [], before.store.terms (base ++ below) = terms below)
    (unread : ¬ before.log.Reaches before.store (before.store.place path))
    (vetted : (vet path options).runOn before = (.ok (archive, list), opened)) :
    ∃ contents container,
      before.store.openForReading path = .ok (before.store.place path, .file contents) ∧
      containerIn options.lz4 contents.toBytes = .ok container ∧
      Leaves base
        (deposit container archive.directory (baseOf options.outputDirectory) terms options.policy
          (Payload.chosenBuffer options.buffer).toNat archive.directory.entries []).2
        (deposit container archive.directory (baseOf options.outputDirectory) terms options.policy
          (Payload.chosenBuffer options.buffer).toNat archive.directory.entries []).1
        ((extract path options).runOn before) := by
  obtain ⟨valid, accepted, listed⟩ := vet_eq_ok path options before opened archive list vetted
  obtain ⟨checked, rfl⟩ := (tasks_eq_ok _ _ _ _).mp listed
  obtain ⟨location, contents, container, source⟩ := openAt_opens _ _ _ _ _ accepted
  have place := (Store.find_eq_ok _ _ _ _ source.found).2.2.1
  have present := (Store.find_eq_ok _ _ _ _ source.found).2.2.2
  subst place
  have stays := target.again source.changes target.quiet
    fun below down reached => target.quiet below down (source.reach _ reached)
  have stocked : Stocked archive container options.outputDirectory base terms [] opened := by
    refine ⟨?_, stays.found, stays.empty, stays.quiet, source.supplies unread, ?_, ?_⟩
    · intro below down
      rw [source.changes.terms]
      exact ruled below down
    · -- The archive is a file, and there is none in the directory.
      intro below down reads
      have free := target.empty below down
      rw [source.readsFrom reads, present] at free
      cases free
    · intro place reads reached
      rw [source.readsFrom reads] at reached
      exact unread (source.reach _ reached)
  obtain ⟨result, after, ran, ends, filled⟩ :=
    (stocked.track fun tracker => tracker.init archive.directory.payloadSize).extractTasks_deposit
      options.policy (Payload.chosenBuffer options.buffer) valid.1 archive.directory.entries
      (fun entry member => (EntryName.check_eq_ok _ (checked entry member)).2)
  refine ⟨contents, container, Store.openForReading_eq_ok.mpr ⟨source.found, source.readable⟩,
    source.held, ?_⟩
  rw [extract_eq_vet, Action.bind_of_ok _ _ _ _ _ vetted]
  dsimp only
  rw [Action.bind_of_ok _ _ _ _ _ (makeOutput_present options opened base stays.found),
    Action.tracked_run, ran]
  exact ⟨ends, (filled.track Tracker.stop).nodes⟩

end Extract

/-- A file as it comes out with the script key forced, told by how it comes out otherwise. -/
def disguised (deposit : Entry × Bytes) : Entry × Bytes :=
  (deposit.1, if Payload.isScript deposit.1.name then deposit.2 else deposit.2.map (· ^^^ 0xFF))

theorem plaintext_two_keys (container : Bytes) (directory : Directory) (first second : UInt8)
    (entry : Entry) :
    plaintext container directory second entry =
      (plaintext container directory first entry).map (· ^^^ (first ^^^ second)) := by
  rw [plaintext, plaintext, ← Payload.transform_two_keys first second 0, Payload.transform_transform]

theorem portion_forced (container : Bytes) (directory : Directory) (buffer : Nat) (room : Option Nat)
    (entry : Entry) :
    portion container directory (Payload.key entry.name .forced) buffer room entry =
      (disguised (entry,
        portion container directory (Payload.key entry.name .byName) buffer room entry)).2 := by
  have forced : Payload.key entry.name .forced = Payload.scriptKey := rfl
  cases script : Payload.isScript entry.name with
  | true =>
      have byName : Payload.key entry.name .byName = Payload.scriptKey := by
        simp [Payload.key, script]
      rw [forced, byName, disguised, script]
      rfl
  | false =>
      have byName : Payload.key entry.name .byName = Payload.plainKey := by
        simp [Payload.key, script]
      have difference : Payload.plainKey ^^^ Payload.scriptKey = 0xFF := by decide
      rw [forced, byName, disguised, script, portion, portion,
        plaintext_two_keys container directory Payload.plainKey, difference, ← List.map_take]
      rfl

theorem find?_disguised (held : List (Entry × Bytes)) (below : Location) :
    (held.map disguised).find? (fun deposit => Path.proper deposit.1.name = below) =
      (held.find? fun deposit => Path.proper deposit.1.name = below).map disguised := by
  rw [List.find?_map]
  rfl

theorem bytesAt_disguised (held : List (Entry × Bytes)) (below : Location) :
    (bytesAt (held.map disguised) below).isSome = (bytesAt held below).isSome := by
  simp only [bytesAt, find?_disguised, Option.isSome_map]

/-- The policy changes nothing but the bytes of what is not a script, as long as the same paths are
usable. -/
theorem deposit_forced (container : Bytes) (directory : Directory) (base other : Bytes)
    (terms : Location → Store.Terms) (buffer : Nat) (entries : List Entry) (held : List (Entry × Bytes))
    (alike : ∀ entry ∈ entries, Store.checkPath (Path.join base entry.name) =
      Store.checkPath (Path.join other entry.name)) :
    deposit container directory other terms .forced buffer entries (held.map disguised) =
      ((deposit container directory base terms .byName buffer entries held).1,
        (deposit container directory base terms .byName buffer entries held).2.map disguised) := by
  induction entries generalizing held with
  | nil => rfl
  | cons entry rest ih =>
      have way : Store.hindrance other (fun name => (bytesAt (held.map disguised) [name]).isSome) terms
          entry.name =
            Store.hindrance base (fun name => (bytesAt held [name]).isSome) terms entry.name := by
        simp only [Store.hindrance, bytesAt_disguised, alike entry (by simp)]
      rw [deposit, deposit, way]
      cases Store.hindrance base (fun name => (bytesAt held [name]).isSome) terms entry.name with
      | some errno => rfl
      | none =>
          have next : (entry, portion container directory (Payload.key entry.name .forced) buffer
              (terms (Path.proper entry.name)).room entry) :: held.map disguised =
                ((entry, portion container directory (Payload.key entry.name .byName) buffer
                  (terms (Path.proper entry.name)).room entry) :: held).map disguised := by
            rw [portion_forced]
            rfl
          dsimp only
          rw [next]
          cases setback container directory buffer (terms (Path.proper entry.name)) entry with
          | some kind => rfl
          | none => exact ih _ fun later listed => alike later (List.mem_cons_of_mem _ listed)

/-- The entries of the archive at a path; none if it cannot be opened. -/
def entriesAt (path : Bytes) (wrapped : Bool) (workspace : Workspace) : List Entry :=
  match ((openAt path wrapped).runOn workspace).1 with
  | .ok archive => archive.directory.entries
  | .error _ => []

/-- The files that two extractions left at one place within their directories, where `written` are the
entries for which files were made: none, or that of the last such entry in its two forms. -/
def Counterparts (written : List Entry) (below : Location) (left right : Option Store.Node) : Prop :=
  match written.reverse.find? fun entry => Path.proper entry.name = below with
  | none => left = none ∧ right = none
  | some entry => ∃ bytes, left = some (.file (.ofBytes bytes)) ∧
      right = some (.file (.ofBytes
        (if Payload.isScript entry.name then bytes else bytes.map (· ^^^ 0xFF))))

theorem counterparts_of_held (held : List (Entry × Bytes)) (written : List Entry) (below : Location)
    (shape : held.map Prod.fst = written.reverse) :
    Counterparts written below
      ((bytesAt held below).map fun bytes => .file (.ofBytes bytes))
      ((bytesAt (held.map disguised) below).map fun bytes => .file (.ofBytes bytes)) := by
  rw [Counterparts, ← shape, List.find?_map]
  simp only [bytesAt, find?_disguised]
  cases latest : held.find? fun deposit => Path.proper deposit.1.name = below with
  | none =>
      have none : held.find? ((fun entry : Entry => decide (Path.proper entry.name = below)) ∘ Prod.fst) =
          none := latest
      rw [none]
      exact ⟨rfl, rfl⟩
  | some deposit =>
      have found : held.find? ((fun entry : Entry => decide (Path.proper entry.name = below)) ∘ Prod.fst) =
          some deposit := latest
      rw [found]
      exact ⟨deposit.2, rfl, rfl⟩

theorem Leaves.counterparts {base baseToo : Location} {held : List (Entry × Bytes)}
    {kind : Option Failure.Kind} {run runToo : Except Failure Unit × Workspace}
    (leaves : Leaves base held kind run) (leavesToo : Leaves baseToo (held.map disguised) kind runToo)
    (written : List Entry) (shape : held.map Prod.fst = written.reverse) :
    ending run.1 = ending runToo.1 ∧
      ∀ below ≠ [], Counterparts written below (run.2.store.node? (base ++ below))
        (runToo.2.store.node? (baseToo ++ below)) := by
  refine ⟨leaves.ends.trans leavesToo.ends.symm, ?_⟩
  intro below down
  rw [leaves.nodes below down, leavesToo.nodes below down]
  exact counterparts_of_held held written below shape

theorem vets_alike (path : Bytes) (options others : ExtractOptions) (left right : Workspace)
    (sameBuffer : others.buffer = options.buffer) (sameFrame : others.lz4 = options.lz4)
    (same : (left.store.openForReading path).map Prod.snd =
      (right.store.openForReading path).map Prod.snd) :
    (∃ failure, ((vet path options).runOn left).1 = .error failure ∧
      ((vet path others).runOn right).1 = .error failure) ∨
    ∃ archive list opened archiveToo listToo openedToo,
      (vet path options).runOn left = (.ok (archive, list), opened) ∧
      (vet path others).runOn right = (.ok (archiveToo, listToo), openedToo) ∧
      archiveToo.directory = archive.directory := by
  have vets := vet_appraised path options left
  rw [same, ← sameBuffer, ← sameFrame, ← vet_appraised path others right] at vets
  cases vetting : (vet path options).runOn left with
  | mk result opened =>
      cases vettingToo : (vet path others).runOn right with
      | mk resultToo openedToo =>
          rw [vetting, vettingToo] at vets
          cases result with
          | error failure =>
              cases resultToo with
              | ok vetted => cases vets
              | error other =>
                  cases vets
                  exact Or.inl ⟨failure, rfl, rfl⟩
          | ok vetted =>
              cases resultToo with
              | error failure => cases vets
              | ok vettedToo =>
                  have directories := Except.ok.inj vets
                  exact Or.inr ⟨_, _, _, _, _, _, rfl, rfl, directories.symm⟩

/-- Forcing the script key changes the members that are not scripts, and nothing else. Two extractions of
one archive into empty directories, one with keys by name and one with the script key forced, end alike if
the directories leave room for the same paths: both succeed, or both fail with one kind of failure. They
make files for the same entries, all of them on success, and at each place the last such entry has left the
same bytes if it is a script, and else complements. -/
theorem forced_key_complements (path : Bytes) (options : ExtractOptions) (out outToo : Bytes)
    (base baseToo : Location) (left right leftAfter rightAfter : Workspace)
    (first second : Except Failure Unit)
    (same : (left.store.openForReading path).map Prod.snd =
      (right.store.openForReading path).map Prod.snd)
    (unread : ¬ left.log.Reaches left.store (left.store.place path))
    (unreadToo : ¬ right.log.Reaches right.store (right.store.place path))
    (target : EmptyTarget out base left) (targetToo : EmptyTarget outToo baseToo right)
    (room : ∀ entry ∈ entriesAt path options.lz4 left,
      (Path.join (baseOf out) entry.name).length ≤ Store.maxPath ↔
        (Path.join (baseOf outToo) entry.name).length ≤ Store.maxPath)
    (alike : ∀ below ≠ [], right.store.terms (baseToo ++ below) = left.store.terms (base ++ below))
    (ran : (extract path { options with outputDirectory := out, policy := .byName }).runOn left =
      (first, leftAfter))
    (ranToo : (extract path { options with outputDirectory := outToo, policy := .forced }).runOn right =
      (second, rightAfter)) :
    ending first = ending second ∧
      ∃ written, written <+: entriesAt path options.lz4 left ∧
        (first = .ok () → written = entriesAt path options.lz4 left) ∧
        ∀ below ≠ [], Counterparts written below (leftAfter.store.node? (base ++ below))
          (rightAfter.store.node? (baseToo ++ below)) := by
  rcases vets_alike path { options with outputDirectory := out, policy := .byName }
    { options with outputDirectory := outToo, policy := .forced } left right rfl rfl same with
    ⟨failure, refused, refusedToo⟩ |
    ⟨archive, list, opened, archiveToo, listToo, openedToo, vetted, vettedToo, directory⟩
  · have leaves := extract_refused path _ base left target failure refused
    have leavesToo := extract_refused path _ baseToo right targetToo failure refusedToo
    rw [ran] at leaves
    rw [ranToo] at leavesToo
    obtain ⟨alike, files⟩ := leaves.counterparts leavesToo [] rfl
    refine ⟨alike, [], List.nil_prefix, ?_, files⟩
    intro fine
    have ends := leaves.ends
    rw [fine] at ends
    cases ends
  · obtain ⟨_, accepted, listed⟩ := vet_eq_ok _ _ _ _ _ _ vetted
    have checked := ((tasks_eq_ok _ _ _ _).mp listed).1
    have entries : entriesAt path options.lz4 left = archive.directory.entries := by
      simp only [entriesAt, accepted]
    rw [entries] at room ⊢
    obtain ⟨usable, _, _, _⟩ := Store.find_eq_ok _ _ _ _ target.found
    obtain ⟨usableToo, _, _, _⟩ := Store.find_eq_ok _ _ _ _ targetToo.found
    obtain ⟨contents, container, found, held, leaves⟩ := extract_deposits path _ base left target archive
      list opened (fun below => left.store.terms (base ++ below)) (fun _ _ => rfl) unread vetted
    obtain ⟨_, _, foundToo, heldToo, leavesToo⟩ := extract_deposits path _ baseToo right targetToo
      archiveToo listToo openedToo (fun below => left.store.terms (base ++ below)) alike unreadToo vettedToo
    rw [found, foundToo] at same
    cases same
    rw [held] at heldToo
    cases heldToo
    have forced := deposit_forced container archive.directory (baseOf out) (baseOf outToo)
      (fun below => left.store.terms (base ++ below)) (Payload.chosenBuffer options.buffer).toNat
      archive.directory.entries [] (by
        intro entry member
        exact Store.checkPath_join_congr _ _ _ usable usableToo
          (EntryName.check_eq_ok _ (checked entry member)).2 (room entry member))
    obtain ⟨written, front, shape, all⟩ := deposit_entries container archive.directory (baseOf out)
      (fun below => left.store.terms (base ++ below)) .byName (Payload.chosenBuffer options.buffer).toNat
      archive.directory.entries []
    rw [List.map_nil] at forced
    rw [List.map_nil, List.append_nil] at shape
    rw [ran] at leaves
    rw [ranToo, directory, forced] at leavesToo
    obtain ⟨alike, files⟩ := leaves.counterparts leavesToo written shape
    refine ⟨alike, written, front, ?_, files⟩
    intro fine
    have ends := leaves.ends
    rw [fine] at ends
    exact all ends.symm

def scriptAndShared : List Member :=
  [⟨utf8 "a", utf8 "xy"⟩, ⟨utf8 "b.s", utf8 "z"⟩, ⟨utf8 "./a", utf8 "w"⟩]

def plainAndRaw : Workspace where
  store :=
    { Store.initial with
      nodes := Store.initial.nodes ++
        [([utf8 "work", utf8 "a.iga"], .file (.ofBytes (containerOf scriptAndShared))),
          ([utf8 "work", utf8 "plain"], .directory), ([utf8 "work", utf8 "raw"], .directory)] }

/-- The file that two members share holds the last of them, in two forms; the script has one form. -/
theorem forced_key_complements_script_and_shared :
    ∃ leftAfter rightAfter bytes script,
      (extract (utf8 "a.iga") { outputDirectory := utf8 "plain" }).runOn plainAndRaw =
        (.ok (), leftAfter) ∧
      (extract (utf8 "a.iga") { outputDirectory := utf8 "raw", policy := .forced }).runOn plainAndRaw =
        (.ok (), rightAfter) ∧
      leftAfter.store.node? [utf8 "work", utf8 "plain", utf8 "a"] = some (.file (.ofBytes bytes)) ∧
      rightAfter.store.node? [utf8 "work", utf8 "raw", utf8 "a"] =
        some (.file (.ofBytes (bytes.map (· ^^^ 0xFF)))) ∧
      leftAfter.store.node? [utf8 "work", utf8 "plain", utf8 "b.s"] = some (.file (.ofBytes script)) ∧
      rightAfter.store.node? [utf8 "work", utf8 "raw", utf8 "b.s"] = some (.file (.ofBytes script)) := by
  have works : ((extract (utf8 "a.iga") { outputDirectory := utf8 "plain" }).runOn
      plainAndRaw).1.toOption.isSome = true := by
    decide +kernel
  have worksToo : ((extract (utf8 "a.iga") { outputDirectory := utf8 "raw", policy := .forced }).runOn
      plainAndRaw).1.toOption.isSome = true := by
    decide +kernel
  have room : ∀ entry ∈ entriesAt (utf8 "a.iga") false plainAndRaw,
      (Path.join (baseOf (utf8 "plain")) entry.name).length ≤ Store.maxPath ↔
        (Path.join (baseOf (utf8 "raw")) entry.name).length ≤ Store.maxPath := by
    decide +kernel
  have last : ((entriesAt (utf8 "a.iga") false plainAndRaw).reverse.find? fun entry =>
      Path.proper entry.name = [utf8 "a"]) = some ⟨4, utf8 "./a", 3, 1⟩ := by
    decide +kernel
  have lastScript : ((entriesAt (utf8 "a.iga") false plainAndRaw).reverse.find? fun entry =>
      Path.proper entry.name = [utf8 "b.s"]) = some ⟨1, utf8 "b.s", 2, 1⟩ := by
    decide +kernel
  have unreached : ∀ location, ¬ plainAndRaw.log.Reaches plainAndRaw.store location :=
    fun _ reached => nomatch reached.1
  obtain ⟨_, leftAfter, ran⟩ := Action.exists_ok works
  obtain ⟨_, rightAfter, ranToo⟩ := Action.exists_ok worksToo
  obtain ⟨_, written, _, all, files⟩ := forced_key_complements (utf8 "a.iga") {} (utf8 "plain")
    (utf8 "raw") [utf8 "work", utf8 "plain"] [utf8 "work", utf8 "raw"] plainAndRaw plainAndRaw leftAfter
    rightAfter _ _
    rfl (unreached _) (unreached _)
    ⟨rfl, Store.node?_below _ _ (by decide +kernel), fun _ _ => unreached _⟩
    ⟨rfl, Store.node?_below _ _ (by decide +kernel), fun _ _ => unreached _⟩ room
    (fun below down => (Store.initial_unlimited [utf8 "work", utf8 "raw"] (by decide +kernel) below
      down).trans (Store.initial_unlimited [utf8 "work", utf8 "plain"] (by decide +kernel) below down).symm)
    ran ranToo
  have shared := files [utf8 "a"] (by simp)
  have scripts := files [utf8 "b.s"] (by simp)
  rw [Counterparts, all rfl, last] at shared
  rw [Counterparts, all rfl, lastScript] at scripts
  obtain ⟨bytes, file, fileToo⟩ := shared
  obtain ⟨script, scriptFile, scriptFileToo⟩ := scripts
  exact ⟨leftAfter, rightAfter, bytes, script, ran, ranToo, file, fileToo, scriptFile, scriptFileToo⟩

/-- An archive with one long name, an empty directory, and an empty one so deep that the name makes too long
a path. -/
def shallowAndDeep : Workspace where
  store :=
    { Store.initial with
      nodes := Store.initial.nodes ++
        ([utf8 "work", utf8 "a.iga"], .file (.ofBytes (containerOf [⟨longName, utf8 "hello"⟩]))) ::
        ([utf8 "work", utf8 "out"], .directory) ::
        (List.range 16).map fun depth =>
          (utf8 "work" :: List.replicate (depth + 1) deepName, .directory) }

/-- The two directories, of which the second has no room for the larger of its files. -/
def rawFull : Workspace where
  store := plainAndRaw.store.setTerms [utf8 "work", utf8 "raw", utf8 "a"] { room := some 1 }

/-- Where the directories leave different room for paths or for files, one extraction succeeds and the other
fails. -/
theorem forced_extract_fails_without_room :
    EmptyTarget (utf8 "out") [utf8 "work", utf8 "out"] shallowAndDeep ∧
      EmptyTarget deepPath deepLocation shallowAndDeep ∧
      ending ((extract (utf8 "a.iga") { outputDirectory := utf8 "out" }).runOn shallowAndDeep).1 = none ∧
      ending ((extract (utf8 "a.iga") { outputDirectory := deepPath, policy := .forced }).runOn
        shallowAndDeep).1 = some .other ∧
      EmptyTarget (utf8 "plain") [utf8 "work", utf8 "plain"] rawFull ∧
      EmptyTarget (utf8 "raw") [utf8 "work", utf8 "raw"] rawFull ∧
      ending ((extract (utf8 "a.iga") { outputDirectory := utf8 "plain" }).runOn rawFull).1 = none ∧
      ending ((extract (utf8 "a.iga") { outputDirectory := utf8 "raw", policy := .forced }).runOn
        rawFull).1 = some .other := by
  have unreached : ∀ location, ¬ shallowAndDeep.log.Reaches shallowAndDeep.store location :=
    fun _ reached => nomatch reached.1
  have unreachedToo : ∀ location, ¬ rawFull.log.Reaches rawFull.store location :=
    fun _ reached => nomatch reached.1
  refine ⟨⟨rfl, Store.node?_below _ _ (by decide +kernel), fun _ _ => unreached _⟩,
    ⟨Store.find_of_isDirectory _ _ _ (by decide +kernel), Store.node?_below _ _ (by decide +kernel),
      fun _ _ => unreached _⟩, by decide +kernel, by decide +kernel,
    ⟨rfl, Store.node?_below _ _ (by decide +kernel), fun _ _ => unreachedToo _⟩,
    ⟨rfl, Store.node?_below _ _ (by decide +kernel), fun _ _ => unreachedToo _⟩,
    by decide +kernel, by decide +kernel⟩

end IgaArchive.Archive

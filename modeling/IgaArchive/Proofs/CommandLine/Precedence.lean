import IgaArchive.Proofs.Archive.Format
import IgaArchive.Proofs.CommandLine.Settings
import IgaArchive.Proofs.Store.Flat

/-!
Which settings a run goes by. A command line that is accepted runs as one that says nothing about them does
under the configuration that is settled on: the second operand of an extraction is its directory, and each
switch is as the arguments or else the file give it, unless the arguments turn off what the file turns on.
-/

namespace IgaArchive

namespace Config

/-- The directory that a file gives for members, as seen from the working directory. -/
def directoryIn (file written : Bytes) : Bytes :=
  let path := Trimmed.text written
  if path = [] then utf8 "."
  else if Path.isAbsolute path then path
  else Path.clean (Path.join (Path.directory file) path)

/-- A configuration comes from a file: its switches are as they are written there, and its directory is the
one the file gives. -/
structure ComesFrom (config : Config) (store : Store) (file : Bytes) (written : Config) : Prop where
  read : ∃ location node text,
    store.openForReading file = .ok (location, node) ∧ textOf? node = some text ∧ decode text = .ok written
  progress : config.progress = written.progress
  forceDecrypt : config.forceDecrypt = written.forceDecrypt
  verbose : config.logs.verbose = written.logs.verbose
  outputDir : config.outputDir = directoryIn file written.outputDir

theorem outputDir_resolved (config : Config) (file : Bytes) :
    (config.resolved file).withDefaults.outputDir = directoryIn file config.outputDir := by
  simp only [withDefaults, resolved, resolvePath, directoryIn]
  by_cases empty : Trimmed.text config.outputDir = []
  · simp only [empty, true_or, if_true]
  · by_cases absolute : Path.isAbsolute (Trimmed.text config.outputDir)
    · simp only [empty, absolute, or_true, if_true, if_false]
    · simp only [empty, absolute, Bool.false_eq_true, or_self, if_false, Path.clean_ne_nil]

theorem loadFile_comesFrom (store : Store) (file : Bytes) (config : Config)
    (loaded : loadFile store file = .ok config) : ∃ written, config.ComesFrom store file written := by
  obtain ⟨⟨location, node⟩, opened, loaded⟩ := Result.bind_eq_ok loaded
  cases held : textOf? node with
  | none =>
      simp only [held] at loaded
      cases loaded
  | some text =>
      simp only [held] at loaded
      obtain ⟨_, whole, loaded⟩ := Result.bind_eq_ok loaded
      cases whole
      obtain ⟨written, decoded, loaded⟩ := Result.bind_eq_ok loaded
      obtain ⟨_, _, loaded⟩ := Result.bind_eq_ok loaded
      cases loaded
      have read := Result.mapError_eq_ok.mp opened
      exact ⟨written, ⟨location, node, text, read, held, Result.mapError_eq_ok.mp decoded⟩, rfl, rfl, rfl,
        outputDir_resolved written file⟩

theorem load_comesFrom (store : Store) (path fallback : Bytes) (config : Config)
    (loaded : load store path fallback = .ok config) :
    if chosenPath path fallback = [] then config = standard
    else ∃ written, config.ComesFrom store (chosenPath path fallback) written := by
  rw [load] at loaded
  split at loaded
  · rename_i none
    rw [if_pos none]
    cases loaded
    rfl
  · rename_i some
    rw [if_neg some]
    exact loadFile_comesFrom store _ config loaded

end Config

namespace CommandLine

def configured (config : Config) : Flag → Bool
  | .forceDecrypt => config.forceDecrypt
  | .progress => config.progress
  | .verbose => config.logs.verbose
  | .config | .digest | .help | .lz4 => false

def settled (command : Command) (config : Config) (call : Call) : Config :=
  { effective config call.options with
    outputDir := if command = .extract then outputDirectory config call.operands else config.outputDir }

def unsettled (command : Command) (call : Call) : Call where
  options := { call.options with forceDecrypt := false, progress := false, verbose := false }
  operands := if command = .extract then call.operands.take 1 else call.operands

def under (environment : Environment) (command : Command) (config : Config) (call : Call) (store : Store) :
    Store × Outcome :=
  match Log.setUp store config.logs.verbose config.logs.file config.logs.maxSizeMB.toInt
      environment.stamp with
  | (store, .error fault) => (store, failed command (.logging fault))
  | (store, .ok log) => conclude command (carryOut command config call environment.clock { store, log })

/-- A command line that is accepted, asks for no help, and finds its configuration. -/
structure Accepted (environment : Environment) (arguments : List Bytes) (store : Store) (command : Command)
    (rest : List Bytes) (call : Call) (config : Config) : Prop where
  called : callOf arguments = (command, rest)
  read : readArguments command.flags rest {} = .ok call
  unhelped : call.options.help = false
  counted : checkOperands command.arity call.operands = .ok ()
  loaded : Config.load store call.options.config environment.configPath = .ok config

theorem carryOut_settled (command : Command) (config : Config) (call : Call) (clock : Clock)
    (workspace : Workspace) :
    carryOut command (effective config call.options) call clock workspace =
      carryOut command (settled command config call) (unsettled command call) clock workspace := by
  cases command with
  | program | help | list | compress => rfl
  | extract =>
      have archive : (call.operands.take 1).headD [] = call.operands.headD [] := by
        cases call.operands <;> rfl
      have directory : outputDirectory (settled .extract config call) (call.operands.take 1) =
          outputDirectory (effective config call.options) call.operands := by
        rw [outputDirectory, List.getElem?_take_eq_none (Nat.le_refl 1)]
        rfl
      simp only [carryOut, unsettled, if_true, archive, directory]
      rfl

theorem under_settled (environment : Environment) (command : Command) (config : Config) (call : Call)
    (store : Store) :
    under environment command (effective config call.options) call store =
      under environment command (settled command config call) (unsettled command call) store := by
  simp only [under, carryOut_settled]
  rfl

theorem Accepted.run_eq {environment : Environment} {arguments : List Bytes} {store : Store}
    {command : Command} {rest : List Bytes} {call : Call} {config : Config}
    (accepted : Accepted environment arguments store command rest call config) :
    run environment arguments store =
      under environment command (effective config call.options) call store := by
  simp only [run, accepted.called, accepted.read, accepted.unhelped, accepted.counted, runCall,
    accepted.loaded, Bool.false_eq_true, if_false]
  rfl

def sharedSwitches : List Flag := [.forceDecrypt, .progress, .verbose]

theorem configured_settled (command : Command) (config : Config) (call : Call) (flag : Flag)
    (shared : flag ∈ sharedSwitches) :
    configured (settled command config call) flag = (call.options.isOn flag || configured config flag) := by
  simp only [sharedSwitches, List.mem_cons, List.not_mem_nil, or_false] at shared
  obtain rfl | rfl | rfl := shared <;> rfl

/-- A switch is settled as the arguments say, or as the file does, unless the arguments turn off what the
file turns on. -/
theorem Accepted.configured_settled_iff {environment : Environment} {arguments : List Bytes} {store : Store}
    {command : Command} {rest : List Bytes} {call : Call} {config : Config}
    (accepted : Accepted environment arguments store command rest call config) (flag : Flag)
    (shared : flag ∈ sharedSwitches) :
    configured (settled command config call) flag = (told flag rest).getD (configured config flag) ↔
      ¬ (told flag rest = some false ∧ configured config flag = true) := by
  have switch : flag ≠ .config := by
    intro same
    rw [same] at shared
    exact absurd shared (by decide)
  have off : ({} : Options).isOn flag = false := by
    cases flag <;> rfl
  have read := readArguments_told flag switch command.flags rest {} call accepted.read
  rw [configured_settled command config call flag shared, read, off]
  cases told flag rest with
  | none => simp
  | some on => cases on <;> cases configured config flag <;> simp

/-- A run goes by the settings that the command line gives, and by those of the configuration otherwise,
unless a switch is turned off on the command line and on in the file: then it is on. -/
theorem run_settings (environment : Environment) (arguments : List Bytes) (store : Store)
    (command : Command) (rest : List Bytes) (call : Call) (config : Config)
    (accepted : Accepted environment arguments store command rest call config) :
    run environment arguments store =
        under environment command (settled command config call) (unsettled command call) store ∧
      (∀ flag ∈ sharedSwitches,
        configured (settled command config call) flag = (told flag rest).getD (configured config flag) ↔
          ¬ (told flag rest = some false ∧ configured config flag = true)) ∧
      (command = .extract →
        (settled command config call).outputDir = call.operands[1]?.getD config.outputDir) ∧
      if Config.chosenPath call.options.config environment.configPath = [] then config = Config.standard
      else
        ∃ written, config.ComesFrom store
          (Config.chosenPath call.options.config environment.configPath) written := by
  refine ⟨?_, accepted.configured_settled_iff, ?_, Config.load_comesFrom store _ _ config accepted.loaded⟩
  · rw [accepted.run_eq, under_settled]
  · intro extracts
    rw [settled, if_pos extracts, outputDirectory]

def bareEnvironment : Environment where
  clock := .still 0

def configInDirectory : Store :=
  { Store.initial with
    nodes := Store.initial.nodes ++
      [([utf8 "work", utf8 "conf"], .directory),
        ([utf8 "work", utf8 "conf", utf8 "c.yaml"],
          .file (.ofBytes (utf8 "outputDir: out\nprogress: true\nlogs:\n  verbose: true\n")))] }

/-- The key is forced by the command line, the rest is as the file has it. -/
theorem run_settings_both_sources :
    run bareEnvironment (["extract", "-d", "--config", "conf/c.yaml", "a.iga"].map utf8) configInDirectory =
      under bareEnvironment .extract
        { Config.standard with
          outputDir := utf8 "conf/out", forceDecrypt := true, progress := true,
          logs := { Config.standard.logs with verbose := true } }
        { options := { config := utf8 "conf/c.yaml" }, operands := [utf8 "a.iga"] } configInDirectory := by
  have accepted : Accepted bareEnvironment
      (["extract", "-d", "--config", "conf/c.yaml", "a.iga"].map utf8) configInDirectory .extract
      (["-d", "--config", "conf/c.yaml", "a.iga"].map utf8)
      { options := { config := utf8 "conf/c.yaml", forceDecrypt := true }, operands := [utf8 "a.iga"] }
      { Config.standard with
        outputDir := utf8 "conf/out", progress := true,
        logs := { Config.standard.logs with verbose := true } } :=
    { called := by decide +kernel
      read := Result.eq_ok_of_toOption (by decide +kernel)
      unhelped := rfl
      counted := Result.eq_ok_of_toOption (by decide +kernel)
      loaded := Result.eq_ok_of_toOption (by decide +kernel) }
  exact (run_settings _ _ _ _ _ _ _ accepted).1

def keyForcedByFile : Store :=
  { Store.initial with
    nodes := Store.initial.nodes ++
      [([utf8 "work", utf8 "cfg"], .file (.ofBytes (utf8 "forceDecrypt: true\n"))),
        ([utf8 "work", utf8 "a.iga"],
          .file (.ofBytes (Archive.containerOf [⟨utf8 "f", utf8 "hello"⟩])))] }

def denyingArguments : List Bytes :=
  ["extract", "--config", "cfg", "--force-decrypt=false", "a.iga", "out"].map utf8

/-- The command line turns the key off and the file turns it on: the member is decoded with the key, where
the setting of the command line would leave it as it is. -/
theorem denied_key_is_forced :
    Accepted bareEnvironment denyingArguments keyForcedByFile .extract denyingArguments.tail
        { options := { config := utf8 "cfg" }, operands := [utf8 "a.iga", utf8 "out"] }
        { Config.standard with forceDecrypt := true } ∧
      told .forceDecrypt denyingArguments.tail = some false ∧
      ((run bareEnvironment denyingArguments keyForcedByFile).1.readWhole (utf8 "out/f")).toOption =
        some ((utf8 "hello").map (· ^^^ 0xFF)) ∧
      ((under bareEnvironment .extract { Config.standard with outputDir := utf8 "out", forceDecrypt := false }
        { options := { config := utf8 "cfg" }, operands := [utf8 "a.iga"] } keyForcedByFile).1.readWhole
          (utf8 "out/f")).toOption = some (utf8 "hello") := by
  have accepted : Accepted bareEnvironment denyingArguments keyForcedByFile .extract denyingArguments.tail
      { options := { config := utf8 "cfg" }, operands := [utf8 "a.iga", utf8 "out"] }
      { Config.standard with forceDecrypt := true } :=
    { called := by decide +kernel
      read := Result.eq_ok_of_toOption (by decide +kernel)
      unhelped := rfl
      counted := Result.eq_ok_of_toOption (by decide +kernel)
      loaded := Result.eq_ok_of_toOption (by decide +kernel) }
  refine ⟨accepted, ?_, ?_, ?_⟩
  · decide +kernel
  · decide +kernel
  · decide +kernel

end CommandLine

end IgaArchive

import IgaArchive.Archive.Creation
import IgaArchive.Archive.Extraction
import IgaArchive.Archive.Listing
import IgaArchive.CommandLine.Arguments
import IgaArchive.CommandLine.Usage
import IgaArchive.Config.Load
import IgaArchive.Text.Columns

/-!
Running a command line. Mistakes in the arguments are found first, then help is given if it is asked
for; only then is the configuration loaded, the log set up and the command carried out.
-/

namespace IgaArchive.CommandLine

structure Environment where
  /-- The configuration file to use if none is asked for. -/
  configPath : Bytes := []
  clock : Clock
  /-- What stands in front of the messages of the log. -/
  stamp : Bytes := []

structure Outcome where
  code : UInt32
  stdout : Bytes := []
  stderr : Bytes := []

inductive Problem where
  | usage (error : UsageError)
  | config (error : Config.LoadError)
  | logging (fault : Fault)
  | operation (failure : Failure)

def Problem.message : Problem → Bytes
  | .usage error => error.message
  | .config error => utf8 "load config: " ++ error.message
  | .logging fault => utf8 "setup logging: " ++ (Failure.during .createLogDirectory (.store fault)).message
  | .operation failure => failure.message

/-- The configuration a run goes by: a flag can turn a setting on that the file leaves off. -/
def effective (config : Config) (options : Options) : Config :=
  { config with
    forceDecrypt := options.forceDecrypt || config.forceDecrypt
    progress := options.progress || config.progress
    logs := { config.logs with verbose := options.verbose || config.logs.verbose } }

/-- Where an extraction goes: to its second operand, or to the configured directory. -/
def outputDirectory (config : Config) (operands : List Bytes) : Bytes :=
  operands[1]?.getD config.outputDir

def table (digest : Bool) (items : List Archive.ListItem) : Bytes :=
  let row (cells : List Bytes) : Bytes := [Bytes.code '\t'].intercalate cells ++ [Bytes.newline]
  let ifDigest (cell : Bytes) : List Bytes := if digest then [cell] else []
  row ([utf8 "NAME", utf8 "OFFSET", utf8 "SIZE"] ++ ifDigest (utf8 "DIGEST")) ++
    items.flatMap fun item =>
      row ([item.entry.name, Numeral.signed item.start.toInt, Numeral.decimal item.entry.size.toNat] ++
        ifDigest item.digest)

def runList (config : Config) (options : Options) (archive : Bytes) : Action Bytes := do
  let listing ← Archive.list archive
    { policy := .ofForce config.forceDecrypt, digest := options.digest, lz4 := options.lz4,
      buffer := config.bufferSize.toInt }
  Action.detail (utf8 "header unknown " ++ Numeral.hexSpaced listing.header.unknown.toList ++
    utf8 " padding " ++ Numeral.hexSpaced listing.header.padding.toList)
  return Columns.render (table options.digest listing.items)

def runExtract (config : Config) (options : Options) (archive output : Bytes) : Action Unit := do
  let policy := KeyPolicy.ofForce config.forceDecrypt
  Action.detail (utf8 "extract " ++ archive ++ utf8 " -> " ++ output ++ utf8 " (key " ++ policy.text ++
    utf8 ")")
  Archive.extract archive
    { outputDirectory := output, policy, lz4 := options.lz4, makeDirectory := true,
      buffer := config.bufferSize.toInt }
  Action.note (utf8 "extracted " ++ archive ++ utf8 " into " ++ output)

def runCompress (config : Config) (options : Options) (archive : Bytes) (inputs : List Bytes) :
    Action Unit := do
  let count := Numeral.decimal inputs.length
  Action.detail (utf8 "compress " ++ count ++ utf8 " files -> " ++ archive)
  Archive.compress archive inputs { buffer := config.bufferSize.toInt, lz4 := options.lz4 }
  Action.note (utf8 "wrote " ++ archive ++ utf8 " with " ++ count ++ utf8 " members")

/-- What a command that has been carried out leaves: its workspace, and what it prints to either
stream. -/
structure Report where
  workspace : Workspace
  result : Except Problem Unit
  stdout : Bytes := []
  stderr : Bytes := []

def perform (workspace : Workspace) (action : Action Bytes) : Report :=
  match action.runOn workspace with
  | (.ok printed, workspace) => { workspace, result := .ok (), stdout := reported workspace ++ printed }
  | (.error failure, workspace) =>
    { workspace, result := .error (.operation failure), stdout := reported workspace }
where
  reported (workspace : Workspace) : Bytes :=
    (workspace.tracker.map (·.printed)).getD []

def carryOut (command : Command) (config : Config) (call : Call) (clock : Clock)
    (workspace : Workspace) : Report :=
  let archive := call.operands.headD []
  let tracked := { workspace with tracker := some { enabled := config.progress, clock } }
  match command with
  | .program => { workspace, result := .error (.usage .missingCommand) }
  | .help => { workspace, result := .ok (), stderr := Usage.help (callOf call.operands).1 }
  | .list => perform workspace (runList config call.options archive)
  | .extract =>
    perform tracked do
      runExtract config call.options archive (outputDirectory config call.operands)
      return []
  | .compress =>
    perform tracked do
      runCompress config call.options archive call.operands.tail
      return []

/-- What is printed about a problem. A mistake in the arguments brings the usage with it. -/
def complaint (command : Command) (problem : Problem) : Bytes :=
  utf8 "Error: " ++ problem.message ++ [Bytes.newline] ++
    match problem with
    | .usage _ => Usage.text command
    | _ => []

/-- A run that fails before the log is set up. -/
def failed (command : Command) (problem : Problem) : Outcome :=
  { code := 1, stderr := complaint command problem }

def conclude (command : Command) (report : Report) : Store × Outcome :=
  let { store, log, .. } := report.workspace
  match report.result with
  | .ok _ => (store, { code := 0, stdout := report.stdout, stderr := log.console ++ report.stderr })
  | .error problem =>
    let (store, log) := log.detail store (utf8 command.path ++ utf8 ": " ++ problem.message)
    (store, { code := 1, stdout := report.stdout, stderr := log.console ++ complaint command problem })

def runCall (environment : Environment) (command : Command) (call : Call) (store : Store) :
    Store × Outcome :=
  match Config.load store call.options.config environment.configPath with
  | .error error => (store, failed command (.config error))
  | .ok config =>
    let config := effective config call.options
    match Log.setUp store config.logs.verbose config.logs.file config.logs.maxSizeMB.toInt
        environment.stamp with
    | (store, .error fault) => (store, failed command (.logging fault))
    | (store, .ok log) =>
      conclude command (carryOut command config call environment.clock { store, log })

def run (environment : Environment) (arguments : List Bytes) (store : Store) : Store × Outcome :=
  let (command, arguments) := callOf arguments
  match readArguments command.flags arguments {} with
  | .error error => (store, failed command (.usage error))
  | .ok call =>
    if call.options.help then (store, { code := 0, stderr := Usage.help command })
    else
      match checkOperands command.arity call.operands with
      | .error error => (store, failed command (.usage error))
      | .ok _ => runCall environment command call store

end IgaArchive.CommandLine

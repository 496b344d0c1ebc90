import IgaArchive.CommandLine.Run

/-!
The paths a run may look at, as far as the store tells. More come to light with the contents of the
configuration file and of the archive.
-/

namespace IgaArchive.CommandLine

/-- The destinations of the archive at a path, if it can be extracted. -/
def destinations (store : Store) (options : Options) (archive output : Bytes) : List Bytes :=
  match ((Archive.openAt archive options.lz4).runOn { store }).1 with
  | .error _ => []
  | .ok archive =>
    match Archive.tasks archive.directory output .byName with
    | .error _ => []
    | .ok tasks => tasks.map (·.destination)

def commandPaths (command : Command) (config : Config) (call : Call) (store : Store) : List Bytes :=
  let output := outputDirectory config call.operands
  config.logs.file :: call.operands ++
    if command = .extract then
      output :: destinations store call.options (call.operands.headD []) output
    else []

def paths (environment : Environment) (arguments : List Bytes) (store : Store) : List Bytes :=
  let (command, arguments) := callOf arguments
  match readArguments command.flags arguments {} with
  | .error _ => []
  | .ok call =>
    Config.chosenPath call.options.config environment.configPath ::
      match Config.load store call.options.config environment.configPath with
      | .error _ => []
      | .ok config => commandPaths command (effective config call.options) call store

end IgaArchive.CommandLine

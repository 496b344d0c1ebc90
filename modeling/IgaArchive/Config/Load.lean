import IgaArchive.Config.Decode
import IgaArchive.Store.Files
import IgaArchive.Text.Trimmed
import IgaArchive.Yaml.Text

/-!
Loading the configuration from a file. Relative paths in it start from the directory of the file.
-/

namespace IgaArchive.Config

inductive LoadError where
  | store (fault : Fault)
  | malformed (path : Bytes)
  | mistyped (path : Bytes) (complaints : List Bytes)
  | invalid (path : Bytes) (error : Invalid)
  deriving DecidableEq, Repr

def LoadError.message : LoadError → Bytes
  | .store fault => fault.message
  | .malformed path => utf8 "decode " ++ path ++ utf8 ": yaml: malformed document"
  | .mistyped path complaints =>
    utf8 "decode " ++ path ++ utf8 ": yaml: unmarshal errors:" ++
      complaints.flatMap fun complaint => utf8 "\n  " ++ complaint
  | .invalid path error => path ++ utf8 ": " ++ error.message

def textOf? : Store.Node → Option (List Char)
  | .file contents => Yaml.Text.decode? contents.toBytes
  | _ => none

def resolvePath (file path : Bytes) : Bytes :=
  let path := Trimmed.text path
  if path = [] ∨ Path.isAbsolute path then path else Path.clean (Path.join (Path.directory file) path)

def resolved (config : Config) (file : Bytes) : Config :=
  { config with
    outputDir := resolvePath file config.outputDir
    logs := { config.logs with file := resolvePath file config.logs.file } }

/-- The file that is loaded: the one asked for, or else the fallback, which may be empty too. -/
def chosenPath (path fallback : Bytes) : Bytes :=
  if path = [] then fallback else path

def loadFile (store : Store) (path : Bytes) : Except LoadError Config := do
  let (_, node) ← (store.openForReading path).mapError .store
  let text ←
    match textOf? node with
    | some text => pure text
    | none => throw (.malformed path)
  let config ← (decode text).mapError fun
    | .malformed => .malformed path
    | .mistyped complaints => .mistyped path complaints
  let config := (config.resolved path).withDefaults
  config.validate.mapError (.invalid path)
  return config

/-- The configuration in the file of a path, or of the fallback if the path is empty. Without either
it is the standard one. -/
def load (store : Store) (path fallback : Bytes) : Except LoadError Config :=
  let path := chosenPath path fallback
  if path = [] then .ok standard else loadFile store path

end IgaArchive.Config

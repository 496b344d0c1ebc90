import IgaArchive.CommandLine.Flag

/-!
The commands, with the flags and operands they accept and the texts that describe them. The program
called without a command counts as a command too.
-/

namespace IgaArchive.CommandLine

inductive Command where
  | program
  | compress
  | extract
  | help
  | list
  deriving DecidableEq, Repr

inductive Arity where
  | none
  | any
  | exactly (count : Nat)
  | between (least most : Nat)
  | atLeast (least : Nat)
  deriving DecidableEq, Repr

namespace Command

def all : List Command := [.compress, .extract, .help, .list]

def name : Command → String
  | .program => "igatool"
  | .compress => "compress"
  | .extract => "extract"
  | .help => "help"
  | .list => "list"

def shortName? : Command → Option String
  | .compress => some "c"
  | .extract => some "x"
  | .list => some "l"
  | _ => none

def path : Command → String
  | .program => "igatool"
  | command => "igatool " ++ command.name

def arity : Command → Arity
  | .program => .none
  | .compress => .atLeast 1
  | .extract => .between 1 2
  | .help => .any
  | .list => .exactly 1

def ownFlags : Command → List Flag
  | .program => [.config, .help, .progress, .verbose]
  | .compress => [.help, .lz4]
  | .extract => [.forceDecrypt, .help, .lz4]
  | .help => [.help]
  | .list => [.digest, .forceDecrypt, .help, .lz4]

def flags (command : Command) : List Flag :=
  command.ownFlags ++ Flag.shared

def named? (name : Bytes) : Option Command :=
  all.find? fun command => utf8 command.name == name || command.shortName?.map utf8 == some name

def synopsis : Command → String
  | .program => "igatool"
  | .compress => "igatool compress ARCHIVE [INPUT_FILE...]"
  | .extract => "igatool extract ARCHIVE [OUTPUT_DIRECTORY]"
  | .help => "igatool help [command]"
  | .list => "igatool list ARCHIVE"

def summary : Command → String
  | .program => "Extract and build IGA0 game archives"
  | .compress => "Build an archive from files"
  | .extract => "Extract every member of an archive"
  | .help => "Help about any command"
  | .list => "List the members of an archive"

def description : Command → String
  | .program =>
    "igatool reads and writes IGA0 archive containers.\n\n" ++
    "Supported operations:\n" ++
    "  - Extract every member of an archive into a directory\n" ++
    "  - Build an archive from an ordered list of files\n" ++
    "  - List the members of an archive"
  | .compress =>
    "Compress writes a new ARCHIVE holding the input files in the order given.\n" ++
    "Each member is named after the last component of its path."
  | .extract =>
    "Extract writes each member of ARCHIVE into OUTPUT_DIRECTORY, which is\n" ++
    "created once the archive has been validated. The directory defaults to\n" ++
    "outputDir from the configuration file, or the current directory.\n\n" ++
    "Members named *.s are decoded with the script key. --force-decrypt applies\n" ++
    "it to every member."
  | .help =>
    "Help provides help for any command in the application.\n" ++
    "Simply type igatool help [path to command] for full details."
  | .list => summary .list

def flagSummary (command : Command) : Flag → String
  | .config => "path to configuration file (default $IGATOOL_CONFIG)"
  | .digest => "print the SHA-256 digest of each decoded member"
  | .forceDecrypt => "decode every member with the script key"
  | .help => "help for " ++ command.name
  | .lz4 =>
    if command = .compress then "wrap the archive in an LZ4 frame"
    else "the archive is wrapped in an LZ4 frame"
  | .progress => "print transfer progress"
  | .verbose => "log archive layout details"

end Command

end IgaArchive.CommandLine

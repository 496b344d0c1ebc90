import IgaArchive.Bytes

/-!
The flags of the command line. A flag has a name, written behind two hyphens, and may have a letter,
written behind one.
-/

namespace IgaArchive.CommandLine

inductive Flag where
  | config
  | digest
  | forceDecrypt
  | help
  | lz4
  | progress
  | verbose
  deriving DecidableEq, Repr

namespace Flag

def name : Flag → String
  | .config => "config"
  | .digest => "digest"
  | .forceDecrypt => "force-decrypt"
  | .help => "help"
  | .lz4 => "lz4"
  | .progress => "progress"
  | .verbose => "verbose"

def letter? : Flag → Option Char
  | .forceDecrypt => some 'd'
  | .help => some 'h'
  | .verbose => some 'v'
  | _ => none

/-- Whether the flag takes a value of its own; the others are on or off. -/
def takesValue : Flag → Bool
  | .config => true
  | _ => false

def label (flag : Flag) : String :=
  match flag.letter? with
  | some letter => "-" ++ String.singleton letter ++ ", --" ++ flag.name
  | none => "--" ++ flag.name

def shared : List Flag := [.config, .progress, .verbose]

def named? (flags : List Flag) (name : Bytes) : Option Flag :=
  flags.find? fun flag => utf8 flag.name == name

def lettered? (flags : List Flag) (letter : UInt8) : Option Flag :=
  flags.find? fun flag => flag.letter?.map Bytes.code == some letter

end Flag

structure Options where
  config : Bytes := []
  digest : Bool := false
  forceDecrypt : Bool := false
  help : Bool := false
  lz4 : Bool := false
  progress : Bool := false
  verbose : Bool := false
  deriving DecidableEq, Repr

namespace Options

def turn (options : Options) (flag : Flag) (on : Bool) : Options :=
  match flag with
  | .config => options
  | .digest => { options with digest := on }
  | .forceDecrypt => { options with forceDecrypt := on }
  | .help => { options with help := on }
  | .lz4 => { options with lz4 := on }
  | .progress => { options with progress := on }
  | .verbose => { options with verbose := on }

end Options

def truth? (text : Bytes) : Option Bool :=
  if (["1", "t", "T", "true", "TRUE", "True"].map utf8).contains text then some true
  else if (["0", "f", "F", "false", "FALSE", "False"].map utf8).contains text then some false
  else none

end IgaArchive.CommandLine

import IgaArchive.CommandLine.Command

/-!
The usage and help texts of the commands, set from their descriptions.
-/

namespace IgaArchive.CommandLine.Usage

def filled (width : Nat) (text : String) : String :=
  text ++ "".pushn ' ' (width - text.length)

/-- How a flag is written, with room for a letter in front. -/
def flagForm (flag : Flag) : String :=
  let named := if flag.letter?.isSome then flag.label else "    " ++ flag.label
  "  " ++ named ++ if flag.takesValue then " string" else ""

def flagLines (command : Command) (flags : List Flag) : List String :=
  let width := flags.foldl (fun widest flag => max widest (flagForm flag).length) 0 + 3
  flags.map fun flag => filled width (flagForm flag) ++ command.flagSummary flag

def commandWidth : Nat := 12

def commandLines : List String :=
  Command.all.map fun command => "  " ++ filled commandWidth command.name ++ command.summary

def block (heading : String) (lines : List String) : List String :=
  heading :: lines

def blocks : Command → List (List String)
  | .program =>
    [block "Usage:" ["  igatool [flags]", "  igatool [command]"],
      block "Available Commands:" commandLines,
      block "Flags:" (flagLines .program Command.program.ownFlags),
      ["Use \"igatool [command] --help\" for more information about a command."]]
  | command =>
    [block "Usage:" ["  " ++ command.synopsis ++ " [flags]"]] ++
      (match command.shortName? with
      | some shortName => [block "Aliases:" ["  " ++ command.name ++ ", " ++ shortName]]
      | none => []) ++
      [block "Flags:" (flagLines command command.ownFlags),
        block "Global Flags:" (flagLines command Flag.shared)]

def text (command : Command) : Bytes :=
  utf8 ("\n\n".intercalate ((blocks command).map "\n".intercalate) ++ "\n")

def help (command : Command) : Bytes :=
  utf8 (command.description ++ "\n\n") ++ text command

end IgaArchive.CommandLine.Usage

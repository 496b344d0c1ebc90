import IgaArchive.CommandLine.Command
import IgaArchive.Text.Quoted

/-!
Reading the arguments. The command is the first operand that a first look at the arguments finds; then
its flags are read, wherever they stand in front of a double hyphen, and the rest are its operands.
-/

namespace IgaArchive.CommandLine

inductive UsageError where
  | badSyntax (argument : Bytes)
  | unknownFlag (name : Bytes)
  | unknownLetter (letter : UInt8) (group : Bytes)
  | missingValue (argument : Bytes)
  | notATruthValue (flag : Flag) (text : Bytes)
  | unknownCommand (name : Bytes)
  | missingCommand
  | notExactly (count received : Nat)
  | notBetween (least most received : Nat)
  | tooFew (least received : Nat)
  deriving DecidableEq, Repr

def UsageError.message : UsageError → Bytes
  | .badSyntax argument => utf8 "bad flag syntax: " ++ argument
  | .unknownFlag name => utf8 "unknown flag: --" ++ name
  | .unknownLetter letter group =>
    utf8 "unknown shorthand flag: " ++ Quoted.character (Char.ofNat letter.toNat) ++ utf8 " in -" ++
      group
  | .missingValue argument => utf8 "flag needs an argument: " ++ argument
  | .notATruthValue flag text =>
    utf8 "invalid argument " ++ Quoted.text text ++ utf8 " for " ++ Quoted.text (utf8 flag.label) ++
      utf8 " flag: strconv.ParseBool: parsing " ++ Quoted.text text ++ utf8 ": invalid syntax"
  | .unknownCommand name => utf8 "unknown command " ++ Quoted.text name
  | .missingCommand => utf8 "missing command"
  | .notExactly count received =>
    utf8 "accepts " ++ Numeral.decimal count ++ utf8 " arg(s), received " ++ Numeral.decimal received
  | .notBetween least most received =>
    utf8 "accepts between " ++ Numeral.decimal least ++ utf8 " and " ++ Numeral.decimal most ++
      utf8 " arg(s), received " ++ Numeral.decimal received
  | .tooFew least received =>
    utf8 "requires at least " ++ Numeral.decimal least ++ utf8 " arg(s), only received " ++
      Numeral.decimal received

def hyphen : UInt8 := Bytes.code '-'
def equals : UInt8 := Bytes.code '='

/-- Ends the flags; everything behind it is an operand. -/
def flagsEnd : Bytes := [hyphen, hyphen]

def standsAlone (flag : Option Flag) : Bool :=
  flag.any fun flag => !flag.takesValue

/-- Whether the first look takes the argument behind this one for its value: so it does behind each
flag that is not known to stand alone. -/
def mayTakeNext (known : List Flag) (argument : Bytes) : Bool :=
  if argument.contains equals then false
  else
    match argument with
    | [first, letter] => first == hyphen && !standsAlone (Flag.lettered? known letter)
    | first :: second :: name =>
      first == hyphen && second == hyphen && !standsAlone (Flag.named? known name)
    | _ => false

/-- The operands that a first look finds. A flag that may take a value hides all that follows if
there is no more than that value. -/
def glance (known : List Flag) : List Bytes → List Bytes
  | [] => []
  | argument :: rest =>
    if argument = flagsEnd then []
    else if mayTakeNext known argument then
      match rest with
      | _ :: next :: rest => glance known (next :: rest)
      | _ => []
    else if argument = [] ∨ argument.head? = some hyphen then glance known rest
    else argument :: glance known rest

/-- The command that the arguments call, and the arguments without its name. -/
def callOf (arguments : List Bytes) : Command × List Bytes :=
  match (glance Flag.shared arguments).head? with
  | none => (.program, arguments)
  | some name =>
    match Command.named? name with
    | none => (.program, arguments)
    | some command => (command, arguments.erase name)

structure Call where
  options : Options := {}
  operands : List Bytes := []
  deriving DecidableEq, Repr

def setTruth (flag : Flag) (text : Bytes) (options : Options) : Except UsageError Options :=
  match truth? text with
  | some on => .ok (options.turn flag on)
  | none => .error (.notATruthValue flag text)

/-- Reads a group of flag letters. A letter may be given a value, and then ends the group. Letters
from `test.` on are passed over. -/
def readLetters (flags : List Flag) : Bytes → Options → Except UsageError Options
  | [], options => .ok options
  | letter :: rest, options =>
    if (utf8 "test.").isPrefixOf (letter :: rest) then .ok options
    else
      match Flag.lettered? flags letter with
      | none => .error (.unknownLetter letter (letter :: rest))
      | some flag =>
        if rest.head? = some equals ∧ rest.length > 1 then setTruth flag rest.tail options
        else readLetters flags rest (options.turn flag true)

/-- Reads the arguments of a command that accepts these flags. -/
def readArguments (flags : List Flag) : List Bytes → Call → Except UsageError Call
  | [], call => .ok call
  | argument :: rest, call =>
    if argument = flagsEnd then .ok { call with operands := call.operands ++ rest }
    else
      match argument with
      | first :: second :: body =>
        if first ≠ hyphen then
          readArguments flags rest { call with operands := call.operands ++ [argument] }
        else if second ≠ hyphen then do
          let options ← readLetters flags (second :: body) call.options
          readArguments flags rest { call with options }
        else if body.head? = some hyphen ∨ body.head? = some equals then
          .error (.badSyntax argument)
        else
          let name := body.takeWhile (· ≠ equals)
          match Flag.named? flags name, body.drop name.length with
          | none, _ => .error (.unknownFlag name)
          | some flag, _ :: value =>
            if flag.takesValue then
              readArguments flags rest { call with options := { call.options with config := value } }
            else do
              let options ← setTruth flag value call.options
              readArguments flags rest { call with options }
          | some flag, [] =>
            if flag.takesValue then
              match rest with
              | value :: rest =>
                readArguments flags rest { call with options := { call.options with config := value } }
              | [] => .error (.missingValue argument)
            else readArguments flags rest { call with options := call.options.turn flag true }
      | _ => readArguments flags rest { call with operands := call.operands ++ [argument] }

def checkOperands (arity : Arity) (operands : List Bytes) : Except UsageError Unit :=
  let received := operands.length
  match arity with
  | .none =>
    match operands with
    | [] => .ok ()
    | name :: _ => .error (.unknownCommand name)
  | .any => .ok ()
  | .exactly count => if received = count then .ok () else .error (.notExactly count received)
  | .between least most =>
    if least ≤ received ∧ received ≤ most then .ok () else .error (.notBetween least most received)
  | .atLeast least => if least ≤ received then .ok () else .error (.tooFew least received)

end IgaArchive.CommandLine

import ForthAssembler.CommandLine.Size
import ForthAssembler.Text.Case
import ForthAssembler.Text.Visible
import ForthAssembler.Token.Classify

/-! The arguments of the program. -/
namespace ForthAssembler.CommandLine
open Text

inductive Flag
  | hex
  | foldCase
  | shortLiterals
  | trace
  | autoload
  | help
  deriving DecidableEq, Repr

inductive Setting
  | capacity
  | image
  | logLevel
  deriving DecidableEq, Repr

inductive Key
  | flag (flag : Flag)
  | setting (setting : Setting)
  deriving DecidableEq, Repr

def keys : List (String × Key) :=
  [("capacity", .setting .capacity), ("hex", .flag .hex), ("ucase", .flag .foldCase),
    ("short-literals", .flag .shortLiterals), ("trace", .flag .trace), ("image", .setting .image),
    ("autoload", .flag .autoload), ("log-level", .setting .logLevel), ("help", .flag .help)]

def Key.usage : Key → String
  | flag .hex => "--hex"
  | flag .foldCase => "--ucase"
  | flag .shortLiterals => "--short-literals"
  | flag .trace => "--trace"
  | flag .autoload => "--autoload"
  | flag .help => "--help"
  | setting .capacity => "--capacity <CAPACITY>"
  | setting .image => "--image <IMAGE>"
  | setting .logLevel => "--log-level <LOG_LEVEL>"

inductive UsageError
  | unexpectedArgument (argument : String)
  | unexpectedValue (flag : Flag) (value : String)
  | repeated (key : Key)
  | missingValue (setting : Setting)
  | invalidCapacity (value : String) (fault : SizeFault)
  | invalidLogLevel (value : String)
  | imageRequired
  deriving DecidableEq, Repr

/-- What is wrong, with arguments as they are shown. -/
def UsageError.text : UsageError → String
  | unexpectedArgument argument => "unexpected argument '" ++ visible argument ++ "' found"
  | unexpectedValue flag value =>
    "unexpected value '" ++ visible value ++ "' for '" ++ (Key.flag flag).usage ++
      "' found; no more were expected"
  | repeated key => "the argument '" ++ key.usage ++ "' cannot be used multiple times"
  | missingValue setting =>
    "a value is required for '" ++ (Key.setting setting).usage ++ "' but none was supplied"
  | invalidCapacity value fault =>
    "invalid value '" ++ visible value ++ "' for '" ++ (Key.setting .capacity).usage ++
      "': error: " ++ fault.message
  | invalidLogLevel value =>
    "invalid value '" ++ visible value ++ "' for '" ++ (Key.setting .logLevel).usage ++
      "': error parsing level: expected one of \"error\", \"warn\", \"info\", \"debug\", " ++
      "\"trace\", or a number 1-5"
  | imageRequired => "the following required arguments were not provided:"

/-- The first line of the text, which a line end inside of an argument cuts short. -/
def UsageError.message (error : UsageError) : String :=
  String.ofList (firstLine error.text.toList)

def Stop.message : Stop UsageError → String
  | refused error => error.message
  | overflow => "attempt to multiply with overflow"

/-- What is read from arguments, unless that stops. -/
abbrev Parsed := Except (Stop UsageError)

structure Given where
  keys : List Key := []
  capacity : Capacity := .standard
  image : Option String := none

structure Settings where
  capacity : Capacity
  options : Options
  image : Option String
  autoload : Bool

/-- What the arguments ask for. -/
inductive Request
  | help
  | session (settings : Settings)

def isLogLevel (text : String) : Bool :=
  (["error", "warn", "info", "debug", "trace"].any (sameName true text)) ||
    (natural? 10 text.toList).any fun n => 1 ≤ n && n ≤ 5

namespace Given

def note (given : Given) (key : Key) : Parsed Given :=
  if key ∈ given.keys then .error (.refused (.repeated key))
  else .ok { given with keys := key :: given.keys }

/-- Takes the value of a setting, which must not have been given before. -/
def accept (given : Given) (setting : Setting) (value : String) : Parsed Given := do
  let given ← given.note (.setting setting)
  match setting with
  | .capacity =>
    match readCapacity value with
    | .ok capacity => return { given with capacity }
    | .error (.refused fault) => throw (.refused (.invalidCapacity value fault))
    | .error .overflow => throw .overflow
  | .image =>
    if value.isEmpty then throw (.refused (.missingValue .image))
    return { given with image := some value }
  | .logLevel => if isLogLevel value then return given else throw (.refused (.invalidLogLevel value))

/-- Settles a setting whose value was to follow in the next argument. -/
def settle (given : Given) : Option (Setting × Option String) → Parsed Given
  | none => .ok given
  | some (setting, none) => .error (.refused (.missingValue setting))
  | some (setting, some value) => given.accept setting value

def toSettings (given : Given) : Parsed Settings :=
  let has (flag : Flag) : Bool := Key.flag flag ∈ given.keys
  if has .autoload && given.image.isNone then .error (.refused .imageRequired)
  else
    .ok {
      capacity := given.capacity
      options := {
        hex := has .hex
        foldCase := has .foldCase
        shortLiterals := has .shortLiterals
        trace := has .trace }
      image := given.image
      autoload := has .autoload }

/-- Asks for help, once the setting before it is settled. Nothing else has to be there. -/
def askHelp (given : Given) (waiting : Option (Setting × Option String)) : Parsed Request := do
  let _ ← given.settle waiting
  return .help

def askSession (given : Given) (waiting : Option (Setting × Option String)) : Parsed Request := do
  let given ← given.settle waiting
  return .session (← given.toSettings)

end Given

/-- The name of a long argument, and the value after its first `=`. -/
def splitValue (text : List Char) : String × Option String :=
  let name := String.ofList (text.takeWhile (· != '='))
  match text.dropWhile (· != '=') with
  | [] => (name, none)
  | _ :: value => (name, some (String.ofList value))

/-- Reads arguments from left to right, up to one that asks for help. A value that follows its setting
as an argument of its own is looked at only once the next argument is known. -/
def scan (given : Given) (waiting : Option (Setting × Option String)) :
    List String → Parsed Request
  | [] => given.askSession waiting
  | argument :: rest =>
    match argument.toList with
    | ['-', '-'] =>
      match rest with
      | [] => given.askSession waiting
      | extra :: _ => .error (.refused (.unexpectedArgument extra))
    | '-' :: '-' :: text =>
      match splitValue text with
      | (name, value?) =>
        match keys.lookup name, value? with
        | none, _ => .error (.refused (.unexpectedArgument ("--" ++ name)))
        | some (.flag flag), some value => .error (.refused (.unexpectedValue flag value))
        | some (.flag .help), none => given.askHelp waiting
        | some (.flag flag), none => do
          let given ← given.settle waiting
          scan (← given.note (.flag flag)) none rest
        | some (.setting setting), some value => do
          let given ← given.settle waiting
          scan (← given.accept setting value) none rest
        | some (.setting setting), none => do
          scan (← given.settle waiting) (some (setting, none)) rest
    | '-' :: 'h' :: _ => given.askHelp waiting
    | '-' :: c :: _ => .error (.refused (.unexpectedArgument (String.ofList ['-', c])))
    | _ =>
      match waiting with
      | some (setting, none) => scan given (some (setting, some argument)) rest
      | _ => .error (.refused (.unexpectedArgument argument))

def parse (arguments : List String) : Parsed Request :=
  scan {} none arguments

end ForthAssembler.CommandLine

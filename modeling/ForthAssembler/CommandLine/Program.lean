import ForthAssembler.CommandLine.Arguments
import ForthAssembler.Session.Run

/-! The program: an assembler set up from arguments, fed with the standard input. -/
namespace ForthAssembler.CommandLine

structure Result where
  exitCode : Nat
  output : String
  storage : Storage

/-- Loads the stored image if that is asked for; a failure to load is no error. -/
def start (settings : Settings) (storage : Storage) : Assembler :=
  let a := Assembler.new settings.capacity settings.options storage
  if settings.autoload then
    match Action.loadFromStorage.run a with
    | .ok _ a | .error _ a => a
  else a

def exitCode : Option Halt → Nat
  | none => 0
  | some (.refused _) => 1
  | some (.violated _) => 101

/-- The exit code where no request is read from the arguments. -/
def Stop.exitCode : Stop UsageError → Nat
  | refused _ => 2
  | overflow => 101

/-- The arguments that can be given. -/
def help : String :=
  let options := keys.map fun (_, key) => "  " ++ key.usage ++ "\n"
  "Usage: nForth [OPTIONS]\n\nOptions:\n" ++ String.join options

def run (request : Request) (storage : Storage) (input : List UInt8) : Result :=
  match request with
  | .help => { exitCode := 0, output := help, storage }
  | .session settings =>
    let (transcript, a) := Session.run (start settings storage) input
    { exitCode := exitCode transcript.halt, output := transcript.text, storage := a.storage }

end ForthAssembler.CommandLine

import ForthAssembler.CommandLine.Program

/-! The program's entry point. -/
namespace ForthAssembler.CommandLine

def reason : IO.Error → String
  | .inappropriateType _ code details | .permissionDenied _ code details =>
    details.capitalize ++ " (os error " ++ toString code ++ ")"
  | error => toString error

/-- The image file as a store; a file that does not exist is an empty one. -/
def openImage (path : String) : IO Storage := do
  try
    let bytes ← IO.FS.readBinFile path
    return .block none (some bytes.toList)
  catch
    | .noFileOrDirectory .. => return .empty
    | error => return .unusable (reason error)

def writeImage (path : String) (before after : Storage) : IO Unit := do
  match after.content? with
  | some bytes => if before != after then IO.FS.writeBinFile path ⟨bytes.toArray⟩
  | none => return

def runSession (settings : Settings) : IO UInt32 := do
  let storage ← match settings.image with
    | some path => openImage path
    | none => pure .empty
  let input ← (← IO.getStdin).readBinToEnd
  let result := run (.session settings) storage input.toList
  IO.print result.output
  if let some path := settings.image then writeImage path storage result.storage
  return UInt32.ofNat result.exitCode

end ForthAssembler.CommandLine

def main (arguments : List String) : IO UInt32 := do
  match ForthAssembler.CommandLine.parse arguments with
  | .ok .help =>
    IO.print ForthAssembler.CommandLine.help
    return 0
  | .ok (.session settings) => ForthAssembler.CommandLine.runSession settings
  | .error stop =>
    IO.eprintln ("error: " ++ stop.message)
    return UInt32.ofNat stop.exitCode

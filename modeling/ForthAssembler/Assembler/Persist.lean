import ForthAssembler.Assembler.Definition
import ForthAssembler.Image

/-! Saving, loading and resetting the image. -/
namespace ForthAssembler.Action

def save (autorun : Bool) : Action (List UInt8) := do
  requireClosed
  let dictionary := (← get).dictionary
  return Image.encode ⟨autorun, dictionary.head, dictionary.memory.allocated⟩

/-- Replaces the image with a saved one. Gives the code offset of its latest word if that is to
run. -/
def load (blob : List UInt8) : Action (Option Nat) := do
  requireClosed
  let dictionary := (← get).dictionary
  let image ← ofExcept ((Image.decode dictionary.memory.size blob).mapError .badImage)
  let restored ← ofExcept ((dictionary.restore image.bytes image.latest).mapError .badImage)
  setDictionary restored
  setFrames []
  setMode .interpret
  return if image.autorun then restored.latest?.map (·.code) else none

/-- Drops every word, any open definition and all literals. -/
def reset : Action Unit := do
  abort
  modify fun a => { a with dictionary := a.dictionary.reset, literals := [] }

/-- Saves the image into the store. Gives the number of bytes written. -/
def saveToStorage (autorun : Bool) : Action Nat := do
  let blob ← save autorun
  let storage := (← get).storage
  match storage.limit? with
  | some limit => if limit < blob.length then refuse (.outOfSpace blob.length limit)
  | none => pure ()
  let written ← ofExcept (storage.write blob)
  modify fun a => { a with storage := written }
  return blob.length

def loadFromStorage : Action (Option Nat) := do
  match ← ofExcept (← get).storage.read with
  | some blob => load blob
  | none => refuse (.badImage .nothingSaved)

end ForthAssembler.Action

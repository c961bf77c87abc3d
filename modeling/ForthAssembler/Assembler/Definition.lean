import ForthAssembler.Assembler.State

/-! Defining, closing, dropping and forgetting words. -/
namespace ForthAssembler.Action

/-- Appends code and closes branches. Gives the range of the code. -/
def commit (code : List UInt8) (patches : List Patch) : Action Outcome := do
  let dictionary := (← get).dictionary
  let (start, memory) ← ofHalting (dictionary.memory.commit code patches)
  setDictionary { dictionary with memory }
  return .compiled start memory.here

def emit (code : List Instr) (patches : List Patch) : Action Outcome := do
  commit (← ofExcept (Instr.encodeAll code)) patches

/-- Opens a definition, whose word stays hidden until it is closed. -/
def define (name : String) : Action Nat := do
  requireClosed
  let dictionary := (← get).dictionary
  let (address, extended) ← ofExcept (dictionary.push name true)
  setDictionary extended
  modify fun a =>
    { a with definition := some ⟨name, address, dictionary.head⟩, mode := .compile, frames := [] }
  return address

def close : Action Outcome := do
  let a ← get
  match a.definition, a.frames with
  | some definition, [] =>
    let start := a.here
    let _ ← emit [.ret] []
    let a ← get
    let stop := a.here
    setDictionary (← ofChecked a.dictionary.reveal)
    modify fun a => { a with definition := none, mode := .interpret }
    return .defined definition.name definition.address start stop
  | _, _ => refuse (.unbalanced ";")

/-- Throws away the open definition, and whatever is awaited. -/
def abort : Action Unit := do
  await .nothing
  setFrames []
  if let some definition := (← get).definition then
    modify fun a => { a with definition := none }
    let dictionary := (← get).dictionary
    setDictionary (← ofChecked (dictionary.truncate definition.address definition.previous))
  setMode .interpret

/-- Ends the input: an open definition is closed, and a word that still awaits its operand is an
error. -/
def finish : Action (Option Outcome) := do
  match ← takeAwaiting with
  | .operand => refuse (.unknownToken "LIT")
  | .text _ => refuse (.unknownToken ".\"")
  | .name use => refuse (.unknownToken use.spelling)
  | .nothing => if (← get).isCompiling then some <$> close else return none

def literalInstr (short : Bool) (value : Int16) : Instr :=
  if short ∧ 0 ≤ value.toInt ∧ value.toInt ≤ Instr.maxShort then .short (UInt8.ofNat value.toInt.toNat)
  else .literal value

/-- Appends a visible entry with its code, or nothing at all. -/
def defineWith (name : String) (body : List UInt8) : Action Nat := do
  let dictionary := (← get).dictionary
  let needed := Entry.nameOffset + (Text.utf8 name).length + body.length
  if dictionary.memory.unused < needed then
    refuse (.outOfSpace needed dictionary.memory.unused)
  let (address, extended) ← ofExcept (dictionary.push name false)
  setDictionary extended
  let _ ← commit body []
  return address

def cellSize : Nat := 2

/-- The instruction that pushes the address of the cell behind it and a return; short if that
address allows it. -/
def cellInstr (short : Bool) (code : Nat) : Instr :=
  if short ∧ code + 2 ≤ Instr.maxShort then .short (UInt8.ofNat (code + 2))
  else .literal (Cell.signed (code + 4))

/-- Defines a word that pushes the address of a cell of its own. -/
def defineVariable (name : String) : Action Nat := do
  requireClosed
  let a ← get
  let code := a.here + Entry.nameOffset + (Text.utf8 name).length
  let body ← ofExcept (Instr.encodeAll [cellInstr a.options.shortLiterals code, .ret])
  defineWith name (body ++ Cell.bytes 0)

def defineConstant (name : String) (value : Int16) : Action Nat := do
  requireClosed
  let short := (← get).options.shortLiterals
  let body ← ofExcept (Instr.encodeAll [literalInstr short value, .ret])
  defineWith name body

def forget (name : String) : Action Nat := do
  requireClosed
  let a ← get
  let (address, dictionary) ← ofHalting (a.dictionary.forget a.options.foldCase name)
  setDictionary dictionary
  return address

end ForthAssembler.Action

import ForthAssembler.Assembler.Definition

/-! Compiling tokens at the cursor. -/
namespace ForthAssembler.Action

/-- Appends the code of a control word, closes the branches that it ends, and changes the frames. -/
def control (word : Control) : Action Outcome := do
  let a ← get
  let plan ← ofExcept (word.plan a.here a.frames)
  let outcome ← emit plan.code plan.patches
  setFrames plan.frames
  return outcome

/-- Opens a loop at the cursor, which must be in reach of a branch. -/
def openLoop : Action Outcome := do
  let a ← get
  if Instr.maxTarget < a.here then refuse (.addressOverflow a.here)
  setFrames (.loop a.here [] :: a.frames)
  return .done

def compileWord : CompileWord → Action Outcome
  | .semicolon => close
  | .beginWord => openLoop
  | .ifWord => control .ifWord
  | .elseWord => control .elseWord
  | .thenWord => control .thenWord
  | .untilWord => control .untilWord
  | .againWord => control .againWord
  | .whileWord => control .whileWord
  | .repeatWord => control .repeatWord

def compileExtended : Extended → Action Outcome
  | .literal => do
    await .operand
    return .done
  | .text => do
    await (.text none)
    return .done
  | .index => emit [.index] []
  | .forLoop => control .forWord
  | .next => control .nextWord
  | .leave => control .breakWord

def compile : Token → Action Outcome
  | .number value => do emit [literalInstr (← get).options.shortLiterals value] []
  | .word code => emit [.call code] []
  | .primitive id => emit [.primitive id] []
  | .extended id =>
    match Extended.ofId? id with
    | some op => compileExtended op
    | none => refuse (.fieldOverflow id.toNat)
  | .compileWord word => compileWord word
  | .command command => refuse (.unknownToken command.name)
  | .unknown text => refuse (.unknownToken text)

end ForthAssembler.Action

import ForthAssembler.Assembler.Compile
import ForthAssembler.Assembler.Persist
import ForthAssembler.Report.Dump
import ForthAssembler.Report.Listing
import ForthAssembler.Report.Words

/-! Taking one word of input. -/
namespace ForthAssembler.Action

def reportLines (lines : List String) : Outcome := .report ("\n".intercalate lines)

/-- Takes two literals, the number of bytes above the offset, and dumps that part of the image. -/
def dump : Action Outcome := do
  match (← get).literals with
  | _ :: _ :: _ =>
    let length ← popLiteral
    let start ← popLiteral
    let lines := (← get).dictionary.memory.dump (Cell.unsigned start) (Cell.unsigned length)
    return reportLines (lines.map DumpLine.render)
  | _ => refuse .literalStackEmpty

def saveAndReport (autorun : Bool) : Action Outcome := do
  return .report (toString (← saveToStorage autorun) ++ " bytes saved")

def loadAndReport : Action Outcome := do
  let _ ← loadFromStorage
  return .report (toString (← get).here ++ " bytes loaded")

def toggleTrace : Action Outcome := do
  modify fun a => { a with options := { a.options with trace := !a.options.trace } }
  return .report (if (← get).options.trace then "trace on" else "trace off")

def setRadix (hex : Bool) : Action Outcome := do
  modify fun a => { a with options := { a.options with hex } }
  return .done

def awaitName (use : NameUse) : Action Outcome := do
  await (.name use)
  return .done

def command : Command → Action Outcome
  | .colon => awaitName .colon
  | .variable => awaitName .variable
  | .constant => awaitName .constant
  | .forget => awaitName .forget
  | .see => awaitName .see
  | .words => do
    let a ← get
    return .report (a.dictionary.vocabulary a.options.trace)
  | .dump => dump
  | .save => saveAndReport false
  | .saveAutorun => saveAndReport true
  | .load => loadAndReport
  | .hex => setRadix true
  | .decimal => setRadix false
  | .reset => do
    reset
    return .done
  | .query => return .report (← get).dictionary.status.render
  | .trace => toggleTrace

def named (use : NameUse) (name : String) : Action Outcome :=
  match use with
  | .colon => do
    let _ ← define name
    return .done
  | .variable => do
    let address ← defineVariable name
    return .defined name address address ((← get).here - cellSize)
  | .constant => do
    match (← get).literals with
    | [] => refuse .literalStackEmpty
    | value :: _ =>
      let address ← defineConstant name value
      let _ ← popLiteral
      return .defined name address address (← get).here
  | .forget => do
    let _ ← forget name
    return .done
  | .see => do
    let a ← get
    return reportLines (← ofExcept (a.dictionary.see a.options.foldCase name))

/-- The part of a word before a closing quote, if it ends in one. -/
def unquote? (word : String) : Option String :=
  if word.toList.getLast? = some '"' then some (String.ofList word.toList.dropLast) else none

/-- Adds a word to a string, which ends at a word with a closing quote. -/
def collect (collected : Option String) (word : String) : Action Outcome := do
  let part := (unquote? word).getD word
  let text := (collected.map (· ++ " ")).getD "" ++ part
  let size := (Text.utf8 text).length
  if Instr.maxText < size then refuse (.fieldOverflow size)
  if (unquote? word).isNone then
    await (.text (some text))
    return .done
  else if (← get).isCompiling then emit [.text (Text.utf8 text)] []
  else return .report text

def interpret : Token → Action Outcome
  | .number value => do
    pushLiteral value
    return .execute (.number value)
  | .extended id =>
    if id = Extended.text.id then do
      await (.text none)
      return .done
    else return .execute (.extended id)
  | .command c => command c
  | .compileWord word => refuse (.unknownToken word.name)
  | .unknown text => refuse (.unknownToken text)
  | token => return .execute token

def feed (text : String) : Action Outcome := do
  match ← takeAwaiting with
  | .name use => named use text
  | .operand =>
    match Token.parseNumber? (← get).options.radix text with
    | none => refuse (.unknownToken text)
    | some value => emit [.literal value] []
  | .text collected => collect collected text
  | .nothing =>
    let a ← get
    let token := a.classify text
    match a.mode with
    | .compile => compile token
    | .interpret => interpret token

end ForthAssembler.Action

import ForthAssembler.Instr.Mnemonic
import ForthAssembler.Text.Hex

/-! The words of the source language, by what they mean. -/
namespace ForthAssembler

/-- Words that act while a definition is compiled. -/
inductive CompileWord
  | semicolon
  | ifWord
  | elseWord
  | thenWord
  | beginWord
  | untilWord
  | againWord
  | whileWord
  | repeatWord
  deriving DecidableEq, Repr

/-- Words that the assembler itself carries out while no definition is open. -/
inductive Command
  | colon
  | variable
  | constant
  | forget
  | words
  | see
  | dump
  | save
  | saveAutorun
  | load
  | hex
  | decimal
  | reset
  | query
  | trace
  deriving DecidableEq, Repr

inductive Token
  | number (value : Int16)
  | word (code : Nat)
  | primitive (id : UInt8)
  | extended (id : UInt8)
  | compileWord (word : CompileWord)
  | command (command : Command)
  | unknown (text : String)
  deriving DecidableEq, Repr

namespace Mnemonic

def compileWords : List (Mnemonic CompileWord) :=
  [⟨";", ";", .semicolon⟩, ⟨"IF", "IF", .ifWord⟩, ⟨"ELS", "ELSE", .elseWord⟩,
    ⟨"THN", "THEN", .thenWord⟩, ⟨"BGN", "BEGIN", .beginWord⟩, ⟨"UTL", "UNTIL", .untilWord⟩,
    ⟨"AGN", "AGAIN", .againWord⟩, ⟨"WHL", "WHILE", .whileWord⟩, ⟨"RPT", "REPEAT", .repeatWord⟩]

def commands : List (Mnemonic Command) :=
  [⟨":", ":", .colon⟩, ⟨"VAR", "VARIABLE", .variable⟩, ⟨"VAL", "CONSTANT", .constant⟩,
    ⟨"FGT", "FORGET", .forget⟩, ⟨"WRD", "WORDS", .words⟩, ⟨"SEE", "SEE", .see⟩,
    ⟨"DMP", "DUMP", .dump⟩, ⟨"SAV", "SAVE", .save⟩, ⟨"SEX", "SEX", .saveAutorun⟩,
    ⟨"LD", "LOAD", .load⟩, ⟨"HEX", "HEX", .hex⟩, ⟨"DEC", "DECIMAL", .decimal⟩,
    ⟨"RST", "RESET", .reset⟩, ⟨"QRY", "QUERY", .query⟩, ⟨"TRACE", "TRACE", .trace⟩]

/-- The long spellings of all built-in words. -/
def builtins : List String :=
  commands.map (·.long) ++ compileWords.map (·.long) ++ extendeds.map (·.long) ++
    primitives.map (·.long)

end Mnemonic

def CompileWord.name (word : CompileWord) : String :=
  (Mnemonic.long? Mnemonic.compileWords word).getD "?"

def Command.name (command : Command) : String :=
  (Mnemonic.long? Mnemonic.commands command).getD "?"

def Token.label : Token → String
  | number value => "#" ++ toString value
  | word code => "word@" ++ Text.hexPadded 3 code
  | primitive id => primitiveLabel id
  | extended id => extendedLabel id
  | compileWord w => w.name
  | command c => c.name
  | unknown text => text ++ "?"

end ForthAssembler

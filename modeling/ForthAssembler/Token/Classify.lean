import ForthAssembler.Dictionary.Basic
import ForthAssembler.Token.Basic
import ForthAssembler.Token.Number

/-! The meaning of input words. -/
namespace ForthAssembler

/-- Settings that a session can start with. -/
structure Options where
  /-- Numbers without a radix sign are hexadecimal. -/
  hex : Bool := false
  /-- Names match regardless of the case of ASCII letters. -/
  foldCase : Bool := false
  /-- Numbers from 0 to 127 compile to one byte. -/
  shortLiterals : Bool := false
  /-- What is compiled is listed. -/
  trace : Bool := false
  deriving DecidableEq, Repr

def Options.radix (options : Options) : Nat := if options.hex then 16 else 10

inductive Mode
  | interpret
  | compile
  deriving DecidableEq, Repr

namespace Token

def modeWord? (mode : Mode) (foldCase : Bool) (text : String) : Option Token :=
  match mode with
  | .interpret => (Mnemonic.find? foldCase Mnemonic.commands text).map command
  | .compile => (Mnemonic.find? foldCase Mnemonic.compileWords text).map compileWord

/-- The built-in word with this spelling; words of the mode come first. -/
def builtin? (mode : Mode) (foldCase : Bool) (text : String) : Option Token :=
  modeWord? mode foldCase text <|>
    (Mnemonic.find? foldCase Mnemonic.primitives text).map primitive <|>
    (Mnemonic.find? foldCase Mnemonic.extendeds text).map fun op => extended op.id

/-- The meaning of a word. User words hide built-in ones, and those hide numbers. -/
def classify (dictionary : Dictionary) (mode : Mode) (options : Options) (text : String) : Token :=
  let userWord := (dictionary.find? options.foldCase text).map fun entry => word entry.code
  let literal := (parseNumber? options.radix text).map number
  (userWord <|> builtin? mode options.foldCase text <|> literal).getD (unknown text)

end Token
end ForthAssembler

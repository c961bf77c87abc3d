import ForthAssembler.Error
import ForthAssembler.Token.Basic

/-! Records of what a session prints and hands over. -/
namespace ForthAssembler

/-- One word of the input that was fed, what was printed for it, and the token that is left to be
run. -/
structure Exchange where
  word : String
  printed : List String
  executed : Option Token
  deriving DecidableEq, Repr

structure Transcript where
  greeting : List String
  exchanges : List Exchange
  farewell : List String
  halt : Option Halt
  deriving DecidableEq, Repr

namespace Transcript

/-- The texts printed, each to be followed by a line feed. -/
def printed (t : Transcript) : List String :=
  t.greeting ++ t.exchanges.flatMap (·.printed) ++ t.farewell

def text (t : Transcript) : String :=
  String.join (t.printed.map (· ++ "\n"))

def executed (t : Transcript) : List Token :=
  t.exchanges.filterMap (·.executed)

end Transcript
end ForthAssembler

import ForthAssembler.Error

/-! Backing stores that keep at most one saved image. -/
namespace ForthAssembler

/-- A store of one block, or one that can be neither read nor written. -/
inductive Storage
  | block (limit : Option Nat) (content : Option (List UInt8))
  | unusable (reason : String)
  deriving DecidableEq, Repr

namespace Storage

def empty : Storage := block none none

/-- An empty store for blocks of at most `limit` bytes. -/
def limited (limit : Nat) : Storage := block (some limit) none

/-- The size that a block may have; writing does not check it. -/
def limit? : Storage → Option Nat
  | block limit _ => limit
  | unusable _ => none

def content? : Storage → Option (List UInt8)
  | block _ content => content
  | unusable _ => none

def write (bytes : List UInt8) : Storage → Except Error Storage
  | block limit _ => .ok (block limit (some bytes))
  | unusable reason => .error (.unavailable reason)

def read : Storage → Except Error (Option (List UInt8))
  | block _ content => .ok content
  | unusable reason => .error (.unavailable reason)

end Storage
end ForthAssembler

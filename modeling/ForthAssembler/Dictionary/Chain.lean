import ForthAssembler.Dictionary.Entry
import ForthAssembler.Error

/-! Validation of the chain of entries in the bytes of an image. -/
namespace ForthAssembler.Chain
open Text

/-- Accepts the bytes if the chain from `head` runs strictly backwards from below `upper`, with
every header inside the image and every name a non-empty text. -/
def check (bytes : List UInt8) (upper : Nat) : Link → Except ImageFault Unit
  | none => .ok ()
  | some address =>
    if _h : address < upper then
      match (bytes.drop address).take Entry.nameOffset with
      | [high, low, tag] =>
        let name := (bytes.drop (address + Entry.nameOffset)).take (Tag.nameLength tag)
        if name.length < Tag.nameLength tag then .error .truncatedEntry
        else if Tag.nameLength tag = 0 ∨ ofUtf8? name = none then .error .invalidName
        else check bytes address (Link.ofCell (Cell.value high low))
      | _ => .error .truncatedEntry
    else .error .brokenLink
termination_by upper

end ForthAssembler.Chain

import ForthAssembler.Dictionary.Chain
import ForthAssembler.Text.Case

/-! A chain of named entries inside a memory, which holds their code as well. -/
namespace ForthAssembler
open Text

/-- The entries at and before an offset. Links point backwards; any other ends the chain. -/
def Memory.entriesFrom (m : Memory) (address : Nat) : List Entry :=
  let entry := Entry.read m address
  match entry.link with
  | none => [entry]
  | some older => if older < address then entry :: m.entriesFrom older else [entry]
termination_by address

/-- The memory and the offset of its most recent entry. -/
structure Dictionary where
  memory : Memory
  head : Link

namespace Dictionary

def blank (capacity : Capacity) : Dictionary := ⟨.blank capacity, none⟩

def here (d : Dictionary) : Nat := d.memory.here

def latest? (d : Dictionary) : Option Entry := d.head.map (Entry.read d.memory)

def entries (d : Dictionary) : List Entry :=
  match d.head with
  | none => []
  | some address => d.memory.entriesFrom address

def visible (d : Dictionary) : List Entry := d.entries.filter (!·.hidden)

/-- Names of the visible entries, the most recent first. -/
def words (d : Dictionary) : List String := d.visible.map (·.name)

def find? (d : Dictionary) (foldCase : Bool) (name : String) : Option Entry :=
  d.entries.find? fun entry => !entry.hidden && sameName foldCase entry.name name

def push (d : Dictionary) (name : String) (hidden : Bool) : Except Error (Nat × Dictionary) :=
  let length := (utf8 name).length
  if length = 0 ∨ length > Tag.maxName then .error (.invalidName name)
  else
    let header := Entry.header d.head hidden name
    match d.memory.push? header with
    | none => .error (.outOfSpace header.length d.memory.unused)
    | some (address, memory) => .ok (address, ⟨memory, some address⟩)

def reveal (d : Dictionary) : Except Assertion Dictionary :=
  match d.latest? with
  | none => .ok d
  | some entry =>
    match d.memory.set8? (entry.address + Entry.tagOffset) (Tag.revealed entry.tag) with
    | none => .error .latestAllocated
    | some memory => .ok { d with memory }

/-- Moves back both the cursor and the head. -/
def truncate (d : Dictionary) (here : Nat) (head : Link) : Except Assertion Dictionary :=
  match d.memory.rewind? here with
  | none => .error .rewindWithinAllocated
  | some memory =>
    if head.all (· < here) then .ok ⟨memory, head⟩ else .error .headBelowCursor

/-- Drops the most recent visible entry with a name and all that came after it, and gives its
offset. -/
def forget (d : Dictionary) (foldCase : Bool) (name : String) : Except Halt (Nat × Dictionary) :=
  match d.find? foldCase name with
  | none => .error (.refused (.unknownWord name))
  | some entry =>
    match d.truncate entry.address entry.link with
    | .error assertion => .error (.violated assertion)
    | .ok d => .ok (entry.address, d)

def reset (d : Dictionary) : Dictionary := ⟨d.memory.clear, none⟩

/-- Replaces the whole image, once its chain is validated. -/
def restore (d : Dictionary) (bytes : List UInt8) (head : Link) : Except ImageFault Dictionary := do
  if bytes.length > d.memory.size then throw .tooLarge
  Chain.check bytes bytes.length head
  match d.memory.restore? bytes with
  | none => throw .tooLarge
  | some memory => return ⟨memory, head⟩

end Dictionary
end ForthAssembler

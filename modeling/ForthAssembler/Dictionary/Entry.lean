import ForthAssembler.Memory.Basic
import ForthAssembler.Text.Hex
import ForthAssembler.Text.Utf8

/-! Entry headers: a link cell, a tag byte with two flags and the length of the name, and the name.
The code of the entry follows. -/
namespace ForthAssembler
open Text

/-- The offset of an older entry, kept in a cell. -/
abbrev Link := Option Nat

namespace Link

/-- The cell that ends the chain. -/
def endCell : Nat := 0xffff

def cell (link : Link) : Nat := link.getD endCell

def ofCell (n : Nat) : Link := if n = endCell then none else some n

theorem ofCell_cell {link : Link} (h : ∀ n ∈ link, n < endCell) : ofCell (cell link) = link := by
  cases link with
  | none => rfl
  | some n => simp [ofCell, cell, Nat.ne_of_lt (h n rfl)]

theorem cell_ofCell (n : Nat) : cell (ofCell n) = n := by
  unfold ofCell
  split <;> simp_all [cell]

end Link

namespace Tag

def maxName : Nat := 63

def hiddenFlag : Nat := 64

def nameLength (tag : UInt8) : Nat := tag.toNat % 64

/-- The flag bits, in place. -/
def flags (tag : UInt8) : Nat := tag.toNat / 64 * 64

def isHidden (tag : UInt8) : Bool := tag.toNat / hiddenFlag % 2 == 1

def ofName (hidden : Bool) (length : Nat) : UInt8 :=
  UInt8.ofNat ((if hidden then hiddenFlag else 0) + length)

def revealed (tag : UInt8) : UInt8 :=
  if isHidden tag then UInt8.ofNat (tag.toNat - hiddenFlag) else tag

theorem nameLength_revealed (tag : UInt8) : nameLength (revealed tag) = nameLength tag := by
  have := tag.toNat_lt
  unfold revealed isHidden nameLength hiddenFlag
  split
  · simp_all only [beq_iff_eq, UInt8.toNat_ofNat']
    omega
  · rfl

theorem isHidden_revealed (tag : UInt8) : isHidden (revealed tag) = false := by
  have := tag.toNat_lt
  unfold revealed
  split
  · simp_all only [isHidden, hiddenFlag, beq_iff_eq, UInt8.toNat_ofNat', beq_eq_false_iff_ne]
    omega
  · rename_i h
    exact Bool.eq_false_iff.mpr h

theorem nameLength_ofName {hidden : Bool} {length : Nat} (h : length ≤ maxName) :
    nameLength (ofName hidden length) = length := by
  simp only [maxName] at h
  cases hidden <;> simp [nameLength, ofName, hiddenFlag] <;> omega

theorem isHidden_ofName {hidden : Bool} {length : Nat} (h : length ≤ maxName) :
    isHidden (ofName hidden length) = hidden := by
  simp only [maxName] at h
  cases hidden <;> simp [isHidden, ofName, hiddenFlag] <;> omega

end Tag

/-- Where the tag stands in a header. -/
def Entry.tagOffset : Nat := 2

/-- Where the name stands in a header. -/
def Entry.nameOffset : Nat := 3

def Entry.header (link : Link) (hidden : Bool) (name : String) : List UInt8 :=
  Cell.bytes link.cell ++ Tag.ofName hidden (utf8 name).length :: utf8 name

structure Entry where
  address : Nat
  link : Link
  tag : UInt8
  name : String
  deriving DecidableEq, Repr

namespace Entry

/-- Reads the entry at an offset. What is not allocated reads as an end of chain and an empty tag,
and cuts the name short; a name that is no text reads as `?`. -/
def read (m : Memory) (address : Nat) : Entry :=
  let tag := (m.get8? (address + tagOffset)).getD 0
  let start := address + nameOffset
  { address, tag
    link := (m.get16? address).bind Link.ofCell
    name := (ofUtf8? (m.range start (start + Tag.nameLength tag))).getD "?" }

def hidden (entry : Entry) : Bool := Tag.isHidden entry.tag

def flags (entry : Entry) : Nat := Tag.flags entry.tag

def code (entry : Entry) : Nat := entry.address + nameOffset + Tag.nameLength entry.tag

def describe (entry : Entry) : String :=
  "DictEntryRef \x7b addr: 0x" ++ hexPadded 3 entry.address ++
    ", prev: 0x" ++ hexPadded 4 entry.link.cell ++
    ", name: " ++ entry.name ++
    ", flags: 0x" ++ hex entry.flags ++
    ", definition_addr: 0x" ++ hexPadded 3 entry.code ++ " \x7d"

end Entry
end ForthAssembler

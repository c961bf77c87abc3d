import ForthAssembler.Memory.Basic
import ForthAssembler.Text.Digits

/-! Sizes given on a command line. -/
namespace ForthAssembler.CommandLine
open Text

inductive SizeFault
  | empty
  | noDigits
  | invalidDigit
  | numberTooLarge
  | outOfRange
  deriving DecidableEq, Repr

def SizeFault.message : SizeFault → String
  | empty => "empty value"
  | noDigits => "cannot parse integer from empty string"
  | invalidDigit => "invalid digit found in string"
  | numberTooLarge => "number too large to fit in target type"
  | outOfRange => "capacity must be between 1 and " ++ toString maxCapacity ++ " bytes"

/-- Why no value is read: what is given is refused, or the size that it stands for overflows 64
bits, which stops the program. -/
inductive Stop (ε : Type)
  | refused (error : ε)
  | overflow
  deriving DecidableEq, Repr

/-- The number that further digits add to, which has to stay below `2 ^ 64`. -/
def readDigits (value : Nat) : List Char → Except SizeFault Nat
  | [] => .ok value
  | c :: rest =>
    match digit? 10 c with
    | none => .error .invalidDigit
    | some digit =>
      let next := value * 10 + digit
      if next < 2 ^ 64 then readDigits next rest else .error .numberTooLarge

def readNumber : List Char → Except SizeFault Nat
  | [] => .error .noDigits
  | ['+'] => .error .invalidDigit
  | '+' :: digits => readDigits 0 digits
  | digits => readDigits 0 digits

/-- Splits off a unit: `b` for bytes, which is also the default, and `k` for 1024 bytes. -/
def splitUnit (text : List Char) : Nat × List Char :=
  match text.getLast? with
  | some 'b' => (1, text.dropLast)
  | some 'k' => (1024, text.dropLast)
  | _ => (1, text)

/-- The product of a number and its unit, which is relied on to fit 64 bits. -/
def multiply (number unit : Nat) : Except (Stop SizeFault) Nat :=
  if number * unit < UInt64.size then .ok (number * unit) else .error .overflow

def readCapacity (text : String) : Except (Stop SizeFault) Capacity := do
  if text.isEmpty then throw (.refused .empty)
  let (unit, digits) := splitUnit text.toList
  let number ← (readNumber digits).mapError .refused
  let bytes ← multiply number unit
  match Capacity.ofNat? bytes with
  | some capacity => return capacity
  | none => throw (.refused .outOfRange)

end ForthAssembler.CommandLine

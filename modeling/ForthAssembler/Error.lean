import ForthAssembler.Text.Hex

/-! Why an operation is refused, and what it takes for granted. -/
namespace ForthAssembler
open Text

inductive ImageFault
  | truncatedHeader
  | badSignature
  | tooLarge
  | latestOutside
  | lengthMismatch
  | brokenLink
  | truncatedEntry
  | invalidName
  | nothingSaved
  deriving DecidableEq, Repr

inductive Error
  | unknownToken (text : String)
  | fieldOverflow (value : Nat)
  | addressOverflow (address : Nat)
  | outOfSpace (needed unused : Nat)
  | unbalanced (word : String)
  | unknownWord (name : String)
  | badImage (fault : ImageFault)
  | invalidName (name : String)
  | definitionOpen
  | literalStackEmpty
  | unavailable (reason : String)
  deriving DecidableEq, Repr

/-- Conditions that operations on the image rely on. They can fail only on an image whose entries
overlap, or on code that was compiled outside of a definition. -/
inductive Assertion
  | rewindWithinAllocated
  | headBelowCursor
  | latestAllocated
  | siteAllocated
  deriving DecidableEq, Repr

inductive Halt
  | refused (error : Error)
  | violated (assertion : Assertion)
  deriving DecidableEq, Repr

def ImageFault.message : ImageFault → String
  | truncatedHeader => "truncated header"
  | badSignature => "bad signature"
  | tooLarge => "image larger than dictionary"
  | latestOutside => "latest word outside of image"
  | lengthMismatch => "image length mismatch"
  | brokenLink => "broken dictionary link"
  | truncatedEntry => "truncated dictionary entry"
  | invalidName => "invalid word name"
  | nothingSaved => "nothing saved"

def Error.message : Error → String
  | unknownToken text => "unknown token '" ++ text ++ "'"
  | fieldOverflow value => "value 0x" ++ hex value ++ " does not fit its opcode field"
  | addressOverflow address => "address 0x" ++ hex address ++ " is out of branch range"
  | outOfSpace needed unused =>
    "out of space, " ++ toString needed ++ " bytes needed but " ++ toString unused ++ " unused"
  | unbalanced word => "unbalanced control structure at '" ++ word ++ "'"
  | unknownWord name => "unknown word '" ++ name ++ "'"
  | badImage fault => "image format mismatch: " ++ fault.message
  | invalidName name => "invalid word name '" ++ name ++ "'"
  | definitionOpen => "not allowed while a definition is open"
  | literalStackEmpty => "literal stack is empty"
  | unavailable reason => reason

end ForthAssembler

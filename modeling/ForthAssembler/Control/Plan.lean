import ForthAssembler.Control.Patch

/-! Control structures, compiled in one pass over a stack of open frames. -/
namespace ForthAssembler

/-- An open control structure. A site is the offset of a branch without a target, a top that of
the first instruction of a loop, and breaks are the sites of jumps that leave it. -/
inductive Frame
  /-- From `IF` on. -/
  | cond (site : Nat)
  /-- From `ELSE` on. -/
  | alt (site : Nat)
  /-- From `BEGIN` on. -/
  | loop (top : Nat) (breaks : List Nat)
  /-- From `WHILE` on, above its `BEGIN`. -/
  | guard (site : Nat)
  /-- From `FOR` on. -/
  | counted (top : Nat) (breaks : List Nat)
  deriving DecidableEq, Repr

/-- The words that compile branches. -/
inductive Control
  | ifWord
  | elseWord
  | thenWord
  | untilWord
  | againWord
  | whileWord
  | repeatWord
  | forWord
  | nextWord
  | breakWord
  deriving DecidableEq, Repr

/-- What a control word does: the instructions it appends, the branches it closes, and the frames
that are open after it. -/
structure Plan where
  code : List Instr
  patches : List Patch
  frames : List Frame
  deriving DecidableEq, Repr

namespace Control

def name : Control → String
  | ifWord => "IF"
  | elseWord => "ELSE"
  | thenWord => "THEN"
  | untilWord => "UNTIL"
  | againWord => "AGAIN"
  | whileWord => "WHILE"
  | repeatWord => "REPEAT"
  | forWord => "FOR"
  | nextWord => "NEXT"
  | breakWord => "BRK"

/-- Points several sites to one target. -/
def toward (target : Nat) (sites : List Nat) : List Patch :=
  sites.map fun site => ⟨site, target⟩

/-- The instructions that leave the innermost loop, whose frame gets the site of the jump. -/
def leaveLoop? (here : Nat) : List Frame → Option (List Instr × List Frame)
  | [] => none
  | .loop top breaks :: frames => some ([.jump 0], .loop top (breaks ++ [here]) :: frames)
  | .counted top breaks :: frames =>
    some ([.leave, .jump 0], .counted top (breaks ++ [here + 1]) :: frames)
  | frame :: frames => (leaveLoop? here frames).map fun (code, frames) => (code, frame :: frames)

/-- What a control word does when the code so far ends at `here`. -/
def plan (word : Control) (here : Nat) (frames : List Frame) : Except Error Plan :=
  match word, frames with
  | ifWord, frames => .ok ⟨[.jumpZero 0], [], .cond here :: frames⟩
  | elseWord, .cond site :: frames => .ok ⟨[.jump 0], [⟨site, here + 2⟩], .alt here :: frames⟩
  | thenWord, .cond site :: frames | thenWord, .alt site :: frames =>
    .ok ⟨[], [⟨site, here⟩], frames⟩
  | untilWord, .loop top breaks :: frames =>
    .ok ⟨[.jumpZero top], toward (here + 2) breaks, frames⟩
  | untilWord, .guard site :: .loop top breaks :: frames =>
    .ok ⟨[.jumpZero top], toward (here + 2) (breaks ++ [site]), frames⟩
  | againWord, .loop top breaks :: frames => .ok ⟨[.jump top], toward (here + 2) breaks, frames⟩
  | whileWord, .loop top breaks :: frames =>
    .ok ⟨[.jumpZero 0], [], .guard here :: .loop top breaks :: frames⟩
  | repeatWord, .guard site :: .loop top breaks :: frames =>
    .ok ⟨[.jump top], toward (here + 2) (site :: breaks), frames⟩
  | forWord, frames => .ok ⟨[.forLoop], [], .counted (here + 1) [] :: frames⟩
  | nextWord, .counted top breaks :: frames =>
    .ok ⟨[.next, .jump top], toward (here + 3) breaks, frames⟩
  | breakWord, frames =>
    match leaveLoop? here frames with
    | some (code, frames) => .ok ⟨code, [], frames⟩
    | none => .error (.unbalanced word.name)
  | _, _ => .error (.unbalanced word.name)

end Control
end ForthAssembler

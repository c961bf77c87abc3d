import ForthAssembler.Proofs.Dictionary.Words
import ForthAssembler.Session.Operation

/-! What operations do to the words of a dictionary, and the states that sessions lead to. -/
namespace ForthAssembler
open Text

/-- The words of the image, the newest first, and those of the image that the store keeps. -/
structure Ledger where
  words : List Word
  stored : Option (List Word)

/-- What an operation that succeeds does to the words. -/
inductive Event
  | kept
  /-- One more word. -/
  | added (making : Making) (name : String)
  /-- The newest word with a name is dropped, and all newer ones. -/
  | forgot (name : String)
  | cleared
  /-- The image is saved into the store. -/
  | stored
  /-- The image is loaded from the store. -/
  | restored

namespace Ledger

/-- One more word, whose body is what stands behind its header in an image. -/
def add (l : Ledger) (making : Making) (name : String) (image : List UInt8) : Ledger :=
  { l with words := ⟨name, image.drop (Word.code l.words name), making⟩ :: l.words }

/-- The ledger after an event, with the bytes of the image then. -/
def after (l : Ledger) (foldCase : Bool) (image : List UInt8) : Event → Ledger
  | .kept => l
  | .added making name => l.add making name image
  | .forgot name => { l with words := Word.forget foldCase name l.words }
  | .cleared => { l with words := [] }
  | .stored => { l with stored := some l.words }
  | .restored => { l with words := l.stored.getD [] }

end Ledger

namespace Event

/-- What a command does. -/
def ofCommand : Command → Event
  | .reset => .cleared
  | .save | .saveAutorun => .stored
  | .load => .restored
  | _ => .kept

/-- What a command does with the name that it takes. -/
def ofName (name : String) : NameUse → Event
  | .«variable» | .constant => .added .data name
  | .forget => .forgot name
  | .colon | .see => .kept

/-- What a word that awaits no other does. -/
def ofToken (definition : Option Definition) : Token → Event
  | .compileWord .semicolon =>
    match definition with
    | some definition => .added .colon definition.name
    | none => .kept
  | .command command => ofCommand command
  | _ => .kept

end Event

/-- What a word of input does. -/
def Assembler.event (a : Assembler) (text : String) : Event :=
  match a.awaiting with
  | .name use => .ofName text use
  | .operand | .text _ => .kept
  | .nothing => .ofToken a.definition (a.classify text)

namespace Operation

def event (a : Assembler) : Operation → Event
  | feed text => a.event text
  | defineVariable name | defineConstant name _ => .added .data name
  | forget name => .forgot name
  | finish => .ofToken a.definition (.compileWord .semicolon)
  | reset => .cleared
  | saveToStorage _ => .stored
  | loadFromStorage => .restored
  | _ => .kept

/-- All operations but compiling a token or closing a definition behind the back of the input, and
loading bytes, which need not be an image. -/
def Ordinary : Operation → Prop
  | compile _ | close | load _ => False
  | _ => True

/-- The operation is not made of others. -/
def Single : Operation → Prop
  | run _ => False
  | _ => True

/-- The state after an operation, whatever comes of it. -/
def settle (a : Assembler) (operation : Operation) : Assembler :=
  match operation.perform.run a with
  | .ok _ a' | .error _ a' => a'

theorem settle_of_ok {operation : Operation} {reply : Reply} {a b : Assembler}
    (h : operation.perform.run a = .ok reply b) : operation.settle a = b := by
  rw [settle, h]

theorem settle_of_error {operation : Operation} {halt : Halt} {a b : Assembler}
    (h : operation.perform.run a = .error halt b) : operation.settle a = b := by
  rw [settle, h]

theorem settle_run (input : List UInt8) (a : Assembler) :
    (run input).settle a = (Session.run a input).2 := by
  simp only [settle, perform, Functor.map, EStateM.map, EStateM.run, Action.session]
  cases (Session.run a input).1.halt with
  | none => rfl
  | some halt => cases halt <;> rfl

end Operation

/-- The states that ordinary operations lead to. Bytes may be loaded if some session has saved them,
and a new session may use the store of another one. -/
inductive Reachable : Assembler → Prop
  | start (capacity : Capacity) (options : Options) {storage : Storage}
      (hempty : storage.content? = none) : Reachable (.new capacity options storage)
  | restart (capacity : Capacity) (options : Options) {a : Assembler} (h : Reachable a) :
      Reachable (.new capacity options a.storage)
  | perform {a : Assembler} (h : Reachable a) {operation : Operation} (hop : operation.Ordinary) :
      Reachable (operation.settle a)
  | load {a b b' : Assembler} (h : Reachable a) (h' : Reachable b) {autorun : Bool}
      {blob : List UInt8} (hsave : (Action.save autorun).run b = .ok blob b') :
      Reachable ((Operation.load blob).settle a)

/-- Single operations lead from a state and its words to others. What is refused does nothing to the
words. -/
inductive Leads (a : Assembler) (l : Ledger) : Assembler → Ledger → Prop
  | refl : Leads a l a l
  | perform {b b' : Assembler} {m : Ledger} (h : Leads a l b m) {operation : Operation}
      {reply : Reply} (hop : operation.Ordinary) (hsingle : operation.Single)
      (hok : operation.perform.run b = .ok reply b') :
      Leads a l b' (m.after b.options.foldCase b'.dictionary.memory.allocated (operation.event b))
  | refuse {b b' : Assembler} {m : Ledger} (h : Leads a l b m) {operation : Operation} {e : Error}
      (hop : operation.Ordinary) (hsingle : operation.Single)
      (hrefused : operation.perform.run b = .error (.refused e) b') : Leads a l b' m

/-- The states that sessions lead to, with the words that were defined and not dropped since. -/
inductive History : Assembler → Ledger → Prop
  | start (capacity : Capacity) (options : Options) {storage : Storage}
      (hempty : storage.content? = none) : History (.new capacity options storage) ⟨[], none⟩
  | restart (capacity : Capacity) (options : Options) {a : Assembler} {l : Ledger}
      (h : History a l) : History (.new capacity options a.storage) ⟨[], l.stored⟩
  | leads {a a' : Assembler} {l l' : Ledger} (h : History a l) (hleads : Leads a l a' l') :
      History a' l'
  | load {a a' b b' : Assembler} {l m : Ledger} (h : History a l) (h' : History b m)
      {autorun : Bool} {blob : List UInt8} {reply : Reply}
      (hsave : (Action.save autorun).run b = .ok blob b')
      (hok : (Operation.load blob).perform.run a = .ok reply a') :
      History a' ⟨m.words, l.stored⟩
  | refuseLoad {a a' b b' : Assembler} {l m : Ledger} (h : History a l) (h' : History b m)
      {autorun : Bool} {blob : List UInt8} {e : Error}
      (hsave : (Action.save autorun).run b = .ok blob b')
      (hrefused : (Operation.load blob).perform.run a = .error (.refused e) a') : History a' l

/-- The image consists of the words, and of one more that is hidden while it is being defined. -/
structure Represents (words : List Word) (a : Assembler) : Prop where
  legal : Word.Legal words
  closed : a.definition = none →
    a.dictionary.memory.allocated = Word.image words ∧ a.dictionary.head = Word.latest words ∧
      a.here = (Word.image words).length
  opened : ∀ definition, a.definition = some definition → ∃ code,
    a.dictionary.memory.allocated =
      Word.image words ++ Entry.header (Word.latest words) true definition.name ++ code ∧
    a.dictionary.head = some (Word.image words).length

end ForthAssembler

import ForthAssembler.Proofs.Assembler.Reading
import ForthAssembler.Proofs.Session.Interpreting
import ForthAssembler.Proofs.Session.RoundTrip

/-! The sources of words: what has to be known to define them again. -/
namespace ForthAssembler
open Text

/-- What a word is made of. -/
inductive Content
  /-- The words of the body, up to the closing one. -/
  | colon (body : List String)
  | variable
  | constant (value : Int16)
  deriving DecidableEq, Repr

/-- A definition as it was given: the radix in force, the name, and what it is made of. -/
structure Source where
  hex : Bool
  name : String
  content : Content
  deriving DecidableEq, Repr

namespace Source

/-- The operations that define the word. -/
def operations (source : Source) : List Operation :=
  match source.content with
  | .colon body => .define source.name :: body.map .feed
  | .variable => [.defineVariable source.name]
  | .constant value => [.defineConstant source.name value]

/-- Defines the word, up to the first operation that fails. -/
def make (source : Source) : Action Unit := do
  let _ ← Action.setRadix source.hex
  Operation.performAll source.operations

/-- The sources older than the newest one with a name. -/
def forget (foldCase : Bool) (name : String) : List Source → List Source
  | [] => []
  | source :: older =>
    if sameName foldCase source.name name then older else forget foldCase name older

end Source

/-- The sources of the words in the dictionary, the newest first, and the words of input that the
open definition has taken. -/
structure Journal where
  sources : List Source
  body : List String
  deriving DecidableEq, Repr

/-- The sources after a word of input that is accepted while no definition is open. -/
def Assembler.survivors (a : Assembler) (word : String) (sources : List Source) : List Source :=
  match a.awaiting with
  | .name .variable => ⟨a.options.hex, word, .variable⟩ :: sources
  | .name .constant =>
    match a.literals with
    | value :: _ => ⟨a.options.hex, word, .constant value⟩ :: sources
    | [] => sources
  | .name .forget => Source.forget a.options.foldCase word sources
  | .nothing => if a.classify word = .command .reset then [] else sources
  | _ => sources

/-- The journal after a word of input. A refusal ends the definition that is open. -/
def Journal.after (j : Journal) (a : Assembler) (word : String) : Journal :=
  match (Action.feed word).run a with
  | .error _ _ => { j with body := [] }
  | .ok _ a' =>
    match a.definition with
    | none => ⟨a.survivors word j.sources, []⟩
    | some definition =>
      if a'.isCompiling then { j with body := j.body ++ [word] }
      else ⟨⟨a.options.hex, definition.name, .colon (j.body ++ [word])⟩ :: j.sources, []⟩

namespace Session

/-- The state after a word that is fed. After a refusal the open definition is dropped. -/
def settle (a : Assembler) (word : String) : Assembler := (feed a word).2.1

/-- The journal after some words. -/
def journal : List String → Assembler → Journal → Journal
  | [], _, j => j
  | word :: rest, a, j => journal rest (settle a word) (j.after a word)

/-- The word brings back an image that was saved. -/
def loads (a : Assembler) (word : String) : Bool :=
  match (Action.feed word).run a with
  | .ok _ _ => a.awaiting = .nothing ∧ a.classify word = .command .load
  | .error _ _ => false

/-- None of the words brings back an image. -/
def unloaded : List String → Assembler → Bool
  | [], _ => true
  | word :: rest, a => !loads a word && unloaded rest (settle a word)

end Session

namespace Assembler
variable {a a' r : Assembler}

/-- `r` differs from `a` only behind the cursor, in the literals, the store and the tracing. -/
abbrev Shadows (r a : Assembler) : Prop :=
  a.Similar { storage := False, literals := False, tracing := False } r

/-- The image is that of the words, and the assembler is set up to define more of them. -/
structure Ready (capacity : Capacity) (options : Options) (words : List Word) (r : Assembler) : Prop
    extends Holds words r where
  size : r.dictionary.memory.size = capacity.bytes
  awaiting : r.awaiting = .nothing
  rules : options.SameRules r.options

namespace Ready
variable {capacity : Capacity} {options : Options} {words : List Word}

theorem new (capacity : Capacity) (options : Options) (storage : Storage) :
    Ready capacity options [] (.new capacity options storage) where
  allocated := Memory.allocated_blank capacity
  head := rfl
  definition := rfl
  mode := rfl
  frames := rfl
  size := Array.size_replicate
  awaiting := rfl
  rules := ⟨rfl, rfl⟩

/-- Two assemblers that are ready for the same words, and read numbers alike, differ in nothing that
matters. -/
theorem shadows (h : Ready capacity options words r) (ha : Ready capacity options words a)
    (hhex : r.options.hex = a.options.hex) : r.Shadows a where
  dictionary := ⟨⟨ha.size.trans h.size.symm, ha.allocated.trans h.allocated.symm⟩,
    ha.head.trans h.head.symm⟩
  hex := hhex.symm
  foldCase := ha.rules.foldCase.trans h.rules.foldCase.symm
  shortLiterals := ha.rules.shortLiterals.trans h.rules.shortLiterals.symm
  tracing := False.elim
  mode := ha.mode.trans h.mode.symm
  frames := ha.frames.trans h.frames.symm
  awaiting := ha.awaiting.trans h.awaiting.symm
  definition := ha.definition.trans h.definition.symm
  literals := False.elim
  storage := False.elim

theorem of_shadows (ha : Ready capacity options words a) (h : r.Shadows a) :
    Ready capacity options words r where
  allocated := h.dictionary.memory.allocated.symm.trans ha.allocated
  head := h.dictionary.head.symm.trans ha.head
  definition := h.definition.symm.trans ha.definition
  mode := h.mode.symm.trans ha.mode
  frames := h.frames.symm.trans ha.frames
  size := h.dictionary.memory.size.symm.trans ha.size
  awaiting := h.awaiting.symm.trans ha.awaiting
  rules := ⟨h.foldCase.symm.trans ha.rules.foldCase,
    h.shortLiterals.symm.trans ha.rules.shortLiterals⟩

theorem radix (h : Ready capacity options words r) (hex : Bool) :
    Ready capacity options words { r with options := { r.options with hex } } :=
  { h with rules := ⟨h.rules.foldCase, h.rules.shortLiterals⟩ }

end Ready
end Assembler

open Assembler

namespace Source
variable {r r' : Assembler} {hex : Bool} {name : String}

theorem run_make (source : Source) (r : Assembler) :
    source.make.run r = (Operation.performAll source.operations).run
      { r with options := { r.options with hex := source.hex } } := rfl

/-- One more word of the body is fed. -/
theorem run_make_append {body : List String} {word : String} {outcome : Outcome} {r'' : Assembler}
    (h : (make ⟨hex, name, .colon body⟩).run r = .ok () r')
    (hfeed : (Action.feed word).run r' = .ok outcome r'') :
    (make ⟨hex, name, .colon (body ++ [word])⟩).run r = .ok () r'' := by
  rw [run_make] at h ⊢
  simp only [operations] at h
  simp only [operations, List.map_append, List.map_cons, List.map_nil, ← List.cons_append]
  rw [Operation.run_performAll_append h]
  exact Operation.run_performAll_cons (Operation.run_map_ok hfeed)

end Source

/-- Each source makes its word on top of the others, wherever the assembler is ready for them. -/
inductive Made (capacity : Capacity) (options : Options) : List Source → List Word → Prop
  | nil : Made capacity options [] []
  | cons {source : Source} {sources : List Source} {word : Word} {words : List Word}
      (h : Made capacity options sources words) (hname : word.name = source.name)
      (hmake : ∀ r, Ready capacity options words r → ∃ r', source.make.run r = .ok () r' ∧
        Ready capacity options (word :: words) r') :
      Made capacity options (source :: sources) (word :: words)

namespace Made
variable {capacity : Capacity} {options : Options} {sources : List Source} {words : List Word}

theorem names (h : Made capacity options sources words) :
    words.map (·.name) = sources.map (·.name) := by
  induction h with
  | nil => rfl
  | cons _ hname _ ih => rw [List.map_cons, List.map_cons, hname, ih]

theorem forget (h : Made capacity options sources words) (foldCase : Bool) (name : String) :
    Made capacity options (Source.forget foldCase name sources)
      (Word.forget foldCase name words) := by
  induction h with
  | nil => exact .nil
  | cons h hname _ ih =>
    rw [Source.forget, Word.forget, hname]
    split
    · exact h
    · exact ih

/-- The words are made again, the oldest first. By induction on the sources. -/
theorem exists_run (h : Made capacity options sources words) {r : Assembler}
    (hr : Ready capacity options [] r) :
    ∃ r', (forM sources.reverse Source.make : Action Unit).run r = .ok () r' ∧
      Ready capacity options words r' := by
  induction h with
  | nil => exact ⟨r, rfl, hr⟩
  | @cons source sources word words h hname hmake ih =>
    obtain ⟨r', hrun, hr'⟩ := ih
    obtain ⟨r'', hrun', hr''⟩ := hmake r' hr'
    refine ⟨r'', ?_, hr''⟩
    simp only [EStateM.run] at hrun hrun'
    rw [List.reverse_cons, List.forM_append]
    simp only [EStateM.run, bind, EStateM.bind, hrun, List.forM_cons, hrun', List.forM_nil, pure,
      EStateM.pure]

end Made
end ForthAssembler

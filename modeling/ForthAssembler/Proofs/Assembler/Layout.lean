import ForthAssembler.Proofs.Assembler.Balance
import ForthAssembler.Proofs.Assembler.Texts

/-! A definition compiled in one pass gets the code that its syntax tree calls for. -/
namespace ForthAssembler
open Instr Text
open Operation (performAll run_performAll_cons run_performAll_append run_map_ok)

/-- What bodies are made of besides branches and loops. -/
inductive Item
  | plain (item : Plain)
  /-- `LIT` and its operand. -/
  | literal (operand : String)
  /-- `."` and the words of a text, without the closing quote. -/
  | text (words : List String) (last : String)
  deriving DecidableEq, Repr

namespace Item

/-- The text between the quotes. -/
def spelled (words : List String) (last : String) : String := " ".intercalate (words ++ [last])

def Valid (options : Options) : Item → Prop
  | plain item => item.Valid
  | literal operand => (Token.parseNumber? options.radix operand).isSome
  | text words last =>
    (∀ word ∈ words, Action.unquote? word = none) ∧ (utf8 (spelled words last)).length ≤ maxText

instance (options : Options) : DecidablePred (Valid options) := fun item => by
  cases item <;> unfold Valid <;> infer_instance

def instr (options : Options) : Item → Instr
  | plain item => item.instr options.shortLiterals
  | literal operand => .literal ((Token.parseNumber? options.radix operand).getD 0)
  | text words last => .text (utf8 (spelled words last))

/-- How an item is handed over: a token, and the words that it waits for. -/
def operations : Item → List Operation
  | plain item => [.compile item.token]
  | literal operand => [.compile (.extended Extended.literal.id), .feed operand]
  | text words last =>
    .compile (.extended Extended.text.id) :: words.map .feed ++ [.feed (last ++ "\"")]

theorem Valid.encodable {options : Options} {item : Item} (h : item.Valid options) :
    (item.instr options).Encodable := by
  cases item with
  | plain item => exact (show item.Valid from h).encodable _
  | literal operand => trivial
  | text words last => exact h.2

/-- Further words are added to those taken, up to the one with the quote. -/
theorem run_texts {b b' : Assembler} {taken words : List String} {last : String}
    {outcome : Outcome} (hopen : b.definition.isSome) (hawaiting : b.awaiting = .nothing)
    (hwords : ∀ word ∈ words, Action.unquote? word = none)
    (hsize : (utf8 (spelled (taken ++ words) last)).length ≤ maxText)
    (hemit : (Action.emit [.text (utf8 (spelled (taken ++ words) last))] []).run b =
      .ok outcome b') :
    (performAll (words.map .feed ++ [.feed (last ++ "\"")])).run (b.collecting taken) =
      .ok () b' := by
  induction words generalizing taken with
  | nil =>
    rw [List.append_nil] at hsize hemit
    refine run_performAll_cons (run_map_ok (v := outcome) ?_)
    rw [Action.run_feed_quoted hawaiting hsize, ← spelled, if_pos (show b.isCompiling from hopen),
      hemit]
  | cons word words ih =>
    rw [List.append_cons] at hsize hemit
    have htaken : (utf8 (" ".intercalate (taken ++ [word]))).length ≤ maxText := by
      refine Nat.le_trans ?_ hsize
      rw [spelled, List.append_assoc _ words]
      exact length_intercalate_le_append _ _
    have hfeed := Action.run_feed_word hawaiting (hwords word List.mem_cons_self) htaken
    rw [List.map_cons, List.cons_append, run_performAll_cons (run_map_ok hfeed)]
    exact ih (fun w hw => hwords w (List.mem_cons_of_mem _ hw)) hsize hemit

theorem run_feed_operand {b : Assembler} (hawaiting : b.awaiting = .nothing) {operand : String}
    {value : Int16} (hvalue : Token.parseNumber? b.options.radix operand = some value) :
    (Action.feed operand).run { b with awaiting := .operand } =
      (Action.emit [.literal value] []).run b := by
  rw [Action.feed, Action.run_takeAwaiting_bind, Action.set_awaiting hawaiting]
  dsimp only
  rw [Action.run_get_bind, hvalue]

/-- An item that is handed over compiles to its instruction. -/
theorem run_operations {options : Options} {item : Item} (h : item.Valid options)
    {b b' : Assembler} {outcome : Outcome} (hopen : b.definition.isSome)
    (hawaiting : b.awaiting = .nothing) (hoptions : b.options = options)
    (hemit : (Action.emit [item.instr options] []).run b = .ok outcome b') :
    (performAll item.operations).run b = .ok () b' := by
  subst hoptions
  cases item with
  | plain item =>
    exact run_performAll_cons (run_map_ok ((item.compile_token b).trans hemit))
  | literal operand =>
    obtain ⟨value, hvalue⟩ := Option.isSome_iff_exists.mp h
    have hfeed : (Action.feed operand).run { b with awaiting := .operand } = .ok outcome b' := by
      rw [instr, hvalue] at hemit
      rw [run_feed_operand hawaiting hvalue]
      exact hemit
    have hcompile : (Action.compile (.extended Extended.literal.id)).run b =
        .ok .done { b with awaiting := .operand } := rfl
    rw [operations, run_performAll_cons (run_map_ok hcompile)]
    exact run_performAll_cons (run_map_ok hfeed)
  | text words last =>
    have hcompile : (Action.compile (.extended Extended.text.id)).run b =
        .ok .done (b.collecting []) := rfl
    rw [operations, List.cons_append, run_performAll_cons (run_map_ok hcompile)]
    exact run_texts hopen hawaiting h.1 h.2 hemit

end Item

/-- The operations that define a word with a body. -/
def Body.defining (name : String) (body : Body Item none) : List Operation :=
  .define name :: body.symbols.flatMap (·.operations Item.operations) ++
    [.compile (.compileWord .semicolon)]

/-- A definition whose parts fit the unused space is accepted word by word, and its code consists of
the instructions of the layout of its body and a return. -/
theorem performAll_defining {a : Assembler} (hclosed : a.definition = none)
    (hawaiting : a.awaiting = .nothing) {name : String} (hname : Entry.Legal name)
    {body : Body Item none} (hbody : ∀ item ∈ body.items, item.Valid a.options)
    (hspace : Entry.nameOffset + (utf8 name).length + body.size (Item.instr a.options) + 1 ≤
      a.dictionary.memory.unused) :
    ∃ a' entry bytes, (performAll (body.defining name)).run a = .ok () a' ∧
      a'.definition = none ∧ a'.dictionary.latest? = some entry ∧ entry.name = name ∧
      entry.code = a.here + (Entry.nameOffset + (utf8 name).length) ∧
      encodeAll (body.layout (Item.instr a.options) entry.code 0 ++ [.ret]) = .ok bytes ∧
      a'.dictionary.memory.range entry.code a'.here = bytes ∧
      a'.dictionary.memory.allocated =
        a.dictionary.memory.allocated ++ Entry.header a.dictionary.head false name ++ bytes := by
  have hhere := a.dictionary.memory.here_add_unused
  have hlength := a.dictionary.memory.length_allocated
  have hdefine : (Action.define name).Ensures _ (fun _ _ => False) a :=
    (Action.ensures_define (Item.instr a.options) name).mono (fun _ _ h => h)
      fun _ _ h => by have := h.2 hclosed hname; omega
  obtain ⟨address, a₁, hrun₁, -, rfl, hkeeps, ha₁⟩ := hdefine.exists_run
  have hread : Draft.read Draft.start body.symbols = some ⟨none, .body body⟩ :=
    Draft.read_symbols (Draft.body .empty) body
  have hfits : a.dictionary.memory.allocated.length + (Entry.nameOffset + (utf8 name).length) +
      body.size (Item.instr a.options) < a₁.dictionary.memory.size := by
    rw [hkeeps.size]
    omega
  obtain ⟨a₂, hrun₂, hcode, hext⟩ := ha₁.code.run_operations Item.operations hread
    (by simpa [Draft.size] using hfits) fun item hitem => by
      have hvalid := hbody item (Body.mem_items_iff.mpr hitem)
      refine ⟨hvalid.encodable, fun b outcome b' hb => Item.run_operations hvalid ?_ ?_ ?_⟩
      · rw [hb.definition, ha₁.definition]
        rfl
      · rw [hb.awaiting, hkeeps.awaiting, hawaiting]
      · rw [hb.options, hkeeps.options]
  have ha₂ := ha₁.extends hext hcode
  have hclose : Action.close.Ensures _ (fun _ _ => False) a₂ :=
    (Action.ensures_close ha₂).mono (fun _ _ h => h) fun _ _ h => by
      obtain ⟨-, ⟨-, hne⟩ | hsize⟩ := h
      · exact hne body rfl
      · rw [hext.size] at hsize
        simp only [Draft.size] at hsize
        omega
  obtain ⟨outcome, a₃, hrun₃, b, hb, -, -, -, hadded⟩ := hclose.exists_run
  cases hb
  let code := a.dictionary.memory.allocated.length + (Entry.nameOffset + (utf8 name).length)
  have halloc := hadded.allocated
  have hentry := Entry.code_read_header halloc hname
  refine ⟨a₃, Entry.read a₃.dictionary.memory a.dictionary.memory.allocated.length,
    bytesAll (body.layout (Item.instr a.options) code 0 ++ [.ret]), ?_, hadded.definition, ?_, ?_,
    ?_, ?_, ?_, halloc⟩
  · rw [Body.defining, List.cons_append, run_performAll_cons (run_map_ok hrun₁),
      run_performAll_append hrun₂]
    exact run_performAll_cons (run_map_ok hrun₃)
  · rw [Dictionary.latest?, hadded.head]
    rfl
  · rw [Entry.read_header halloc hname]
  · rw [hentry, hlength]
    rfl
  · rw [hentry, encodeAll_eq_ok_iff]
    refine ⟨?_, rfl⟩
    have hlimit : a₁.dictionary.memory.size ≤ maxTarget + 1 := a₁.dictionary.memory.size_le
    rw [List.forall_mem_append]
    refine ⟨Body.encodable_layout _ (fun item hitem => (hbody item hitem).encodable) ?_ ?_, ?_⟩
    · omega
    · exact Nat.zero_le _
    · simp [Instr.Encodable]
  · have hle : a₃.dictionary.memory.allocated.length ≤ a₃.here :=
      Nat.le_of_eq (Memory.length_allocated _)
    rw [hentry, Memory.range_eq, List.take_of_length_le hle, halloc]
    exact List.drop_left' (by simp)

/-- `IF 1 ELSE LIT 300 ." a b" THEN` in an image of 64 bytes. -/
theorem performAll_defining_if_else :
    let a : Assembler := .new ⟨64, by decide, by decide⟩ {} .empty
    let body : Body Item none := .choice (.plain (.plain (.number 1)) .empty)
      (.plain (.literal "300") (.plain (.text ["a"] "b") .empty)) .empty
    ∃ (a' : Assembler) (entry : Entry) (bytes : List UInt8),
      (performAll (body.defining "A")).run a = .ok () a' ∧
      encodeAll (body.layout (Item.instr a.options) entry.code 0 ++ [.ret]) = .ok bytes ∧
      a'.dictionary.memory.range entry.code a'.here = bytes := by
  intro a body
  have hname : Entry.Legal "A" := by decide
  have hbody : ∀ item ∈ body.items, item.Valid a.options := by decide +kernel
  obtain ⟨a', entry, bytes, hrun, -, -, -, -, hbytes, hrange, -⟩ :=
    performAll_defining (a := a) rfl rfl hname hbody (by decide +kernel)
  exact ⟨a', entry, bytes, hrun, hbytes, hrange⟩

end ForthAssembler

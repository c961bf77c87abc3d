import ForthAssembler.Proofs.Assembler.Coding
import ForthAssembler.Proofs.Dictionary.Header

/-! Opening, closing and dropping a definition. -/
namespace ForthAssembler
open Instr Text

variable {α : Type}

/-- A name may be refused, or there may be no space for it. -/
theorem Dictionary.not_outOfReach_of_push {d : Dictionary} {name : String} {hidden : Bool}
    {e : Error} (h : d.push name hidden = .error e) : ¬ e.OutOfReach := by
  simp only [push] at h
  split at h
  · cases h
    exact id
  · split at h
    · cases h
      exact id
    · cases h

namespace Assembler

/-- A word is being defined behind the bytes `older`, and its code is that of a draft. -/
structure Defines (instr : α → Instr) (older : List UInt8) (link : Link) (name : String)
    (draft : Draft.Any α) (a : Assembler) : Prop where
  code : Compiles instr (older ++ Entry.header link true name) draft a
  head : a.dictionary.head = some older.length
  definition : a.definition = some ⟨name, older.length, link⟩
  mode : a.mode = .compile
  legal : Entry.Legal name

/-- Only some parts of the assembler matter. -/
theorem Defines.congr {instr : α → Instr} {older : List UInt8} {link : Link} {name : String}
    {draft : Draft.Any α} {a a' : Assembler} (h : Defines instr older link name draft a)
    (hdictionary : a'.dictionary = a.dictionary) (hframes : a'.frames = a.frames)
    (hdefinition : a'.definition = a.definition) (hmode : a'.mode = a.mode) :
    Defines instr older link name draft a' where
  code := ⟨by rw [hdictionary, h.code.allocated], by rw [hframes, h.code.frames]⟩
  head := by rw [hdictionary, h.head]
  definition := hdefinition.trans h.definition
  mode := hmode.trans h.mode
  legal := h.legal

theorem Defines.extends {instr : α → Instr} {older : List UInt8} {link : Link} {name : String}
    {draft after : Draft.Any α} {a a' : Assembler} (h : Defines instr older link name draft a)
    (hext : Extends a a') (hcode : Compiles instr (older ++ Entry.header link true name) after a') :
    Defines instr older link name after a' where
  code := hcode
  head := hext.head.trans h.head
  definition := hext.definition.trans h.definition
  mode := hext.mode.trans h.mode
  legal := h.legal

/-- The word with this body has been added behind the bytes `older`. -/
structure Added (older : List UInt8) (link : Link) (name : String) (body : List UInt8)
    (a : Assembler) : Prop where
  allocated : a.dictionary.memory.allocated = older ++ Entry.header link false name ++ body
  head : a.dictionary.head = some older.length
  definition : a.definition = none
  legal : Entry.Legal name

/-- A word has been added whole at the cursor: its header, its code and then some data. -/
structure Adds (a : Assembler) (name : String) (code : List Instr) (data : List UInt8)
    (address : Nat) (a' : Assembler) : Prop where
  closed : a.definition = none
  address : address = a.here
  keeps : Keeps a a'
  frames : a'.frames = a.frames
  mode : a'.mode = a.mode
  encodable : ∀ i ∈ code, i.Encodable
  added : Added a.dictionary.memory.allocated a.dictionary.head name (bytesAll code ++ data) a'

/-- A word with some body has been added whole, and nothing else is different. -/
structure Acquires (a : Assembler) (name : String) (a' : Assembler) : Prop where
  closed : a.definition = none
  keeps : Keeps a a'
  frames : a'.frames = a.frames
  mode : a'.mode = a.mode
  added : ∃ body, Added a.dictionary.memory.allocated a.dictionary.head name body a'

/-- A word with a body of some size can be added. -/
structure Accepts (a : Assembler) (name : String) (size : Nat) : Prop where
  closed : a.definition = none
  legal : Entry.Legal name
  space : Entry.nameOffset + (utf8 name).length + size ≤ a.dictionary.memory.unused

/-- A header that has been written opens a definition. -/
theorem defines_of_push (instr : α → Instr) {a : Assembler} {name : String} {address : Nat}
    {d : Dictionary} (h : a.dictionary.push name true = .ok (address, d)) :
    Defines instr a.dictionary.memory.allocated a.dictionary.head name Draft.start { a with
      dictionary := d
      definition := some ⟨name, address, a.dictionary.head⟩
      mode := .compile
      frames := [] } := by
  obtain ⟨hlegal, rfl, hhead, halloc, -⟩ := Dictionary.of_push_eq_ok h
  have hlen : a.dictionary.memory.allocated.length = a.dictionary.here := Memory.length_allocated _
  exact {
    code := ⟨by simpa [Draft.start, Draft.layout, Body.layout] using halloc, rfl⟩
    head := by rw [hlen]; exact hhead
    definition := by rw [hlen]
    mode := rfl
    legal := hlegal }

theorem Adds.acquires {a a' : Assembler} {name : String} {code : List Instr} {data : List UInt8}
    {address : Nat} (h : Adds a name code data address a') : Acquires a name a' :=
  ⟨h.closed, h.keeps, h.frames, h.mode, _, h.added⟩

end Assembler

namespace Action
open Assembler
variable {a : Assembler}

/-- A word is added whole, or the action is refused and changes nothing. No branch is at fault. -/
abbrev AddsWord (x : Action Nat) (name : String) (a : Assembler) : Prop :=
  x.Ensures (fun _ a' => a.Acquires name a') (fun e a' => a' = a ∧ ¬ e.OutOfReach) a

/-- The code of a variable whose entry is at an offset. -/
def variableCode (short : Bool) (address : Nat) (name : String) : List Instr :=
  [cellInstr short (address + Entry.nameOffset + (utf8 name).length), .ret]

def constantCode (short : Bool) (value : Int16) : List Instr :=
  [literalInstr short value, .ret]

theorem encodable_literalInstr (short : Bool) (value : Int16) :
    (literalInstr short value).Encodable := by
  unfold literalInstr
  split
  · rename_i hvalue
    simp only [Instr.Encodable, maxShort, UInt8.toNat_ofNat'] at hvalue ⊢
    omega
  · trivial

theorem encodable_cellInstr (short : Bool) (code : Nat) : (cellInstr short code).Encodable := by
  unfold cellInstr
  split
  · rename_i hvalue
    simp only [Instr.Encodable, maxShort, UInt8.toNat_ofNat'] at hvalue ⊢
    omega
  · trivial

theorem encodable_variableCode (short : Bool) (address : Nat) (name : String) :
    ∀ i ∈ variableCode short address name, i.Encodable :=
  List.forall_mem_cons.mpr ⟨encodable_cellInstr _ _, List.forall_mem_singleton.mpr trivial⟩

theorem encodable_constantCode (short : Bool) (value : Int16) :
    ∀ i ∈ constantCode short value, i.Encodable :=
  List.forall_mem_cons.mpr ⟨encodable_literalInstr _ _, List.forall_mem_singleton.mpr trivial⟩

theorem ensures_define (instr : α → Instr) (name : String) :
    (define name).Ensures
      (fun address a' => a.definition = none ∧ address = a.here ∧ Keeps a a' ∧
        Defines instr a.dictionary.memory.allocated a.dictionary.head name Draft.start a')
      (fun _ a' => a' = a ∧ (a.definition = none → Entry.Legal name →
        a.dictionary.memory.unused < Entry.nameOffset + (utf8 name).length)) a := by
  simp only [define, ensures_bind, ensures_requireClosed, ensures_get, ensures_ofExcept,
    ensures_setDictionary, ensures_modify, ensures_pure]
  refine ⟨fun hopen => ⟨trivial, fun hclosed => ?_⟩, fun hclosed => ⟨?_, ?_⟩⟩
  · exact absurd hclosed hopen
  · rintro ⟨address, extended⟩ hpush
    obtain ⟨-, haddress, -, -, hsize⟩ := Dictionary.of_push_eq_ok hpush
    exact ⟨hclosed, haddress, ⟨hsize, rfl, rfl, rfl, rfl⟩, defines_of_push instr hpush⟩
  · intro e he
    exact ⟨trivial, fun _ => Dictionary.of_push_eq_error he⟩

/-- A definition is closed if all structures in it are, and there is space for the return. -/
theorem ensures_close {instr : α → Instr} {older : List UInt8} {link : Link} {name : String}
    {draft : Draft.Any α} (h : Defines instr older link name draft a) :
    close.Ensures
      (fun _ a' => ∃ b : Body α none, draft = ⟨none, .body b⟩ ∧ Keeps a a' ∧ a'.frames = [] ∧
        a'.mode = .interpret ∧ Added older link name (bytesAll (b.layout instr
          (older.length + (Entry.nameOffset + (utf8 name).length)) 0 ++ [.ret])) a')
      (fun e a' => a' = a ∧ ((e = .unbalanced ";" ∧ ∀ b, draft ≠ ⟨none, .body b⟩) ∨
        a.dictionary.memory.size ≤ older.length + (Entry.nameOffset + (utf8 name).length) +
          draft.2.size instr)) a := by
  obtain ⟨k, d⟩ := draft
  have hframes := Draft.frames_eq_nil_iff instr (older ++ Entry.header link true name).length d
  rw [← h.code.frames] at hframes
  simp only [close, ensures_bind, ensures_get]
  rw [h.definition]
  split
  · rename_i heq hnil
    obtain ⟨b, hb⟩ := hframes.mp hnil
    obtain rfl := Option.some.inj heq
    cases hb
    have hemit := ensures_emit [.ret]
      (older.length + (Entry.nameOffset + (utf8 name).length) + b.size instr + 1)
      h.code.allocated (.nil _ _ _)
      (by simp [Draft.layout, Nat.add_assoc])
    rw [ensures_bind]
    apply hemit.mono
    · intro _ a' hpost
      obtain ⟨hext, hsame, -, halloc⟩ := hpost
      obtain ⟨d', hreveal, hhead, hsize, hd'⟩ := Dictionary.reveal_eq_ok halloc
        (hext.head.trans h.head) h.legal
      simp only [ensures_bind, ensures_get, ensures_ofChecked, ensures_setDictionary,
        ensures_modify, ensures_pure]
      refine ⟨d', hreveal, b, rfl, ?_, hsame.trans hnil, trivial, ?_⟩
      · exact ⟨hsize.trans hext.size, hext.options, hext.awaiting, hext.literals, hext.storage⟩
      · refine ⟨?_, hhead.trans (hext.head.trans h.head), rfl, h.legal⟩
        simpa [Draft.layout] using hd'
    · rintro e a' ⟨rfl, (hsize : _ < _) | ⟨hsites, -⟩ | hcode⟩
      · exact ⟨rfl, .inr (by simp only [Draft.size]; omega)⟩
      · exact absurd rfl hsites
      · simp [Instr.Encodable] at hcode
  · rename_i hno
    exact ⟨rfl, .inl ⟨rfl, fun b hb => hno _ rfl (hframes.mpr ⟨b, hb⟩)⟩⟩

/-- Dropping the open definition leaves the bytes before it. -/
theorem ensures_abort {instr : α → Instr} {older : List UInt8} {link : Link} {name : String}
    {draft : Draft.Any α} (h : Defines instr older link name draft a)
    (hlink : ∀ n ∈ link, n < older.length) {refused : Error → Assembler → Prop} :
    abort.Ensures
      (fun _ a' => a'.dictionary.memory.allocated = older ∧ a'.dictionary.head = link ∧
        a'.definition = none ∧ a'.mode = .interpret ∧ a'.frames = [] ∧ a'.awaiting = .nothing ∧
        a'.dictionary.memory.size = a.dictionary.memory.size ∧
        a'.options = a.options ∧ a'.literals = a.literals ∧ a'.storage = a.storage)
      refused a := by
  simp only [abort, ensures_bind, ensures_await, ensures_setFrames, ensures_get]
  rw [h.definition]
  simp only [ensures_bind, ensures_modify, ensures_get, ensures_ofChecked, ensures_setDictionary,
    ensures_setMode]
  have halloc := h.code.allocated
  rw [List.append_assoc] at halloc
  obtain ⟨d', htruncate, hhead, hsize, hd'⟩ := Dictionary.truncate_eq_ok halloc hlink
  simpa using ⟨d', htruncate, hd', hhead, hsize⟩

/-- A word with known code is added whole, or not at all. -/
theorem ensures_defineWith (hclosed : a.definition = none) (name : String) (body : List UInt8) :
    (defineWith name body).Ensures
      (fun address a' => address = a.here ∧ Keeps a a' ∧ a'.frames = a.frames ∧ a'.mode = a.mode ∧
        Added a.dictionary.memory.allocated a.dictionary.head name body a')
      (fun e a' => a' = a ∧ ¬ e.OutOfReach ∧ (Entry.Legal name →
        a.dictionary.memory.unused < Entry.nameOffset + (utf8 name).length + body.length)) a := by
  have hhere := a.dictionary.memory.here_add_unused
  simp only [defineWith, ensures_bind, ensures_get, ensures_ite, ensures_refuse, ensures_ofExcept,
    ensures_setDictionary, ensures_pure, commit, ensures_ofHalting]
  refine ⟨fun hspace => ⟨trivial, id, fun _ => hspace⟩, fun hspace => ⟨?_, fun e he => ?_⟩⟩
  · rintro ⟨address, extended⟩ hpush
    obtain ⟨hlegal, rfl, hhead, halloc, hsize⟩ := Dictionary.of_push_eq_ok hpush
    have hunused : body.length ≤ extended.memory.unused := by
      have hextended := extended.memory.here_add_unused
      rw [← Memory.length_allocated, halloc] at hextended
      simp only [List.length_append, Memory.length_allocated, Entry.length_header] at hextended
      omega
    obtain ⟨m, hcommit, hsize', halloc'⟩ : ∃ m, extended.memory.commit body [] =
        .ok (extended.memory.here, m) ∧ m.size = extended.memory.size ∧
          m.allocated = extended.memory.allocated ++ body :=
      @Memory.commit_toward extended.memory body 0 [] (by simp) hunused (by simp)
    rw [hcommit]
    refine ⟨?_, by simp, by simp⟩
    intro _ heq
    cases heq
    refine ⟨rfl, ⟨hsize'.trans hsize, rfl, rfl, rfl, rfl⟩, trivial, trivial, ?_, ?_, hclosed, hlegal⟩
    · rw [halloc', halloc]
    · rw [Memory.length_allocated]
      exact hhead
  · refine ⟨trivial, Dictionary.not_outOfReach_of_push he, fun hlegal => ?_⟩
    have := Dictionary.of_push_eq_error he hlegal
    omega

/-- A word with code that can be encoded is added if its name is legal and there is space. -/
theorem ensures_defineWith_code (hclosed : a.definition = none) (name : String) {code : List Instr}
    (hcode : ∀ i ∈ code, i.Encodable) (data : List UInt8) :
    (defineWith name (bytesAll code ++ data)).Ensures (Adds a name code data)
      (fun e a' => a' = a ∧ ¬ e.OutOfReach ∧ ¬ a.Accepts name (sizeAll code + data.length)) a := by
  apply (ensures_defineWith hclosed name _).mono
  · intro _ a' hpost
    obtain ⟨haddress, hkeeps, hframes, hmode, hadded⟩ := hpost
    exact ⟨hclosed, haddress, hkeeps, hframes, hmode, hcode, hadded⟩
  · rintro e a' ⟨rfl, hreach, hspace⟩
    refine ⟨rfl, hreach, fun haccepts => ?_⟩
    have hlt := hspace haccepts.legal
    have hle := haccepts.space
    rw [List.length_append, length_bytesAll] at hlt
    omega

/-- A variable is added with its code and a zero cell. -/
theorem ensures_defineVariable_code (name : String) :
    (defineVariable name).Ensures
      (Adds a name (variableCode a.options.shortLiterals a.here name) (Cell.bytes 0))
      (fun e a' => a' = a ∧ ¬ e.OutOfReach ∧
        ¬ a.Accepts name (sizeAll (variableCode a.options.shortLiterals a.here name) + 2)) a := by
  have hcode := encodable_variableCode a.options.shortLiterals a.here name
  simp only [defineVariable, ensures_bind, ensures_requireClosed, ensures_get]
  refine ⟨fun hopen => ⟨trivial, id, fun h => hopen h.closed⟩, fun hclosed => ?_⟩
  rw [show encodeAll [cellInstr a.options.shortLiterals _, .ret] = _ from
    encodeAll_eq_ok_iff.mpr ⟨hcode, rfl⟩]
  exact ensures_defineWith_code hclosed name hcode _

theorem ensures_defineConstant_code (name : String) (value : Int16) :
    (defineConstant name value).Ensures
      (Adds a name (constantCode a.options.shortLiterals value) [])
      (fun e a' => a' = a ∧ ¬ e.OutOfReach ∧
        ¬ a.Accepts name (sizeAll (constantCode a.options.shortLiterals value))) a := by
  have hcode := encodable_constantCode a.options.shortLiterals value
  simp only [defineConstant, ensures_bind, ensures_requireClosed, ensures_get]
  refine ⟨fun hopen => ⟨trivial, id, fun h => hopen h.closed⟩, fun hclosed => ?_⟩
  have hbody := ensures_defineWith_code hclosed name hcode []
  rw [List.append_nil] at hbody
  rw [show encodeAll [literalInstr a.options.shortLiterals value, .ret] = _ from
    encodeAll_eq_ok_iff.mpr ⟨hcode, rfl⟩]
  exact hbody

theorem adds_defineVariable (name : String) : (defineVariable name).AddsWord name a :=
  (ensures_defineVariable_code name).mono (fun _ _ h => h.acquires) fun _ _ h => ⟨h.1, h.2.1⟩

theorem adds_defineConstant (name : String) (value : Int16) :
    (defineConstant name value).AddsWord name a :=
  (ensures_defineConstant_code name value).mono (fun _ _ h => h.acquires) fun _ _ h => ⟨h.1, h.2.1⟩

end Action
end ForthAssembler

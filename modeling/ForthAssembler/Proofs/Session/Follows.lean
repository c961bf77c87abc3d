import ForthAssembler.Proofs.Assembler.Reading
import ForthAssembler.Proofs.Session.Ledger

/-! What it means that an assembler is in step with a ledger, and what keeps it so. -/
namespace ForthAssembler
open Instr Text

/-- The instruction neither branches nor returns, and calls one of the known words. -/
def Instr.Simple (codes : List Nat) : Instr → Prop
  | .call target => target ∈ codes
  | .jumpZero _ | .jump _ | .ret | .forLoop | .next | .leave => False
  | .primitive _ | .literal _ | .short _ | .text _ | .index => True

namespace Word

/-- The word has the code of a body whose calls go to older words. -/
def Compiled (older : List Word) (word : Word) : Prop :=
  ∃ b : Body Instr none, word.body = bytesAll (b.layout id (code older word.name) 0 ++ [.ret]) ∧
    ∀ i ∈ b.items, i.Simple (codes older) ∧ i.Encodable

def Sound : List Word → Prop
  | [] => True
  | word :: older =>
    Entry.Legal word.name ∧ (word.making = .colon → Compiled older word) ∧ Sound older

variable {words older newer : List Word}

theorem Sound.legal (h : Sound words) : Legal words := by
  induction words with
  | nil => simp [Legal]
  | cons word older ih => exact List.forall_mem_cons.mpr ⟨h.1, ih h.2.2⟩

theorem Sound.of_append (h : Sound (newer ++ older)) : Sound older := by
  induction newer with
  | nil => exact h
  | cons word newer ih => exact ih h.2.2

end Word
open Word

/-- The store keeps the image of some words. -/
def Stores : Option (List Word) → Option (List UInt8) → Prop
  | none, content => content = none
  | some words, content => Sound words ∧ (image words).length ≤ maxCapacity ∧
      ∃ autorun, content = some (Image.encode ⟨autorun, latest words, image words⟩)

/-- The assembler is in step with a ledger. -/
structure Follows (l : Ledger) (a : Assembler) : Prop where
  sound : Sound l.words
  closed : a.definition = none →
    a.dictionary.memory.allocated = image l.words ∧ a.dictionary.head = latest l.words
  mode : a.definition = none → a.mode = .interpret
  opened : ∀ definition, a.definition = some definition → ∃ draft : Draft.Any Instr,
    a.Defines id (image l.words) (latest l.words) definition.name draft ∧
      ∀ i, .plain i ∈ draft.2.symbols → i.Simple (codes l.words) ∧ i.Encodable
  operand : a.awaiting = .operand → a.definition.isSome
  stores : Stores l.stored a.storage.content?

namespace Follows
variable {l : Ledger} {a a' : Assembler}

theorem represents (h : Follows l a) : Represents l.words a where
  legal := h.sound.legal
  closed := fun hclosed => by
    obtain ⟨halloc, hhead⟩ := h.closed hclosed
    refine ⟨halloc, hhead, ?_⟩
    rw [← halloc, Memory.length_allocated]
    rfl
  opened := fun definition hopen => by
    obtain ⟨draft, hdefines, -⟩ := h.opened definition hopen
    exact ⟨_, hdefines.code.allocated, hdefines.head⟩

/-- Only some parts of the assembler matter. -/
theorem congr_stored (h : Follows l a) {stored : Option (List Word)}
    (hdictionary : a'.dictionary = a.dictionary) (hframes : a'.frames = a.frames)
    (hdefinition : a'.definition = a.definition) (hmode : a'.mode = a.mode)
    (hstores : Stores stored a'.storage.content?)
    (hawaiting : a'.awaiting = .operand → a.definition.isSome) : Follows { l with stored } a' where
  sound := h.sound
  closed := by
    rw [hdictionary, hdefinition]
    exact h.closed
  mode := by
    rw [hdefinition, hmode]
    exact h.mode
  opened := by
    rw [hdefinition]
    intro definition hopen
    obtain ⟨draft, hdefines, hitems⟩ := h.opened definition hopen
    exact ⟨draft, hdefines.congr hdictionary hframes hdefinition hmode, hitems⟩
  operand := by
    rw [hdefinition]
    exact hawaiting
  stores := hstores

theorem congr (h : Follows l a) (hdictionary : a'.dictionary = a.dictionary)
    (hframes : a'.frames = a.frames) (hdefinition : a'.definition = a.definition)
    (hmode : a'.mode = a.mode) (hstorage : a'.storage = a.storage)
    (hawaiting : a'.awaiting = .operand → a.definition.isSome) : Follows l a' :=
  h.congr_stored hdictionary hframes hdefinition hmode (hstorage ▸ h.stores) hawaiting

/-- While no definition is open the frames do not matter either. -/
theorem congr_closed (h : Follows l a) (hclosed : a.definition = none)
    (hdictionary : a'.dictionary = a.dictionary) (hdefinition : a'.definition = none)
    (hmode : a'.mode = .interpret) (hstorage : a'.storage = a.storage)
    (hawaiting : a'.awaiting ≠ .operand) : Follows l a' where
  sound := h.sound
  closed := fun _ => by
    rw [hdictionary]
    exact h.closed hclosed
  mode := fun _ => hmode
  opened := by simp [hdefinition]
  operand := fun hoperand => absurd hoperand hawaiting
  stores := by
    rw [hstorage]
    exact h.stores

/-- What is refused leaves the state as it is. -/
theorem of_eq (h : Follows l a) (_ : Error) (a' : Assembler) (heq : a' = a) : Follows l a' := by
  rwa [heq]

theorem awaiting_ne (h : Follows l a) (hclosed : a.definition = none) : a.awaiting ≠ .operand := by
  intro hoperand
  have := h.operand hoperand
  simp [hclosed] at this

/-- A word that is added on top of the others is one more in the ledger. -/
theorem add {making : Making} {name : String} {body : List UInt8} (hsound : Sound l.words)
    (hmode : a'.mode = .interpret) (hstores : Stores l.stored a'.storage.content?)
    (hawaiting : a'.awaiting ≠ .operand)
    (hadded : a'.Added (image l.words) (latest l.words) name body)
    (hbody : making = .colon → Compiled l.words ⟨name, body, making⟩) :
    Follows (l.add making name a'.dictionary.memory.allocated) a' := by
  have hdrop : a'.dictionary.memory.allocated.drop (code l.words name) = body := by
    rw [hadded.allocated]
    exact List.drop_left' (by simp [code])
  refine ⟨?_, ?_, fun _ => hmode, ?_, fun hoperand => absurd hoperand hawaiting, hstores⟩
  · simp only [Ledger.add, hdrop]
    exact ⟨hadded.legal, hbody, hsound⟩
  · intro _
    simp only [Ledger.add, hdrop, latest, image]
    exact ⟨hadded.allocated, hadded.head⟩
  · simp [hadded.definition]

end Follows

namespace Action
open Follows
variable {l : Ledger} {a : Assembler}

theorem ensures_define_follows (h : Follows l a) (name : String) :
    (define name).Ensures (fun _ a' => Follows l a') (fun _ a' => Follows l a') a := by
  apply (ensures_define id name).mono
  · intro _ a' hpost
    obtain ⟨hclosed, -, hkeeps, hdefines⟩ := hpost
    obtain ⟨halloc, hhead⟩ := h.closed hclosed
    rw [halloc, hhead] at hdefines
    refine ⟨h.sound, ?_, ?_, ?_, ?_, ?_⟩
    · simp [hdefines.definition]
    · simp [hdefines.definition]
    · rw [hdefines.definition]
      intro _ heq
      cases heq
      exact ⟨_, hdefines, by simp [Draft.start, Draft.symbols, Body.symbols]⟩
    · simp [hdefines.definition]
    · rw [hkeeps.storage]
      exact h.stores
  · exact fun e a' hrefused => h.of_eq e a' hrefused.1

theorem ensures_close_follows (h : Follows l a) {definition : Definition}
    (hopen : a.definition = some definition) (hawaiting : a.awaiting ≠ .operand) :
    close.Ensures
      (fun _ a' => Follows (l.add .colon definition.name a'.dictionary.memory.allocated) a')
      (fun _ a' => Follows l a') a := by
  obtain ⟨draft, hdefines, hitems⟩ := h.opened definition hopen
  apply (ensures_close hdefines).mono
  · intro _ a' hpost
    obtain ⟨b, rfl, hkeeps, -, hmode, hadded⟩ := hpost
    refine add h.sound hmode ?_ ?_ hadded fun _ => ⟨b, rfl, ?_⟩
    · rw [hkeeps.storage]
      exact h.stores
    · rwa [hkeeps.awaiting]
    · exact fun i hi => hitems i (Body.mem_items_iff.mp hi)
  · exact fun e a' hrefused => h.of_eq e a' hrefused.1

/-- Dropping the open definition, if any, leaves the words. -/
theorem ensures_abort_follows (h : Follows l a) :
    abort.Ensures (fun _ a' => Follows l a' ∧ a'.definition = none ∧ a'.awaiting = .nothing)
      (fun _ _ => False) a := by
  cases hdefinition : a.definition with
  | none =>
    simp only [abort, ensures_bind, ensures_await, ensures_setFrames, ensures_get]
    simp only [hdefinition, ensures_setMode]
    exact ⟨h.congr_closed hdefinition rfl rfl rfl rfl (by simp), trivial, trivial⟩
  | some definition =>
    obtain ⟨draft, hdefines, -⟩ := h.opened definition hdefinition
    apply (ensures_abort hdefines fun n hn => lt_of_mem_latest hn).imp
    intro _ a' habort
    obtain ⟨halloc, hhead, hclosed, hmode, -, hawaiting, -, -, -, hstorage⟩ := habort
    refine ⟨⟨h.sound, fun _ => ⟨halloc, hhead⟩, fun _ => hmode, by simp [hclosed],
      by simp [hawaiting], ?_⟩, hclosed, hawaiting⟩
    rw [hstorage]
    exact h.stores

/-- A word of an open definition changes only its code. -/
theorem ensures_action_follows (h : Follows l a) (hopen : a.definition.isSome) (word : Symbol Instr)
    (hword : ∀ i, word = .plain i → i.Simple (codes l.words)) :
    (word.action id).Ensures (fun _ a' => Follows l a') (fun _ a' => Follows l a') a := by
  obtain ⟨definition, hdefinition⟩ := Option.isSome_iff_exists.mp hopen
  obtain ⟨draft, hdefines, hitems⟩ := h.opened definition hdefinition
  apply (ensures_action hdefines.code word).mono
  · intro _ a' hpost
    obtain ⟨after, hnext, hcode, hext, hencodable⟩ := hpost
    refine ⟨h.sound, ?_, ?_, ?_, ?_, ?_⟩
    · simp [hext.definition, hdefinition]
    · simp [hext.definition, hdefinition]
    · rw [hext.definition, hdefinition]
      intro _ heq
      cases heq
      refine ⟨after, hdefines.extends hext hcode, fun i hi => ?_⟩
      rw [Draft.symbols_next hnext, List.mem_append, List.mem_singleton] at hi
      rcases hi with hi | hi
      · exact hitems i hi
      · exact ⟨hword i hi.symm, hencodable i hi.symm⟩
    · rw [hext.definition]
      exact fun _ => hopen
    · rw [hext.storage]
      exact h.stores
  · exact fun e a' hrefused => h.of_eq e a' hrefused.1

theorem follows_addsWord (h : Follows l a) {x : Action Nat} {name : String}
    (hx : x.AddsWord name a) :
    x.Ensures
      (fun _ a' => Follows (l.add .data name a'.dictionary.memory.allocated) a' ∧
        a'.literals = a.literals)
      (fun _ a' => Follows l a') a := by
  refine hx.mono ?_ fun e a' hrefused => h.of_eq e a' hrefused.1
  intro _ a' hpost
  obtain ⟨hclosed, hkeeps, -, hmode, body, hadded⟩ := hpost
  obtain ⟨halloc, hhead⟩ := h.closed hclosed
  rw [halloc, hhead] at hadded
  refine ⟨add h.sound (hmode.trans (h.mode hclosed)) ?_ ?_ hadded nofun, hkeeps.literals⟩
  · rw [hkeeps.storage]
    exact h.stores
  · rw [hkeeps.awaiting]
    exact h.awaiting_ne hclosed

/-- The word that is found is dropped with all that came after it. -/
theorem ensures_forget_follows (h : Follows l a) (name : String) :
    (forget name).Ensures
      (fun _ a' => Follows { l with words := Word.forget a.options.foldCase name l.words } a')
      (fun _ a' => Follows l a') a := by
  simp only [forget, ensures_bind, ensures_requireClosed, ensures_get, ensures_ofHalting,
    ensures_setDictionary, ensures_pure]
  refine ⟨fun _ => h, fun hnone => ?_⟩
  obtain ⟨halloc, hhead⟩ := h.closed hnone
  have hentries := Dictionary.entries_eq halloc hhead h.sound.legal
  cases hfind : a.dictionary.find? a.options.foldCase name with
  | none => simp [Dictionary.forget, hfind, h]
  | some e =>
    obtain ⟨word, older, newer, hwords, hforget, rfl⟩ :=
      Dictionary.of_find?_eq_some h.sound.legal (.inl hentries) hfind
    obtain ⟨rest, hrest⟩ := exists_image_append newer (word :: older)
    rw [hwords, hrest, image, List.append_assoc, List.append_assoc] at halloc
    obtain ⟨d', htruncate, hlink, -, himage⟩ := Dictionary.truncate_eq_ok halloc
      fun n hn => lt_of_mem_latest hn
    have hdictionary : a.dictionary.forget a.options.foldCase name =
        .ok ((image older).length, d') := by
      rw [Dictionary.forget, hfind]
      simp only [entry, htruncate]
    rw [hdictionary, hforget]
    have hsound : Sound (word :: older) := Sound.of_append (hwords ▸ h.sound)
    refine ⟨?_, by simp, by simp⟩
    intro _ heq
    cases heq
    refine ⟨hsound.2.2, fun _ => ⟨himage, hlink⟩, h.mode, by simp [hnone], ?_, h.stores⟩
    exact fun hoperand => absurd hoperand (h.awaiting_ne hnone)

/-- A saved image is that of the words. -/
theorem ensures_save_follows (h : Follows l a) (autorun : Bool) :
    (save autorun).Ensures (fun blob a' => a' = a ∧ Stores (some l.words) (some blob))
      (fun _ a' => Follows l a') a := by
  simp only [save, ensures_bind, ensures_requireClosed, ensures_get, ensures_pure]
  refine ⟨fun _ => h, fun hnone => ?_⟩
  obtain ⟨halloc, hhead⟩ := h.closed hnone
  refine ⟨trivial, h.sound, ?_, autorun, ?_⟩
  · rw [← halloc]
    exact a.dictionary.memory.length_allocated_le
  · rw [halloc, hhead]

/-- A saved image is loaded wherever it fits. -/
theorem ensures_load_image {words : List Word} (hlegal : Legal words)
    (hlimit : (image words).length ≤ maxCapacity) (autorun : Bool) :
    (load (Image.encode ⟨autorun, latest words, image words⟩)).Ensures
      (fun entry a' => a.definition = none ∧
        (image words).length ≤ a.dictionary.memory.size ∧ ∃ d : Dictionary,
          d.memory.allocated = image words ∧ d.head = latest words ∧
          d.memory.size = a.dictionary.memory.size ∧
          a' = { a with dictionary := d, frames := [], mode := .interpret } ∧
          entry = if autorun then d.latest?.map (·.code) else none)
      (fun e a' => a' = a ∧ (a.definition = none →
        a.dictionary.memory.size < (image words).length ∧ e = .badImage .tooLarge)) a := by
  have hdecode := Image.decode_image hlimit autorun a.dictionary.memory.size
  simp only [load, ensures_bind, ensures_requireClosed, ensures_get, ensures_ofExcept_mapError,
    ensures_setDictionary, ensures_setFrames, ensures_setMode, ensures_pure, hdecode]
  refine ⟨fun hopen => ⟨trivial, fun hclosed => absurd hclosed hopen⟩, fun hclosed => ?_⟩
  by_cases hfits : (image words).length ≤ a.dictionary.memory.size
  · obtain ⟨d, hrestore⟩ := Dictionary.exists_restore_image hlegal hfits
    obtain ⟨halloc, hhead, hsize, -⟩ := Dictionary.of_restore_eq_ok hrestore
    simp only [if_pos hfits, hrestore, Except.ok.injEq, forall_eq', reduceCtorEq, false_implies,
      implies_true, and_true]
    exact ⟨hclosed, hfits, d, halloc, hhead, hsize, rfl, rfl⟩
  · simp only [if_neg hfits, Except.error.injEq, forall_eq', reduceCtorEq, false_implies,
      implies_true, true_and]
    exact fun _ => ⟨Nat.lt_of_not_le hfits, trivial⟩

/-- The words of a saved image take the place of the others. -/
theorem ensures_load_follows (h : Follows l a) {words : List Word} {blob : List UInt8}
    (hblob : Stores (some words) (some blob)) :
    (load blob).Ensures (fun _ a' => Follows { l with words } a') (fun _ a' => Follows l a') a := by
  obtain ⟨hsound, hlimit, autorun, hencode⟩ := hblob
  obtain rfl := Option.some.inj hencode
  refine (ensures_load_image hsound.legal hlimit autorun).mono ?_ ?_
  · intro entry a' hload
    obtain ⟨hclosed, -, d, halloc, hhead, -, rfl, -⟩ := hload
    refine ⟨hsound, fun _ => ⟨halloc, hhead⟩, fun _ => rfl, by simp [hclosed], ?_, h.stores⟩
    exact fun hoperand => absurd hoperand (h.awaiting_ne hclosed)
  · rintro e a' ⟨rfl, -⟩
    exact h

theorem ensures_saveToStorage_follows (h : Follows l a) (autorun : Bool) :
    (saveToStorage autorun).Ensures (fun _ a' => Follows { l with stored := some l.words } a')
      (fun _ a' => Follows l a') a := by
  rw [saveToStorage, ensures_bind]
  apply (ensures_save_follows h autorun).imp
  intro blob a' hsave
  obtain ⟨rfl, hblob⟩ := hsave
  have hwrite : Ensures (do
      let written ← ofExcept (a'.storage.write blob)
      modify fun a => { a with storage := written }
      return blob.length)
      (fun _ a => Follows { l with stored := some l.words } a) (fun _ a => Follows l a) a' := by
    simp only [ensures_bind, ensures_ofExcept, ensures_modify, ensures_pure]
    refine ⟨fun written hwritten => ?_, fun _ _ => h⟩
    have hcontent : written.content? = some blob := by
      cases hs : a'.storage <;> simp only [hs, Storage.write, reduceCtorEq] at hwritten
      cases hwritten
      rfl
    exact h.congr_stored rfl rfl rfl rfl (hcontent ▸ hblob) h.operand
  rw [ensures_bind, ensures_get]
  dsimp only
  split
  · rw [ensures_ite]
    exact ⟨fun _ => h, fun _ => hwrite⟩
  · exact hwrite

theorem ensures_loadFromStorage_follows (h : Follows l a) :
    loadFromStorage.Ensures (fun _ a' => Follows { l with words := l.stored.getD [] } a')
      (fun _ a' => Follows l a') a := by
  simp only [loadFromStorage, ensures_bind, ensures_get, ensures_ofExcept]
  refine ⟨fun content hread => ?_, fun _ _ => h⟩
  have hcontent : a.storage.content? = content := by
    cases hs : a.storage <;> simp only [hs, Storage.read, reduceCtorEq] at hread
    cases hread
    rfl
  have hstores := h.stores
  rw [hcontent] at hstores
  cases content with
  | none => exact h
  | some blob =>
    cases hl : l.stored with
    | none => simp [hl, Stores] at hstores
    | some words =>
      rw [hl] at hstores
      have hload := ensures_load_follows h hstores
      rwa [hl] at hload

theorem ensures_reset_follows (h : Follows l a) :
    reset.Ensures (fun _ a' => Follows { l with words := [] } a') (fun _ _ => False) a := by
  rw [reset, ensures_bind]
  apply (ensures_abort_follows h).imp
  intro _ a' habort
  obtain ⟨ha', hclosed, hawaiting⟩ := habort
  rw [ensures_modify]
  refine ⟨trivial, fun _ => ⟨Memory.allocated_clear _, rfl⟩, fun _ => ha'.mode hclosed,
    by simp [hclosed], ?_, ha'.stores⟩
  simp [hawaiting]

end Action

end ForthAssembler

import ForthAssembler.Proofs.Session.History
import ForthAssembler.Proofs.Session.Lockstep
import ForthAssembler.Proofs.Session.Unfailing

/-! An image that is saved and loaded again: it is accepted wherever it fits, and nothing tells the
assembler that has loaded it from the one that has saved it. -/
namespace ForthAssembler
open Word

namespace Assembler

/-- Operations that do not use the store do not tell the assemblers apart. -/
def Indistinct (a b : Assembler) : Prop :=
  ∀ operations, Operation.StorageFree operations a →
    Operation.replies operations a = Operation.replies operations b

/-- The assemblers are set up alike and await the same, if anything, whatever their images are. -/
structure SameSetup (a b : Assembler) : Prop where
  size : a.dictionary.memory.size = b.dictionary.memory.size
  options : a.options = b.options
  literals : a.literals = b.literals
  awaiting : a.awaiting = b.awaiting

/-- The assembler is closed, and its image is that of the words. -/
structure Holds (words : List Word) (a : Assembler) : Prop where
  allocated : a.dictionary.memory.allocated = image words
  head : a.dictionary.head = latest words
  definition : a.definition = none
  mode : a.mode = .interpret
  frames : a.frames = []

namespace Holds
variable {words : List Word} {a b : Assembler}

theorem here_eq (h : Holds words a) : a.here = (image words).length := by
  rw [← h.allocated, Memory.length_allocated]
  rfl

theorem length_image_le (h : Holds words a) : (image words).length ≤ maxCapacity := by
  rw [← h.allocated]
  exact a.dictionary.memory.length_allocated_le

theorem latest?_eq (ha : Holds words a) (hb : Holds words b) :
    a.dictionary.latest? = b.dictionary.latest? := by
  have hread : Entry.read a.dictionary.memory = Entry.read b.dictionary.memory :=
    funext (Memory.read_congr (ha.allocated.trans hb.allocated.symm))
  rw [Dictionary.latest?, ha.head, ← hb.head, hread, ← Dictionary.latest?]

/-- Apart from the setup, all that matters is in the image. -/
theorem alike (ha : Holds words a) (hb : Holds words b) (hsame : a.SameSetup b) :
    a.Alike False b where
  dictionary := ⟨⟨hsame.size, ha.allocated.trans hb.allocated.symm⟩, ha.head.trans hb.head.symm⟩
  hex := congrArg _ hsame.options
  foldCase := congrArg _ hsame.options
  shortLiterals := congrArg _ hsame.options
  tracing := fun _ => congrArg _ hsame.options
  mode := ha.mode.trans hb.mode.symm
  frames := ha.frames.trans hb.frames.symm
  awaiting := hsame.awaiting
  definition := ha.definition.trans hb.definition.symm
  literals := fun _ => hsame.literals
  storage := False.elim

theorem ensures_save (h : Holds words a) (autorun : Bool) :
    (Action.save autorun).Ensures
      (fun blob a' => blob = Image.encode ⟨autorun, latest words, image words⟩ ∧ a' = a)
      (fun _ _ => False) a := by
  simp only [Action.save, Action.ensures_bind, Action.ensures_requireClosed, Action.ensures_get,
    Action.ensures_pure, h.allocated, h.head]
  exact ⟨fun hopen => hopen h.definition, fun _ => ⟨trivial, trivial⟩⟩

end Holds
end Assembler

namespace Reachable
variable {s t : Assembler}

/-- Loading what a session has saved is but another regular operation. -/
theorem attains (h : Reachable s) : ∃ capacity options storage,
    Attains Operation.Regular (.new capacity options storage) s := by
  induction h with
  | start capacity options => exact ⟨capacity, options, _, .refl⟩
  | restart capacity options => exact ⟨capacity, options, _, .refl⟩
  | @perform s h operation hop ih =>
    obtain ⟨capacity, options, storage, hattains⟩ := ih
    obtain ⟨l, hl⟩ := h.exists_history
    have hregular : operation.Regular := by
      cases operation <;> first | exact hop.elim | trivial
    exact ⟨capacity, options, storage, hattains.perform hregular
      (Operation.violation?_of_ensures (Operation.ensures_leads hl.follows hop))⟩
  | load h h' hsave ih =>
    obtain ⟨capacity, options, storage, hattains⟩ := ih
    obtain ⟨l, hl⟩ := h.exists_history
    obtain ⟨m, hm⟩ := h'.exists_history
    exact ⟨capacity, options, storage, hattains.perform trivial
      (Operation.violation?_of_ensures (hl.ensures_load hm hsave))⟩

/-- The words are those of the history; that no control structure is left open holds of any
image. -/
theorem exists_holds (h : Reachable s) (hclosed : s.definition = none) :
    ∃ words, Legal words ∧ s.Holds words := by
  obtain ⟨l, hl⟩ := h.exists_history
  obtain ⟨halloc, hhead⟩ := hl.follows.closed hclosed
  obtain ⟨capacity, options, storage, hattains⟩ := h.attains
  obtain ⟨hframes, -, hmode⟩ := (hattains.safe (.new capacity options storage)).closed hclosed
  exact ⟨l.words, hl.follows.sound.legal, halloc, hhead, hclosed, hmode, hframes⟩

/-- What a closed session saves can be loaded wherever it fits, into any assembler that is not
compiling, and brings the image back. From there on the two give the same replies, if they are set
up alike. Where the image does not fit nothing changes. -/
theorem load_save (h : Reachable s) (hclosed : s.definition = none) (hidle : t.definition = none)
    (autorun : Bool) : ∃ blob, (Action.save autorun).run s = .ok blob s ∧
      (s.here ≤ t.dictionary.memory.size → ∃ t', (Action.load blob).run t =
          .ok (if autorun then s.dictionary.latest?.map (·.code) else none) t' ∧
        t'.dictionary.memory.allocated = s.dictionary.memory.allocated ∧
        t'.dictionary.head = s.dictionary.head ∧ (s.SameSetup t → s.Indistinct t')) ∧
      (t.dictionary.memory.size < s.here →
        (Action.load blob).run t = .error (.refused (.badImage .tooLarge)) t) := by
  obtain ⟨words, hlegal, hs⟩ := h.exists_holds hclosed
  obtain ⟨blob, s', hsave, rfl, rfl⟩ := (hs.ensures_save autorun).exists_run
  refine ⟨_, hsave, ?_⟩
  rw [hs.here_eq]
  obtain ⟨entry, t', hload, -, hfits, d, halloc, hhead, hsize, rfl, rfl⟩ |
      ⟨e, t', hload, rfl, hrefused⟩ :=
    (Action.ensures_load_image hlegal hs.length_image_le autorun).run_cases
  · let t' : Assembler := { t with dictionary := d, frames := [], mode := .interpret }
    have ht : t'.Holds words := ⟨halloc, hhead, hidle, rfl, rfl⟩
    refine ⟨fun _ => ⟨t', ?_, halloc.trans hs.allocated.symm, hhead.trans hs.head.symm, ?_⟩,
      fun hlt => absurd hfits (Nat.not_le_of_lt hlt)⟩
    · rw [hload, hs.latest?_eq ht]
    · intro hsame operations hfree
      have hsame' : s'.SameSetup t' := { hsame with size := hsame.size.trans hsize.symm }
      exact Operation.replies_alike (hs.alike ht hsame') hfree
  · obtain ⟨hlt, rfl⟩ := hrefused hidle
    exact ⟨fun hfits => absurd hfits (Nat.not_le_of_lt hlt), fun _ => hload⟩

/-- A word that is to run is loaded into an assembler that has another word. -/
theorem load_save_word :
    let capacity : Capacity := ⟨64, by decide, by decide⟩
    let s := (Operation.run ": A 1 ;".toUTF8.toList).settle (.new capacity {} .empty)
    let t := (Operation.defineVariable "B").settle (.new capacity {} .empty)
    ∃ blob t', (Action.save true).run s = .ok blob s ∧
      (Action.load blob).run t = .ok (some 4) t' ∧ s.Indistinct t' := by
  intro capacity s t
  have h : Reachable s := .perform (.start _ _ rfl) trivial
  obtain ⟨blob, hsave, hfits, -⟩ :=
    h.load_save (t := t) (by decide +kernel) (by decide +kernel) true
  obtain ⟨t', hload, -, -, hindistinct⟩ := hfits (by decide +kernel)
  have hentry : s.dictionary.latest?.map (·.code) = some 4 := by decide +kernel
  refine ⟨blob, t', hsave, hload.trans (by rw [if_pos rfl, hentry]), hindistinct ?_⟩
  exact ⟨by decide +kernel, by decide +kernel, by decide +kernel, by decide +kernel⟩

end Reachable
end ForthAssembler

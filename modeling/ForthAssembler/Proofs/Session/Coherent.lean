import ForthAssembler.Proofs.Control.Holes
import ForthAssembler.Proofs.Session.Unfailing

/-! Open definitions agree with their entries, and open control structures with the code that is
compiled of them. -/
namespace ForthAssembler
open Instr Text

/-- The newest entry is that of a definition, still hidden, and the frames point into its code. -/
structure Assembler.Unfinished (a : Assembler) (definition : Definition) (entry : Entry) : Prop where
  head : a.dictionary.head = some definition.address
  hidden : entry.hidden = true
  name : entry.name = definition.name
  link : entry.link = definition.previous
  /-- What a frame is to close stands in the code, without a target. -/
  holes : ∀ frame ∈ a.frames, ∀ hole ∈ frame.holes, entry.code ≤ hole.1 ∧ hole.1 + 2 ≤ a.here ∧
    ∃ rest, decode? (a.dictionary.memory.allocated.drop hole.1) = some (hole.2, rest)
  /-- No two frames are to close the same branch, and no frame one of them twice. -/
  apart : (a.frames.flatMap Frame.holes).Pairwise
    fun hole other => hole.1 + 2 ≤ other.1 ∨ other.1 + 2 ≤ hole.1
  tops : ∀ frame ∈ a.frames, ∀ top ∈ frame.top?, entry.code ≤ top ∧ top ≤ a.here
  guarded : Frame.Guarded a.frames

/-- The parts of an assembler agree with each other. -/
structure Assembler.Coherent (capacity : Capacity) (a : Assembler) : Prop where
  mode : a.mode = .compile ↔ a.definition.isSome
  closed : a.definition = none → a.frames = [] ∧ a.awaiting ≠ .operand
  opened : ∀ definition, a.definition = some definition →
    a.Unfinished definition (Entry.read a.dictionary.memory definition.address)
  literals : a.literals.length ≤ Assembler.literalLimit
  size : a.dictionary.memory.size = capacity.bytes
  here_le : a.here ≤ capacity.bytes

namespace Assembler
variable {a : Assembler} {older : List UInt8} {link : Link} {name : String}
  {draft : Draft.Any Instr}

theorem Defines.unfinished (h : a.Defines id older link name draft)
    (hlink : ∀ n ∈ link, n < older.length) :
    a.Unfinished ⟨name, older.length, link⟩ (Entry.read a.dictionary.memory older.length) := by
  obtain ⟨k, d⟩ := draft
  have halloc := h.code.allocated
  have hframes : a.frames = d.frames id (older ++ Entry.header link true name).length :=
    h.code.frames
  have hhere : a.here = (older ++ Entry.header link true name).length + d.size id := h.code.here_eq
  have hcode : (Entry.read a.dictionary.memory older.length).code =
      (older ++ Entry.header link true name).length := by
    rw [Entry.code_read_header halloc h.legal, List.length_append, Entry.length_header]
  have hfit : older.length < Link.endCell := by
    refine Link.lt_endCell ?_ a.dictionary.memory.length_allocated_le
    simp only [halloc, List.length_append, Entry.length_header, Entry.nameOffset]
    omega
  have hsubperm := d.holes_subperm id (older ++ Entry.header link true name).length
  have hsize : ∀ hole ∈ a.frames.flatMap Frame.holes, hole.2.size = 2 := by
    intro hole hmem
    obtain ⟨frame, -, hhole⟩ := List.mem_flatMap.mp hmem
    rcases Frame.placeholder_of_mem_holes hhole with h | h <;> simp [h, Instr.size]
  constructor
  case head => exact h.head
  case hidden =>
    rw [Entry.read_header halloc h.legal]
    exact Tag.isHidden_ofName h.legal.2
  case name => rw [Entry.read_header halloc h.legal]
  case link => exact Entry.link_read_header halloc fun n hn => Nat.lt_trans (hlink n hn) hfit
  case holes =>
    intro frame hframe hole hhole
    have hmem : hole ∈ a.frames.flatMap Frame.holes := List.mem_flatMap_of_mem hframe hhole
    have hlocated := hsubperm.subset (hframes ▸ hmem)
    obtain ⟨hge, hle⟩ := le_of_mem_located hlocated
    rw [hsize hole hmem, d.sizeAll_layout] at hle
    rw [hcode, hhere]
    refine ⟨hge, hle, ?_⟩
    obtain ⟨front, back, hlayout, hoffset⟩ := exists_of_mem_located hlocated
    have hencodable : hole.2.Encodable := by
      rcases Frame.placeholder_of_mem_holes hhole with h | h <;> simp [h, Instr.Encodable]
    refine ⟨bytesAll back, ?_⟩
    rw [halloc, hoffset, hlayout, List.drop_length_add_append, bytesAll_append,
      List.drop_left' (length_bytesAll front), bytesAll_cons]
    exact decode?_bytes hencodable _
  case apart =>
    rw [← hframes] at hsubperm
    refine (pairwise_of_subperm_located hsubperm).imp_of_mem fun hhole hother hapart => ?_
    rwa [Apart, hsize _ hhole, hsize _ hother] at hapart
  case tops =>
    intro frame hframe top htop
    rw [hcode, hhere]
    exact d.tops_le id _ (List.mem_filterMap.mpr ⟨frame, hframes ▸ hframe, htop⟩)
  case guarded =>
    rw [hframes]
    exact d.guarded_frames id _

end Assembler

theorem coherent_of_steady {capacity : Capacity} {a : Assembler} (h : Steady capacity a) :
    a.Coherent capacity where
  mode := by
    rw [Option.isSome_iff_ne_none, ne_eq, ← h.mode_eq_interpret_iff]
    cases a.mode <;> simp
  closed := fun hclosed => by
    obtain ⟨hframes, hawaiting, -⟩ := h.closed hclosed
    exact ⟨hframes, hawaiting⟩
  opened := fun definition hopen => by
    obtain ⟨older, draft, hdefines, hlink⟩ := h.opened definition hopen
    have hunfinished := hdefines.unfinished hlink
    rw [Option.some.inj (hopen.symm.trans hdefines.definition)]
    exact hunfinished
  literals := h.literals
  size := h.size
  here_le := by
    rw [← h.size]
    exact a.dictionary.memory.here_le

/-- In every state that regular operations lead to, whatever they load, the definition that is open
and its control structures agree with the image. -/
theorem Attains.coherent {capacity : Capacity} {options : Options} {storage : Storage}
    {a : Assembler} (h : Attains Operation.Regular (.new capacity options storage) a) :
    a.Coherent capacity :=
  coherent_of_steady (h.safe (.new capacity options storage)).toSteady

/-- A loop and an exit from it, behind an image with a word that has no code. -/
theorem Attains.coherent_loaded :
    let capacity : Capacity := ⟨64, by decide, by decide⟩
    let a := (Operation.feed "BRK").settle <| (Operation.feed "BEGIN").settle <|
      (Operation.define "B").settle <|
      (Operation.load [0x4e, 0x34, 0, 0, 0, 4, 0xff, 0xff, 1, 0x41]).settle <|
      .new capacity {} .empty
    a.frames = [.loop 8 [8]] ∧ a.Coherent capacity := by
  intro capacity a
  have h : Attains Operation.Regular (.new capacity {} .empty) a :=
    .perform (.perform (.perform (.perform .refl trivial (by decide +kernel)) trivial
      (by decide +kernel)) trivial (by decide +kernel)) trivial (by decide +kernel)
  exact ⟨by decide +kernel, h.coherent⟩

end ForthAssembler

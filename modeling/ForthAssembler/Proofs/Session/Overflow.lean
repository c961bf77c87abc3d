import ForthAssembler.Proofs.Assembler.Overflow
import ForthAssembler.Proofs.Session.Hiding
import ForthAssembler.Proofs.Session.LineBreaks
import ForthAssembler.Proofs.Session.Saves

/-! In sessions, addresses are out of range only at the end of an image of the largest capacity. -/
namespace ForthAssembler
open Instr Text Word

namespace Operation

/-- Bytes are loaded only if some session has saved them. Otherwise the operation is an ordinary
one. -/
def Genuine : Operation → Prop
  | load blob => ∃ a autorun a', Reachable a ∧ (Action.save autorun).run a = .ok blob a'
  | operation => operation.Ordinary

/-- The operation itself, and the words and the end of the input that a run consists of, each in its
state. -/
def parts (a : Assembler) (operation : Operation) : List (Assembler × Operation) :=
  (a, operation) ::
    match operation with
    | run input =>
      let progress := Session.readLines false (lines input) a
      (Session.fedLines false (lines input) a).map (fun fed => (fed.1, feed fed.2)) ++
        if progress.halt.isNone then [(progress.assembler, finish)] else []
    | _ => []

theorem Genuine.regular {operation : Operation} (h : operation.Genuine) : operation.Regular := by
  cases operation with
  | compile token => exact h.elim
  | close => exact h.elim
  | _ => trivial

end Operation

namespace Follows
variable {l : Ledger} {a : Assembler}

/-- Words are called at or before the cursor. -/
theorem code_le_here (h : Follows l a) {target : Nat} (htarget : target ∈ codes l.words) :
    target ≤ a.here := by
  obtain ⟨newer, word, older, hwords, rfl⟩ := mem_codes_iff.mp htarget
  have hword : code older word.name ≤ (image l.words).length := by
    rw [hwords]
    refine Nat.le_trans ?_ (length_image_le newer (word :: older))
    rw [length_image_cons]
    exact Nat.le_add_right _ _
  have hhere : a.dictionary.memory.allocated.length = a.here := Memory.length_allocated _
  refine Nat.le_trans hword ?_
  rw [← hhere]
  cases hdefinition : a.definition with
  | none => exact Nat.le_of_eq (by rw [(h.closed hdefinition).1])
  | some definition =>
    obtain ⟨draft, hdefines, -⟩ := h.opened definition hdefinition
    rw [hdefines.code.allocated]
    simp only [List.length_append]
    omega

end Follows

namespace Action
variable {a : Assembler}

/-- A run itself is not refused; what is refused in it is printed. -/
theorem not_refused_session (input : List UInt8) :
    (session input).Meets (fun _ _ => True) (fun _ _ => False) True a := by
  unfold Meets session
  simp only [EStateM.run]
  split
  · trivial
  · rename_i hrun
    split at hrun <;> cases hrun
  · trivial

end Action

/-- What an operation may call lies in the image. -/
theorem Follows.target_le {l : Ledger} {a : Assembler} (h : Follows l a) {operation : Operation}
    (hop : operation.Genuine) {target : Nat} (hcalls : (operation.demand a).calls target) :
    target ≤ a.dictionary.memory.size := by
  cases operation with
  | feed word =>
    have hword : a.classify word = .word target := by
      change (a.demand word).calls target at hcalls
      unfold Assembler.demand at hcalls
      split at hcalls
      · exact hcalls.elim
      · exact hcalls.elim
      · exact hcalls.elim
      · exact hcalls
    exact Nat.le_trans (h.code_le_here (h.mem_codes_of_classify hword))
      a.dictionary.memory.here_le
  | compile token => exact hop.elim
  | _ => exact hcalls.elim

theorem Reachable.settle {a : Assembler} (h : Reachable a) {operation : Operation}
    (hop : operation.Genuine) : Reachable (operation.settle a) := by
  cases operation with
  | load blob =>
    obtain ⟨b, autorun, b', hb, hsave⟩ := hop
    exact .load h hb hsave
  | _ => exact .perform h hop

namespace Keeping
variable {capacity : Capacity} {limit : Option Nat} {a : Assembler}

/-- Open control structures are those of the open definition, and lie before the cursor. -/
theorem frames_le (h : Keeping capacity limit a) :
    (∀ hole ∈ a.frames.flatMap Frame.holes, hole.1 + 2 ≤ a.here) ∧
      ∀ top ∈ a.frames.filterMap Frame.top?, top ≤ a.here := by
  cases hdefinition : a.definition with
  | none => simp [(h.closed hdefinition).1]
  | some definition =>
    obtain ⟨older, draft, hdefines, -⟩ := h.opened definition hdefinition
    exact ⟨hdefines.hole_le, hdefines.top_le⟩

/-- What is refused in a session keeps to the capacity. -/
theorem atEnd_of_refused (h : Keeping capacity limit a) {operation : Operation}
    (hop : operation.Genuine) {e : Error} {a' : Assembler}
    (hrun : operation.perform.run a = .error (.refused e) a') : e.AtEnd capacity.bytes := by
  by_cases hsession : ∃ input, operation = .run input
  · obtain ⟨input, rfl⟩ := hsession
    have hperform : (Operation.run input).perform.Meets (fun _ _ => True) (fun _ _ => False) True
        a := (Action.meets_map _ _).mpr (Action.not_refused_session input)
    exact (hperform.of_refused hrun).elim
  · have hfailure := (Operation.does_perform fun input heq => hsession ⟨input, heq⟩).of_error hrun
    obtain ⟨hframes, hdictionary⟩ : (operation.dropAwaiting a).frames = a.frames ∧
        (operation.dropAwaiting a).dictionary = a.dictionary :=
      Operation.of_dropAwaiting (P := fun b => b.frames = a.frames ∧ b.dictionary = a.dictionary)
        ⟨rfl, rfl⟩ ⟨rfl, rfl⟩ operation
    obtain ⟨hholes, htops⟩ := h.frames_le
    obtain ⟨l, hl⟩ := h.reachable.exists_history
    rw [← h.size, ← hdictionary]
    apply hfailure.atEnd
    · rwa [hframes, Assembler.here, hdictionary]
    · rwa [hframes, Assembler.here, hdictionary]
    · rw [hdictionary]
      exact fun target => hl.follows.target_le hop

theorem of_mem_parts (h : Keeping capacity limit a) {operation : Operation}
    (hop : operation.Genuine) : ∀ part ∈ operation.parts a,
      Keeping capacity limit part.1 ∧ part.2.Genuine := by
  refine List.forall_mem_cons.mpr ⟨⟨h, hop⟩, ?_⟩
  cases operation with
  | run input =>
    have hstops := (Keeping.session capacity limit).stops_readLines h false (lines input)
    intro part hpart
    rcases List.mem_append.mp hpart with hpart | hpart
    · obtain ⟨fed, hfed, rfl⟩ := List.mem_map.mp hpart
      exact ⟨(Keeping.session capacity limit).of_mem_fedLines h fed hfed, trivial⟩
    · split at hpart
      · rename_i hhalt
        rw [Option.isNone_iff_eq_none.mp hhalt] at hstops
        obtain rfl := List.mem_singleton.mp hpart
        exact ⟨hstops, trivial⟩
      · cases hpart
  | _ => simp

end Keeping

section
open Assembler

/-- A session over an image of some capacity in which small numbers compile to one byte. -/
abbrev Assembler.brief (capacity : Capacity) : Assembler :=
  .new capacity { shortLiterals := true } .empty

/-- The first word of the image is being defined, and no word is awaited. -/
structure Filling (capacity : Capacity) (a : Assembler) : Prop where
  attains : Attains Operation.Genuine (.brief capacity) a
  underway : Underway (.brief capacity) "A" a
  awaiting : a.awaiting = .nothing
  size : a.dictionary.memory.size = capacity.bytes

theorem Assembler.allocated_brief (capacity : Capacity) :
    (brief capacity).dictionary.memory.allocated = [] := Memory.allocated_blank capacity

namespace Filling
variable {capacity : Capacity} {a : Assembler}

theorem mode (h : Filling capacity a) : a.mode = .compile := by
  obtain ⟨draft, hdefines⟩ := h.underway.defines
  exact hdefines.mode

/-- Words mean what they do in any empty image. -/
theorem classify (h : Filling capacity a) (text : String) :
    a.classify text =
      Token.classify (.blank .standard) .compile { shortLiterals := true } text := by
  have hblank : (brief capacity).dictionary.memory.allocated = image [] := allocated_brief capacity
  have hfind := h.underway.find? hblank rfl (by simp [Legal]) false text
  rw [Assembler.classify, h.mode, h.underway.options]
  exact Token.classify_congr hfind

theorem run_feed_one (h : Filling capacity a) :
    (Action.feed "1").run a = (Action.emit [.short 1] []).run a := by
  have hone : a.classify "1" = .number 1 := (h.classify "1").trans (by decide +kernel)
  rw [Action.run_feed_compile h.awaiting h.mode, hone, Action.compile, Action.run_get_bind,
    h.underway.options]
  rfl

/-- One more byte is taken up. -/
theorem feed_one (h : Filling capacity a) (hspace : a.here < capacity.bytes) :
    ∃ b, Filling capacity b ∧ b.here = a.here + 1 := by
  have halloc : a.dictionary.memory.allocated = a.dictionary.memory.allocated ++ bytesAll [] := by
    simp
  have hemit := Action.ensures_emit [.short 1] (a.here + 1) halloc (.nil _ _ _)
    (by simp [Memory.length_allocated, Instr.size]; rfl)
  obtain ⟨outcome, b, hb, hext, -, -, hgrown⟩ :=
    (hemit.mono (fun _ _ h => h) fun e b hrefused => by
      obtain ⟨-, hlt | ⟨hne, -⟩ | hnot⟩ := hrefused
      · rw [h.size] at hlt
        omega
      · exact hne rfl
      · exact hnot (by simp [Instr.Encodable, maxShort])).exists_run
  have hperform : (Operation.feed "1").perform.run a = .ok (.outcome outcome) b :=
    Operation.run_map_ok (h.run_feed_one.trans hb)
  have hsettle : (Operation.feed "1").settle a = b := Operation.settle_of_ok hperform
  have hunderway : Underway (.brief capacity) "A" b := by
    obtain hclosed | hunderway :=
      (h.underway.meets_perform (show (Operation.feed "1").Single from trivial)).of_ok hperform
    · exact absurd (hext.definition.symm.trans hclosed) h.underway.isOpen
    · exact hunderway
  refine ⟨b, ⟨?_, hunderway, hext.awaiting.trans h.awaiting, hext.size.trans h.size⟩, ?_⟩
  · rw [← hsettle]
    exact h.attains.perform (show (Operation.feed "1").Genuine from trivial)
      (by simp [Operation.violation?, hperform])
  · have hlength := congrArg List.length hgrown
    simp only [Memory.length_allocated, List.nil_append, List.length_append, length_bytesAll,
      sizeAll_cons, sizeAll_nil, Instr.size] at hlength
    exact hlength

/-- The image can be filled up to any offset. -/
theorem exists_of_le (h : Filling capacity a) {n : Nat} (hle : a.here + n ≤ capacity.bytes) :
    ∃ b, Filling capacity b ∧ b.here = a.here + n := by
  induction n with
  | zero => exact ⟨a, h, rfl⟩
  | succ n ih =>
    obtain ⟨b, hb, hhere⟩ := ih (by omega)
    obtain ⟨c, hc, hhere'⟩ := hb.feed_one (by omega)
    exact ⟨c, hc, by omega⟩

theorem exists_defined (hspace : 4 ≤ capacity.bytes) : ∃ a, Filling capacity a ∧ a.here = 4 := by
  have hsize : (brief capacity).dictionary.memory.size = capacity.bytes := Array.size_replicate
  have hheader : Entry.nameOffset + (utf8 "A").length = 4 := by decide +kernel
  obtain ⟨address, a, hrun, -, -, hkeeps, hdefines⟩ | ⟨e, a, -, -, hlt⟩ :=
    (Action.ensures_define id "A" (a := brief capacity)).run_cases
  · have hperform : (Operation.define "A").perform.run (brief capacity) = .ok (.number address) a :=
      Operation.run_map_ok hrun
    have hsettle : (Operation.define "A").settle (brief capacity) = a :=
      Operation.settle_of_ok hperform
    refine ⟨a, ⟨?_, ⟨hkeeps.options, _, hdefines⟩, hkeeps.awaiting, hkeeps.size.trans hsize⟩, ?_⟩
    · rw [← hsettle]
      exact Attains.refl.perform (show (Operation.define "A").Genuine from trivial)
        (by simp [Operation.violation?, hperform])
    · have hhere : a.here = _ := hdefines.code.here_eq
      rw [hhere, allocated_brief, List.nil_append, Entry.length_header]
      exact hheader
  · have hunused : (brief capacity).dictionary.memory.unused = capacity.bytes := hsize
    have := hlt rfl (by decide)
    omega

/-- A definition can fill an image to its last byte. -/
theorem exists_filled (hspace : 4 ≤ capacity.bytes) :
    ∃ a, Filling capacity a ∧ a.here = capacity.bytes := by
  obtain ⟨a, ha, hhere⟩ := exists_defined hspace
  obtain ⟨b, hb, hhere'⟩ := ha.exists_of_le (n := capacity.bytes - 4) (by omega)
  exact ⟨b, hb, by omega⟩

end Filling
end

/-- In a session over an image of some capacity, which loads only what sessions have saved, an
address is out of range only if the capacity is the largest and the address the end of the image. So
smaller images never see it. -/
theorem Attains.overflows_at_end {capacity : Capacity} {options : Options} {storage : Storage}
    {a : Assembler} (hnew : Reachable (.new capacity options storage))
    (h : Attains Operation.Genuine (.new capacity options storage) a) {operation : Operation}
    (hop : operation.Genuine) :
    ∀ part ∈ operation.parts a, ∀ address a',
      part.2.perform.run part.1 = .error (.refused (.addressOverflow address)) a' →
        capacity.bytes = maxCapacity ∧ address = maxCapacity := by
  have hkeeping : Safe capacity a ∧ Reachable a := by
    clear hop
    induction h with
    | refl => exact ⟨.new capacity options storage, hnew⟩
    | perform _ hop _ ih => exact ⟨ih.1.settle hop.regular, ih.2.settle hop⟩
  intro part hpart address a' hrun
  have hsession : Keeping capacity a.storage.limit? a := ⟨hkeeping.1, hkeeping.2, rfl⟩
  obtain ⟨hpart, hgenuine⟩ := hsession.of_mem_parts hop part hpart
  exact hpart.atEnd_of_refused hgenuine hrun

/-- A loop is to begin at the end of an image of 4096 bytes. -/
theorem Attains.overflows_at_end_begin :
    let capacity : Capacity := ⟨maxCapacity, by decide, Nat.le_refl _⟩
    ∃ a a', Attains Operation.Genuine (.brief capacity) a ∧
      (Operation.feed "BEGIN").perform.run a =
        .error (.refused (.addressOverflow maxCapacity)) a' ∧
      capacity.bytes = maxCapacity := by
  intro capacity
  obtain ⟨a, ha, hhere⟩ := @Filling.exists_filled capacity (by decide)
  have hbegin : a.classify "BEGIN" = .compileWord .beginWord :=
    (ha.classify "BEGIN").trans (by decide +kernel)
  have hrun : (Action.feed "BEGIN").run a = .error (.refused (.addressOverflow maxCapacity)) a := by
    have hlt : maxTarget < a.here := by
      rw [hhere]
      decide
    rw [Action.run_feed_compile ha.awaiting ha.mode, hbegin, Action.compile, Action.compileWord,
      Action.openLoop, Action.run_get_bind, if_pos hlt, hhere]
    rfl
  have hperform := Operation.run_map_error (f := Reply.outcome) hrun
  have hnew : Reachable (.brief capacity) := .start _ _ rfl
  refine ⟨a, a, ha.attains, hperform, ?_⟩
  have hop : (Operation.feed "BEGIN").Genuine := trivial
  exact (Attains.overflows_at_end hnew ha.attains hop _ List.mem_cons_self _ a hperform).1

end ForthAssembler

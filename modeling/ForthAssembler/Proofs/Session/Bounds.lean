import ForthAssembler.Proofs.Session.Unfailing

/-! Regular operations keep to the buffer: each slice lies in it, and no offset is subtracted from a
smaller one. -/
namespace ForthAssembler
open Instr

namespace Memory
variable {m m' : Memory}

/-- The bytes of the buffer from one offset up to another. The offsets must be in order and in the
buffer. -/
def slice? (m : Memory) (start stop : Nat) : Option (List UInt8) :=
  if start ≤ stop ∧ stop ≤ m.size then some ((m.buffer.toList.take stop).drop start) else none

theorem slice?_of_le {start stop : Nat} (h : start ≤ stop) (hstop : stop ≤ m.here) :
    m.slice? start stop = some ((m.allocated.take stop).drop start) := by
  have hsize : stop ≤ m.size := Nat.le_trans hstop m.here_le
  have hmin : min stop m.here = stop := Nat.min_eq_left hstop
  rw [slice?, if_pos ⟨h, hsize⟩, allocated, List.take_take, hmin]

theorem slice?_allocated (m : Memory) : m.slice? 0 m.here = some m.allocated := by
  rw [slice?_of_le (Nat.zero_le _) (Nat.le_refl _), ← length_allocated, List.take_length,
    List.drop_zero]

/-- The offsets of a range are clamped. -/
theorem slice?_range (m : Memory) (start stop : Nat) :
    m.slice? (min start (min stop m.here)) (min stop m.here) = some (m.range start stop) := by
  rw [slice?_of_le (Nat.min_le_right _ _) (Nat.min_le_right _ _), range_eq]
  have htake : m.allocated.take (min stop m.here) = m.allocated.take stop := by
    rw [← length_allocated, List.take_eq_take_iff]
    omega
  rw [htake]
  by_cases hle : start ≤ min stop m.here
  · rw [Nat.min_eq_left hle]
  · have hlength : (m.allocated.take stop).length = min stop m.here := by
      rw [List.length_take, length_allocated]
    rw [Nat.min_eq_right (Nat.le_of_not_le hle), List.drop_eq_nil_of_le (Nat.le_of_eq hlength),
      List.drop_eq_nil_of_le (by omega)]

theorem slice?_push {bytes : List UInt8} {start : Nat} (h : m.push? bytes = some (start, m')) :
    m'.slice? start m'.here = some bytes := by
  obtain ⟨rfl, halloc, -⟩ := of_push?_eq_some h
  have hhere : m'.here = m.here + bytes.length := by
    rw [← length_allocated, halloc, List.length_append, length_allocated]
  rw [slice?_of_le (by omega) (Nat.le_refl _), ← length_allocated m', List.take_length, halloc,
    ← length_allocated m, List.drop_left]

end Memory

/-- The bytes of a line are as many as its instruction takes. -/
theorem length_of_mem_disassemble {base : Nat} {bytes : List UInt8} {line : Line} {instr : Instr}
    (hline : line ∈ disassemble base bytes) (hinstr : line.instr = some instr) :
    line.bytes.length = instr.size := by
  induction base, bytes using disassemble.induct with
  | case1 base => simp [disassemble] at hline
  | case2 base first rest hdecode =>
    rw [disassemble, hdecode] at hline
    obtain rfl := List.mem_singleton.mp hline
    cases hinstr
  | case3 base first rest found after hdecode ih =>
    have hlength := Instr.length_of_decode? hdecode
    rw [disassemble, hdecode] at hline
    rcases List.mem_cons.mp hline with rfl | hline
    · obtain rfl := Option.some.inj hinstr
      rw [List.length_take]
      omega
    · exact ih hline

/-- Wherever a part of the buffer is taken or an offset is subtracted, the bounds are in order. -/
structure Assembler.InBounds (a : Assembler) : Prop where
  /-- The rest of the buffer is what lies behind the cursor. -/
  cursor : a.here ≤ a.dictionary.memory.size
  allocated : a.dictionary.memory.slice? 0 a.here = some a.dictionary.memory.allocated
  range : ∀ start stop, a.dictionary.memory.slice? (min start (min stop a.here)) (min stop a.here) =
    some (a.dictionary.memory.range start stop)
  appended : ∀ bytes start m, a.dictionary.memory.push? bytes = some (start, m) →
    m.slice? start m.here = some bytes
  listed : ∀ start stop line instr, line ∈ a.dictionary.trace start stop →
    line.instr = some instr → line.bytes.length = instr.size
  head : ∀ n ∈ a.dictionary.head, n < a.here
  /-- The size of a word that is closed is counted from its header on. -/
  closed : ∀ definition outcome a', a.definition = some definition →
    Action.close.run a = .ok outcome a' → definition.address ≤ a'.here
  /-- The cell of a variable stands last. -/
  «variable» : ∀ name address a', (Action.defineVariable name).run a = .ok address a' →
    Action.cellSize ≤ a'.here

namespace Assembler
variable {older : List UInt8} {link : Link} {name : String} {a : Assembler}

/-- The header and the body of a word lie before the cursor. -/
theorem Added.header_le {body : List UInt8} (h : Added older link name body a) :
    older.length + Entry.nameOffset ≤ a.here := by
  have hhere : a.here = a.dictionary.memory.allocated.length := (Memory.length_allocated _).symm
  rw [hhere, h.allocated]
  simp only [List.length_append, Entry.length_header]
  omega

end Assembler

theorem Safe.inBounds {capacity : Capacity} {a : Assembler} (h : Safe capacity a) : a.InBounds where
  cursor := a.dictionary.memory.here_le
  allocated := a.dictionary.memory.slice?_allocated
  range := a.dictionary.memory.slice?_range
  appended := fun _ _ _ => Memory.slice?_push
  listed := fun _ _ _ _ => length_of_mem_disassemble
  head := h.head
  closed := by
    intro definition outcome a' hdefinition hclose
    obtain ⟨older, draft, hdefines, -⟩ := h.opened definition hdefinition
    obtain ⟨body, -, -, -, -, hadded⟩ := (Action.ensures_close hdefines).of_ok hclose
    have haddress : definition.address = older.length :=
      congrArg Definition.address (Option.some.inj (hdefinition.symm.trans hdefines.definition))
    rw [haddress]
    exact Nat.le_trans (Nat.le_add_right _ _) hadded.header_le
  «variable» := by
    intro name address a' hrun
    obtain ⟨body, hadded⟩ := ((Action.adds_defineVariable name).of_ok hrun).added
    have hle := hadded.header_le
    simp only [Entry.nameOffset] at hle
    simp only [Action.cellSize]
    omega

namespace Operation

theorem safe_settleAll {capacity : Capacity} {a : Assembler} (h : Safe capacity a)
    {operations : List Operation} (hops : ∀ operation ∈ operations, operation.Regular) :
    Safe capacity (settleAll operations a) := by
  induction operations generalizing a with
  | nil => exact h
  | cons operation rest ih =>
    obtain ⟨hop, hrest⟩ := List.forall_mem_cons.mp hops
    exact ih (h.settle hop) hrest

/-- After any regular operations, whatever they have loaded and whatever came of each, the next one
fails no assertion, and all that is sliced or subtracted is in bounds. -/
theorem unfailing (capacity : Capacity) (options : Options) (storage : Storage)
    {operations : List Operation} (hops : ∀ operation ∈ operations, operation.Regular) :
    let a := settleAll operations (.new capacity options storage)
    a.InBounds ∧ ∀ operation : Operation, operation.Regular →
      operation.violation? a = none ∧ (operation.settle a).InBounds := by
  intro a
  have ha : Safe capacity a := safe_settleAll (.new capacity options storage) hops
  exact ⟨ha.inBounds, fun operation hop => ⟨ha.violation?_eq_none hop, (ha.settle hop).inBounds⟩⟩

/-- The entry at 5 begins with the second byte of the link of the one at 4, and the entry of `v` takes
its place. -/
theorem unfailing_overlap :
    let blob := Image.encode ⟨false, some 5, [0xff, 0xff, 1, 0x61, 0, 0, 4, 3, 0x62, 0x63, 0x64]⟩
    let a := settleAll [load blob, forget "bcd", defineVariable "v"]
      (.new ⟨32, by decide, by decide⟩ {} .empty)
    a.dictionary.head = some 5 ∧ a.InBounds ∧ (forget "v").violation? a = none := by
  intro blob a
  obtain ⟨hbounds, hnext⟩ := @unfailing ⟨32, by decide, by decide⟩ {} .empty
    [load blob, forget "bcd", defineVariable "v"] (by simp [Regular])
  exact ⟨by decide +kernel, hbounds, (hnext (forget "v") trivial).1⟩

end Operation
end ForthAssembler

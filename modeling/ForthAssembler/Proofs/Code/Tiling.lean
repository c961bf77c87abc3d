import ForthAssembler.Proofs.Code.Codec

/-! Listings cover the bytes that they are made of: each line takes up where the one before it ends,
and only a rest in which an instruction is cut off is not read. -/
namespace ForthAssembler
open Instr

/-- The lines stand for the bytes from offset `base` on, one instruction after the other. -/
inductive Lists : Nat → List UInt8 → List Line → Prop
  | done (base : Nat) : Lists base [] []
  /-- A rest in which an instruction is cut off. -/
  | cut (base : Nat) {rest : List UInt8} (hrest : rest ≠ []) (hread : decode? rest = none) :
      Lists base rest [⟨base, rest, none⟩]
  | read (base : Nat) {instr : Instr} {bytes rest : List UInt8} {lines : List Line}
      (hread : decode? bytes = some (instr, [])) (h : Lists (base + instr.size) rest lines) :
      Lists base (bytes ++ rest) (⟨base, bytes, some instr⟩ :: lines)

/-- What a line says of its own bytes. -/
structure Line.Faithful (line : Line) : Prop where
  nonempty : line.bytes ≠ []
  read : ∀ instr, line.instr = some instr →
    line.bytes.length = instr.size ∧ decode? line.bytes = some (instr, [])
  cut : line.instr = none → decode? line.bytes = none

namespace Instr
variable {bytes rest : List UInt8} {instr : Instr}

/-- An instruction is read from its own bytes as it is from the whole. -/
theorem decode?_take (h : decode? bytes = some (instr, rest)) :
    bytes = bytes.take instr.size ++ rest ∧
      decode? (bytes.take instr.size) = some (instr, []) := by
  have hlength := length_of_decode? h
  obtain ⟨hencodable, rfl | ⟨first, rfl, hret, rfl⟩⟩ := bytes_of_decode? h
  · have htake : (instr.bytes ++ rest).take instr.size = instr.bytes := by
      rw [← length_bytes, List.take_left]
    have hread := decode?_bytes hencodable []
    rw [List.append_nil] at hread
    rw [htake]
    exact ⟨rfl, hread⟩
  · exact ⟨rfl, decode?_of_retOpcode_le (UInt8.le_of_lt hret) []⟩

end Instr

/-- By induction on the listing: after each instruction it goes on with what is left. -/
theorem lists_disassemble (base : Nat) (bytes : List UInt8) :
    Lists base bytes (disassemble base bytes) := by
  induction base, bytes using disassemble.induct with
  | case1 base =>
    rw [disassemble]
    exact .done base
  | case2 base first rest hread =>
    rw [disassemble, hread]
    exact .cut base (List.cons_ne_nil _ _) hread
  | case3 base first rest instr after hread ih =>
    obtain ⟨hsplit, htake⟩ := decode?_take hread
    have hlists := Lists.read base htake ih
    rw [← hsplit] at hlists
    rw [disassemble, hread]
    exact hlists

namespace Lists
variable {base : Nat} {bytes : List UInt8} {lines front back : List Line} {line : Line}

theorem flatMap_bytes (h : Lists base bytes lines) : lines.flatMap Line.bytes = bytes := by
  induction h with
  | done base => rfl
  | cut base hrest hread => simp
  | read base hread h ih => rw [List.flatMap_cons, ih]

/-- There are no more lines than bytes. -/
theorem length_le (h : Lists base bytes lines) : lines.length ≤ bytes.length := by
  induction h with
  | done base => exact Nat.le_refl 0
  | cut base hrest hread => exact List.length_pos_iff.mpr hrest
  | @read base instr bytes rest lines hread h ih =>
    have hlength : bytes.length = instr.size := length_of_decode? hread
    have hpos := instr.size_pos
    rw [List.length_cons, List.length_append]
    omega

/-- Each line stands where those before it end, and nothing comes after a cut-off rest. By induction
on the listing, with the line either the first or among the others. -/
theorem of_append (h : Lists base bytes lines) (hlines : lines = front ++ line :: back) :
    line.Faithful ∧ line.address = base + (front.flatMap Line.bytes).length ∧
      (line.instr = none → back = []) := by
  induction h generalizing front with
  | done base => simp at hlines
  | cut base hrest hread =>
    cases front with
    | nil =>
      cases hlines
      exact ⟨⟨hrest, nofun, fun _ => hread⟩, rfl, fun _ => rfl⟩
    | cons first front => simp at hlines
  | @read base instr bytes rest lines hread h ih =>
    have hlength : bytes.length = instr.size := length_of_decode? hread
    cases front with
    | nil =>
      cases hlines
      have hpos : 0 < bytes.length := hlength ▸ instr.size_pos
      refine ⟨⟨List.ne_nil_of_length_pos hpos, ?_, nofun⟩, rfl, nofun⟩
      rintro _ ⟨⟩
      exact ⟨hlength, hread⟩
    | cons first front =>
      cases hlines
      obtain ⟨hfaithful, haddress, hlast⟩ := ih rfl
      refine ⟨hfaithful, ?_, hlast⟩
      rw [haddress, List.flatMap_cons, List.length_append, hlength, Nat.add_assoc]

end Lists

theorem map_instr_listing (base : Nat) (code : List Instr) :
    (listing base code).map Line.instr = code.map some := by
  induction code generalizing base with
  | nil => rfl
  | cons instr code ih => rw [listing, List.map_cons, ih, List.map_cons]

/-- Whatever the bytes are, a listing of them ends, and its lines take up all of them in their
order: each stands where the one before it ends, and shows the instruction that its own bytes stand
for, but for a last one in which an instruction is cut off. A listing of the code of some
instructions shows these. -/
theorem disassemble_tiles (base : Nat) (bytes : List UInt8) :
    (disassemble base bytes).flatMap Line.bytes = bytes ∧
    (disassemble base bytes).length ≤ bytes.length ∧
    (∀ front line back, disassemble base bytes = front ++ line :: back →
      line.Faithful ∧ line.address = base + (front.flatMap Line.bytes).length ∧
        (line.instr = none → back = [])) ∧
    ∀ code : List Instr, (∀ instr ∈ code, ∃ part, encode instr = .ok part) →
      ∃ whole, encodeAll code = .ok whole ∧
        (disassemble base whole).map Line.instr = code.map some := by
  have hlists := lists_disassemble base bytes
  refine ⟨hlists.flatMap_bytes, hlists.length_le, fun front line back hlines => ?_, ?_⟩
  · exact hlists.of_append hlines
  · intro code hcode
    have hencodable : ∀ instr ∈ code, instr.Encodable := by
      intro instr hinstr
      obtain ⟨part, hpart⟩ := hcode instr hinstr
      exact (encode_eq_ok_iff.mp hpart).1
    refine ⟨bytesAll code, encodeAll_eq_ok_iff.mpr ⟨hencodable, rfl⟩, ?_⟩
    rw [disassemble_bytesAll hencodable, map_instr_listing]

/-- A text whose bytes look like a branch and a return, before a branch that is cut off. -/
theorem disassemble_tiles_text :
    let code : List Instr := [.text [0xc1, 0xf0], .ret]
    let bytes : List UInt8 := [0xba, 2, 0xc1, 0xf0, 0xf0]
    encodeAll code = .ok bytes ∧ (disassemble 16 bytes).map Line.instr = code.map some ∧
      disassemble 16 (bytes ++ [0xc1]) =
        listing 16 code ++ [⟨21, [0xc1], none⟩] ∧
      (⟨21, [0xc1], none⟩ : Line).Faithful := by
  intro code bytes
  have hcode : ∀ instr ∈ code, ∃ part, encode instr = .ok part :=
    List.forall_mem_cons.mpr ⟨⟨[0xba, 2, 0xc1, 0xf0], rfl⟩,
      List.forall_mem_singleton.mpr ⟨[0xf0], rfl⟩⟩
  obtain ⟨-, -, hlines, hread⟩ := disassemble_tiles 16 (bytes ++ [0xc1])
  obtain ⟨whole, hwhole, hinstrs⟩ := hread code hcode
  cases hwhole
  have hlisting : disassemble 16 (bytes ++ [0xc1]) =
      listing 16 code ++ [⟨21, [0xc1], none⟩] := by decide +kernel
  exact ⟨rfl, hinstrs, hlisting, (hlines _ _ [] hlisting).1⟩

end ForthAssembler

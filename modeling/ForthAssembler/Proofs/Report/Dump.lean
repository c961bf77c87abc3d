import ForthAssembler.Memory.Lemmas
import ForthAssembler.Proofs.Text.Columns
import ForthAssembler.Proofs.Text.Rows
import ForthAssembler.Session.Operation
import Mathlib.Data.List.Nodup
import Mathlib.Order.Bounds.Basic

/-! Dumps show the bytes of a window, each at its offset. -/
namespace ForthAssembler
open Text

namespace DumpLine

/-- Reads a line from its columns: three digits of the offset, and the words of the column of
bytes. -/
def read? (text : String) : Option DumpLine :=
  match text.toList with
  | x :: y :: z :: ':' :: ' ' :: rest => do
    let address ← natural? 16 [x, y, z]
    let bytes ← (words (String.ofList (rest.take (width * 3 - 1)))).mapM fun word =>
      natural? 16 word.toList
    return ⟨address, bytes.map UInt8.ofNat⟩
  | _ => none

theorem length_hexPadded_byte (b : UInt8) : (hexPadded 2 b.toNat).toList.length = 2 :=
  length_hexPadded (by decide) b.toNat_lt

theorem length_hexBytes (bytes : List UInt8) :
    (hexBytes bytes).toList.length = bytes.length * 3 - 1 := by
  induction bytes with
  | nil => rfl
  | cons b bytes ih =>
    rw [hexBytes] at ih ⊢
    have hbyte := length_hexPadded_byte b
    by_cases hlast : bytes = []
    · subst hlast
      rw [List.map_cons, List.map_nil, String.intercalate_singleton, hbyte]
      rfl
    · have hpos := List.length_pos_iff.mpr hlast
      rw [List.map_cons, String.intercalate_cons_of_ne_nil (by simpa using hlast),
        String.toList_append, String.toList_append, List.length_append, List.length_append, ih,
        hbyte, List.length_cons]
      show 2 + 1 + _ = _
      omega

/-- The words of a column of bytes are their digits. -/
theorem words_hexBytes (bytes : List UInt8) (count : Nat) :
    words (String.ofList ((hexBytes bytes).toList ++ List.replicate count ' ')) =
      bytes.map fun b => hexPadded 2 b.toNat := by
  apply words_intercalate
  intro word hword
  obtain ⟨b, -, rfl⟩ := List.mem_map.mp hword
  have hspells := spells_hexPadded 2 b.toNat
  exact ⟨hspells.1, hspells.not_blank⟩

/-- The column of bytes is filled up with spaces. -/
theorem toList_column (bytes : List UInt8) :
    (padRight (width * 3 - 1) (hexBytes bytes)).toList =
      (hexBytes bytes).toList ++
        List.replicate (width * 3 - 1 - (bytes.length * 3 - 1)) ' ' := by
  rw [padRight, String.toList_ofList, List.rightpad, length_hexBytes]

theorem length_column {bytes : List UInt8} (h : bytes.length ≤ width) :
    (padRight (width * 3 - 1) (hexBytes bytes)).toList.length = width * 3 - 1 := by
  rw [toList_column, List.length_append, List.length_replicate, length_hexBytes]
  simp only [width] at h ⊢
  omega

theorem read_column (bytes : List UInt8) :
    ((words (String.ofList (padRight (width * 3 - 1) (hexBytes bytes)).toList)).mapM fun word =>
      natural? 16 word.toList) = some (bytes.map UInt8.toNat) := by
  rw [toList_column, words_hexBytes]
  apply mapM_map_eq_some
  exact fun b _ => natural?_hexPadded 2 b.toNat

/-- What is rendered can be read. -/
theorem read?_render {line : DumpLine} (haddress : line.address < 16 ^ 3)
    (hlength : line.bytes.length ≤ width) : read? line.render = some line := by
  obtain ⟨x, y, z, hdigits⟩ := List.length_eq_three.mp (length_hexPadded (by decide) haddress)
  have hvalue := natural?_hexPadded 3 line.address
  rw [hdigits] at hvalue
  have hrender : line.render.toList = x :: y :: z :: ':' :: ' ' ::
      ((padRight (width * 3 - 1) (hexBytes line.bytes)).toList ++
        ("  ".toList ++ line.bytes.map glyph)) := by
    have hcolon : ": ".toList = [':', ' '] := rfl
    simp only [render, String.toList_append, String.toList_ofList, hdigits, hcolon,
      List.append_assoc, List.cons_append, List.nil_append]
  have hbytes : (line.bytes.map UInt8.toNat).map UInt8.ofNat = line.bytes := by
    rw [List.map_map]
    exact (List.map_congr_left fun b _ => UInt8.ofNat_toNat).trans (List.map_id _)
  simp only [read?, hrender, List.take_left' (length_column hlength), hvalue, read_column,
    Option.bind_eq_bind, Option.bind_some, hbytes, Option.pure_def]

end DumpLine

namespace Memory

theorem isGreatest_first (start : Nat) :
    IsGreatest {n | dumpAlignment ∣ n ∧ n ≤ start} (start / dumpAlignment * dumpAlignment) := by
  constructor
  · exact ⟨Nat.dvd_mul_left _ _, Nat.div_mul_le_self _ _⟩
  · rintro _ ⟨⟨k, rfl⟩, hle⟩
    simp only [dumpAlignment] at hle ⊢
    omega

theorem isLeast_stop (stop : Nat) :
    IsLeast {n | dumpAlignment ∣ n ∧ stop ≤ n}
      ((stop + dumpAlignment - 1) / dumpAlignment * dumpAlignment) := by
  constructor
  · refine ⟨Nat.dvd_mul_left _ _, ?_⟩
    simp only [dumpAlignment]
    omega
  · rintro _ ⟨⟨k, rfl⟩, hle⟩
    simp only [dumpAlignment] at hle ⊢
    omega

variable {m : Memory} {start length i : Nat} {line : DumpLine}

/-- The bytes that a dump shows. -/
def window (m : Memory) (start length : Nat) : List UInt8 :=
  m.range (start / dumpAlignment * dumpAlignment)
    ((start + length + dumpAlignment - 1) / dumpAlignment * dumpAlignment)

/-- Lines follow each other by their width, and each but the last is full. -/
theorem of_getElem?_dump (h : (m.dump start length)[i]? = some line) :
    line.address = start / dumpAlignment * dumpAlignment + DumpLine.width * i ∧
      0 < line.bytes.length ∧ line.bytes.length ≤ DumpLine.width ∧
      (i + 1 < (m.dump start length).length → line.bytes.length = DumpLine.width) := by
  rw [dump, List.getElem?_mapIdx] at h
  obtain ⟨row, hrow, rfl⟩ := Option.map_eq_some_iff.mp h
  rw [Nat.mul_comm DumpLine.width, dump, List.length_mapIdx]
  exact ⟨rfl, length_of_getElem?_rows (by decide) hrow⟩

/-- The bytes of all lines, each with its offset. -/
theorem flatMap_zipIdx_dump (m : Memory) (start length : Nat) :
    (m.dump start length).flatMap (fun line => line.bytes.zipIdx line.address) =
      (m.window start length).zipIdx (start / dumpAlignment * dumpAlignment) := by
  have hwidth : 0 < DumpLine.width := by decide
  rw [← flatten_mapIdx_rows hwidth, dump, List.flatMap_def]
  congr 1
  apply List.ext_getElem?
  intro i
  simp only [List.getElem?_map, List.getElem?_mapIdx, Option.map_map]
  rfl

theorem flatMap_bytes_dump (m : Memory) (start length : Nat) :
    (m.dump start length).flatMap (·.bytes) = m.window start length := by
  have hbytes := congrArg (List.map Prod.fst) (flatMap_zipIdx_dump m start length)
  rw [List.map_flatMap, List.zipIdx_map_fst] at hbytes
  simpa only [List.zipIdx_map_fst] using hbytes

/-- A byte is shown at its offset, and only there. -/
theorem mem_zipIdx_window {byte : UInt8} {address : Nat} :
    (byte, address) ∈ (m.window start length).zipIdx (start / dumpAlignment * dumpAlignment) ↔
      start / dumpAlignment * dumpAlignment ≤ address ∧
        address < (start + length + dumpAlignment - 1) / dumpAlignment * dumpAlignment ∧
        m.allocated[address]? = some byte := by
  rw [List.mk_mem_zipIdx_iff_le_and_getElem?_sub, window, range_eq, List.getElem?_drop]
  apply and_congr_right
  intro hle
  rw [Nat.add_sub_cancel' hle, List.getElem?_take, Option.ite_none_right_eq_some]

theorem count_zipIdx {α : Type} [DecidableEq α] {list : List α} {first : Nat} {entry : α × Nat}
    (h : entry ∈ list.zipIdx first) : (list.zipIdx first).count entry = 1 := by
  have hnodup : (list.zipIdx first).Nodup := by
    apply List.Nodup.of_map Prod.snd
    rw [List.zipIdx_map_snd]
    exact List.nodup_range'
  exact List.count_eq_one_of_mem hnodup h

/-- So the offsets of all lines can be written with three digits. -/
theorem address_lt_of_mem_dump (h : line ∈ m.dump start length) : line.address < maxCapacity := by
  obtain ⟨i, hi⟩ := List.mem_iff_getElem?.mp h
  obtain ⟨-, hpos, -⟩ := of_getElem?_dump hi
  have hshown : (line.bytes[0], line.address) ∈
      (m.window start length).zipIdx (start / dumpAlignment * dumpAlignment) := by
    rw [← flatMap_zipIdx_dump, List.mem_flatMap]
    refine ⟨line, h, ?_⟩
    rw [List.mk_mem_zipIdx_iff_le_and_getElem?_sub, Nat.sub_self]
    exact ⟨Nat.le_refl _, List.getElem?_eq_getElem hpos⟩
  obtain ⟨-, -, hallocated⟩ := mem_zipIdx_window.mp hshown
  obtain ⟨hlt, -⟩ := List.getElem?_eq_some_iff.mp hallocated
  exact Nat.lt_of_lt_of_le hlt m.length_allocated_le

theorem mapM_read?_dump (m : Memory) (start length : Nat) :
    ((m.dump start length).map DumpLine.render).mapM DumpLine.read? =
      some (m.dump start length) := by
  have hread : ∀ line ∈ m.dump start length, DumpLine.read? line.render = some (id line) := by
    intro line hline
    obtain ⟨i, hi⟩ := List.mem_iff_getElem?.mp hline
    obtain ⟨-, -, hlength, -⟩ := of_getElem?_dump hi
    exact DumpLine.read?_render (address_lt_of_mem_dump hline) hlength
  rw [mapM_map_eq_some hread, List.map_id]

end Memory

/-- A dump consists of lines of text, from which the offsets and the bytes can be read. They show
the allocated bytes between the multiples of 32 around the range, each of them once, at its
offset. -/
theorem Operation.dump_shows_window (a : Assembler) (start length : Nat) :
    ∃ texts lines, (dump start length).perform.run a = .ok (.lines texts) a ∧
      texts.mapM DumpLine.read? = some lines ∧
      ∃ first stop, IsGreatest {n | 32 ∣ n ∧ n ≤ start} first ∧
        IsLeast {n | 32 ∣ n ∧ start + length ≤ n} stop ∧
        (∀ i line, lines[i]? = some line → line.address = first + 16 * i ∧
          0 < line.bytes.length ∧ line.bytes.length ≤ 16 ∧
          (i + 1 < lines.length → line.bytes.length = 16)) ∧
        (lines.flatMap (·.bytes) = (a.dictionary.memory.allocated.take stop).drop first) ∧
        let shown := lines.flatMap fun line => line.bytes.zipIdx line.address
        (∀ byte address, (byte, address) ∈ shown →
          a.dictionary.memory.allocated[address]? = some byte) ∧
        ∀ byte address, start ≤ address → address < start + length →
          a.dictionary.memory.allocated[address]? = some byte →
            shown.count (byte, address) = 1 := by
  let m := a.dictionary.memory
  let first := start / Memory.dumpAlignment * Memory.dumpAlignment
  let stop := (start + length + Memory.dumpAlignment - 1) / Memory.dumpAlignment *
    Memory.dumpAlignment
  have hfirst : IsGreatest {n | 32 ∣ n ∧ n ≤ start} first := Memory.isGreatest_first start
  have hstop : IsLeast {n | 32 ∣ n ∧ start + length ≤ n} stop := Memory.isLeast_stop _
  refine ⟨(m.dump start length).map DumpLine.render, m.dump start length, rfl,
    m.mapM_read?_dump start length, first, stop, hfirst, hstop, ?_, ?_, ?_, ?_⟩
  · exact fun i line => Memory.of_getElem?_dump
  · rw [Memory.flatMap_bytes_dump, Memory.window, Memory.range_eq]
  · intro byte address hshown
    rw [Memory.flatMap_zipIdx_dump, Memory.mem_zipIdx_window] at hshown
    exact hshown.2.2
  · intro byte address hstart hlength hallocated
    rw [Memory.flatMap_zipIdx_dump]
    apply Memory.count_zipIdx
    rw [Memory.mem_zipIdx_window]
    exact ⟨Nat.le_trans hfirst.1.2 hstart, Nat.lt_of_lt_of_le hlength hstop.1.2, hallocated⟩

end ForthAssembler

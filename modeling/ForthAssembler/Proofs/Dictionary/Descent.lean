import ForthAssembler.Proofs.Dictionary.Alike
import ForthAssembler.Proofs.Dictionary.Chain

/-! Looking through the entries, whatever bytes the memory holds: it ends, and reads allocated bytes
only. -/
namespace ForthAssembler
open Text

namespace Entry

/-- The entry is what the bytes show at its offset. Where they end, it shows an end of chain and
an empty tag, and its name is cut short. -/
structure ShownBy (entry : Entry) (bytes : List UInt8) : Prop where
  link : entry.link = (Chain.cell? bytes entry.address).bind Link.ofCell
  tag : entry.tag = bytes[entry.address + tagOffset]?.getD 0
  name : entry.name = (ofUtf8? ((bytes.drop (entry.address + nameOffset)).take
    (Tag.nameLength entry.tag))).getD "?"

theorem shownBy_read (m : Memory) (address : Nat) : (read m address).ShownBy m.allocated where
  link := by
    rw [← Chain.get16?_eq]
    rfl
  tag := by
    rw [← Memory.get8?_eq]
    rfl
  name := by
    have hrange (start length : Nat) : m.range start (start + length) =
        (m.allocated.drop start).take length := by
      rw [Memory.range_eq, List.drop_take, Nat.add_sub_cancel_left]
    rw [← hrange]
    rfl

end Entry

namespace Dictionary

theorem shownBy_of_mem_entries {d : Dictionary} {entry : Entry} (h : entry ∈ d.entries) :
    entry.ShownBy d.memory.allocated := by
  rw [eq_read_of_mem_entries h]
  exact Entry.shownBy_read d.memory entry.address

/-- Whatever the bytes, the links are followed to ever smaller offsets from the head on, so the
entries are no more than these offsets, and each of them is what the allocated bytes show. Nothing
else matters to what looks through the entries. -/
theorem walk_descends (d : Dictionary) :
    d.entries.head?.map (·.address) = d.head ∧
      (d.entries.Pairwise fun younger older => older.address < younger.address) ∧
      d.entries.length ≤ d.head.elim 0 (· + 1) ∧
      (∀ steps, d.memory.walk steps d.head = d.entries.take steps) ∧
      (∀ entry ∈ d.entries, entry.ShownBy d.memory.allocated) ∧
      ∀ e : Dictionary, d.memory.allocated = e.memory.allocated → d.head = e.head →
        d.entries = e.entries ∧ d.words = e.words ∧
          (∀ foldCase name, d.find? foldCase name = e.find? foldCase name ∧
            d.see foldCase name = e.see foldCase name) ∧
          ∀ code, d.entryOfCode? code = e.entryOfCode? code := by
  have hwalk (steps : Nat) : d.memory.walk steps d.head = d.entries.take steps := by
    rw [entries_eq_elim, Memory.walk_eq_take]
  refine ⟨d.head?_entries, d.pairwise_entries, d.length_entries_le, hwalk,
    fun _ => shownBy_of_mem_entries, fun e hbytes hhead => ?_⟩
  exact ⟨entries_congr hbytes hhead, words_congr hbytes hhead,
    fun foldCase name => ⟨find?_congr hbytes hhead foldCase name,
      see_congr hbytes hhead foldCase name⟩, entryOfCode?_congr hbytes hhead⟩

/-- Of two entries that overlap, the newer one is cut off by the cursor and the older one links to
itself. What is behind the cursor does not show. -/
theorem walk_descends_overlap :
    let image (stale : UInt8) : Dictionary :=
      ⟨⟨#[9, 0, 1, 2, 0, 1, 5, 65, stale], 8, Nat.le_of_ble_eq_true rfl,
        Nat.le_of_ble_eq_true rfl⟩, some 4⟩
    (image 66).memory.walk 5 (some 4) = [⟨4, some 1, 5, "A"⟩, ⟨1, some 1, 2, "\x00\x01"⟩] ∧
      (image 66).entries.length ≤ 5 ∧ (image 66).words = (image 67).words := by
  intro image
  obtain ⟨-, -, hlength, -, -, hbytes⟩ := walk_descends (image 66)
  exact ⟨by decide +kernel, hlength, (hbytes (image 67) rfl rfl).2.1⟩

end Dictionary
end ForthAssembler

import ForthAssembler.Proofs.Assembler.Change

/-! A definition that is open can be dropped in whatever state, also where code was compiled outside
of definitions. -/
namespace ForthAssembler
open Instr Text

namespace Assembler

/-- The newest entry is allocated. So is the start of the open definition, and it lies behind the
entry that was the newest before. -/
structure Revocable (capacity : Capacity) (a : Assembler) : Prop where
  size : a.dictionary.memory.size = capacity.bytes
  head : ∀ n ∈ a.dictionary.head, n < a.here
  started : ∀ definition, a.definition = some definition →
    definition.address ≤ a.here ∧ ∀ n ∈ definition.previous, n < definition.address

namespace Revocable
variable {capacity : Capacity} {a a' : Assembler}

theorem new (capacity : Capacity) (options : Options) (storage : Storage) :
    Revocable capacity (.new capacity options storage) where
  size := Array.size_replicate
  head := nofun
  started := nofun

/-- The image may have grown. -/
theorem of_extends (h : Revocable capacity a) (hext : Extends a a') (hle : a.here ≤ a'.here) :
    Revocable capacity a' where
  size := hext.size.trans h.size
  head := by
    rw [hext.head]
    exact fun n hn => Nat.lt_of_lt_of_le (h.head n hn) hle
  started := by
    rw [hext.definition]
    intro definition hopen
    obtain ⟨haddress, hprevious⟩ := h.started definition hopen
    exact ⟨Nat.le_trans haddress hle, hprevious⟩

/-- While no definition is open, only the newest entry matters. -/
theorem of_closed (hsize : a.dictionary.memory.size = capacity.bytes)
    (hhead : ∀ n ∈ a.dictionary.head, n < a.here) (hclosed : a.definition = none) :
    Revocable capacity a where
  size := hsize
  head := hhead
  started := by simp [hclosed]

theorem of_added {older body : List UInt8} {link : Link} {name : String}
    (hsize : a.dictionary.memory.size = capacity.bytes) (h : Added older link name body a) :
    Revocable capacity a := by
  apply of_closed hsize ?_ h.definition
  have hlength : a.dictionary.memory.allocated.length = a.here := Memory.length_allocated _
  rw [h.allocated] at hlength
  simp only [List.length_append, Entry.length_header, Entry.nameOffset] at hlength
  rw [h.head]
  rintro n ⟨⟩
  omega

theorem of_defines {older : List UInt8} {link : Link} {name : String} {draft : Draft.Any Instr}
    (hsize : a.dictionary.memory.size = capacity.bytes)
    (h : a.Defines id older link name draft) (hlink : ∀ n ∈ link, n < older.length) :
    Revocable capacity a := by
  have hlength : a.dictionary.memory.allocated.length = a.here := Memory.length_allocated _
  rw [h.code.allocated] at hlength
  simp only [List.length_append, Entry.length_header, Entry.nameOffset] at hlength
  constructor
  · exact hsize
  · rw [h.head]
    rintro n ⟨⟩
    omega
  · rw [h.definition]
    rintro _ ⟨⟩
    exact ⟨show older.length ≤ a.here by omega, hlink⟩

theorem of_opened (h : Revocable capacity a) {name : String} {address : Nat} {d : Dictionary}
    (hpush : a.dictionary.push name true = .ok (address, d)) :
    Revocable capacity { a with
      dictionary := d
      definition := some ⟨name, address, a.dictionary.head⟩
      mode := .compile
      frames := [] } := by
  obtain ⟨-, -, -, -, hsize⟩ := Dictionary.of_push_eq_ok hpush
  refine of_defines (hsize.trans h.size) (defines_of_push id hpush) ?_
  rw [Memory.length_allocated]
  exact h.head

theorem of_reverts (h : Revocable capacity a) {d : Dictionary} (hreverts : a.Reverts d) :
    d.memory.size = capacity.bytes ∧ ∀ n ∈ d.head, n < d.here := by
  unfold Reverts at hreverts
  split at hreverts
  · rw [hreverts]
    exact ⟨h.size, h.head⟩
  · obtain ⟨hsize, hhead⟩ := Dictionary.of_truncate_eq_ok hreverts
    exact ⟨hsize.trans h.size, hhead⟩

/-- By cases on the change. -/
theorem change {demand : Demand} (h : Revocable capacity a) (hchange : Change demand a a') :
    Revocable capacity a' := by
  cases hchange with
  | beside => exact ⟨h.size, h.head, h.started⟩
  | configured => exact ⟨h.size, h.head, h.started⟩
  | stored => exact ⟨h.size, h.head, h.started⟩
  | compiled _ run =>
    obtain ⟨hext, hle⟩ := (Action.yields_action _).of_ok run
    exact h.of_extends hext hle
  | opened _ _ push => exact h.of_opened push
  | closed _ _ _ run reveal =>
    obtain ⟨hext, -, hle⟩ := (Action.yields_emit [.ret] []).of_ok run
    have hgrown := h.of_extends hext hle
    obtain ⟨hsize, hhead, hhere⟩ := Dictionary.of_reveal_eq_ok reveal
    apply of_closed (hsize.trans hgrown.size) ?_ rfl
    simp only [Assembler.here, hhead, hhere]
    exact hgrown.head
  | dropped reverts =>
    obtain ⟨hsize, hhead⟩ := h.of_reverts reverts
    exact of_closed hsize hhead rfl
  | cleared reverts =>
    exact of_closed (Array.size_replicate.trans (h.of_reverts reverts).1) nofun rfl
  | added acquires =>
    obtain ⟨body, hadded⟩ := acquires.added
    have hadds := of_added (acquires.keeps.size.trans h.size) hadded
    exact ⟨hadds.size, hadds.head, hadds.started⟩
  | forgotten _ isClosed forget =>
    obtain ⟨hsize, hhead⟩ := Dictionary.of_forget_eq_ok forget
    exact of_closed (hsize.trans h.size) hhead isClosed
  | loaded isClosed restore =>
    obtain ⟨halloc, hhead, hsize, hlt⟩ := Dictionary.of_restore_eq_ok restore
    rw [← halloc, Memory.length_allocated, ← hhead] at hlt
    exact of_closed (hsize.trans h.size) hlt isClosed

/-- The bytes before the open definition can be gone back to. -/
theorem truncates (h : Revocable capacity a) {definition : Definition}
    (hopen : a.definition = some definition) :
    ∃ d, a.dictionary.truncate definition.address definition.previous = .ok d := by
  obtain ⟨haddress, hprevious⟩ := h.started definition hopen
  have hlength : (a.dictionary.memory.allocated.take definition.address).length =
      definition.address := by
    rw [List.length_take, Memory.length_allocated]
    exact Nat.min_eq_left haddress
  obtain ⟨d, htruncate, -⟩ :=
    Dictionary.truncate_eq_ok (List.take_append_drop definition.address _).symm
      (by rwa [hlength])
  rw [hlength] at htruncate
  exact ⟨d, htruncate⟩

end Revocable
end Assembler

namespace Action
open Assembler
variable {capacity : Capacity} {a : Assembler}

/-- Dropping the definition fails no assertion. -/
theorem ensures_abort_revocable (h : Revocable capacity a) :
    abort.Ensures
      (fun _ a' => ∃ d, a.Reverts d ∧ a' = { a with
        dictionary := d
        definition := none
        mode := .interpret
        frames := []
        awaiting := .nothing })
      (fun _ _ => False) a := by
  rw [ensures_iff_yields]
  apply yields_abort.imp_failed
  rintro _ a' ⟨-, definition, assertion, hdefinition, -, hfails⟩
  obtain ⟨d, htruncate⟩ := h.truncates hdefinition
  rw [hfails] at htruncate
  cases htruncate

/-- What is left is a new assembler. -/
theorem ensures_reset_revocable (h : Revocable capacity a) :
    reset.Ensures (fun _ a' => a' = .new capacity a.options a.storage) (fun _ _ => False) a := by
  rw [reset, ensures_bind]
  apply (ensures_abort_revocable h).imp
  rintro _ _ ⟨d, hreverts, rfl⟩
  have hsize : d.memory.buffer.size = capacity.bytes := (h.of_reverts hreverts).1
  have hreset : d.reset = .blank capacity := by
    simp only [Dictionary.reset, Dictionary.blank, Memory.clear, Memory.blank, hsize]
  rw [ensures_modify, hreset, Assembler.new]

end Action
end ForthAssembler

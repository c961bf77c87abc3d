import ForthAssembler.Dictionary.Basic
import ForthAssembler.Memory.Lemmas

/-! Headers in the image: written, revealed, cut off and read back. -/
namespace ForthAssembler
open Text

theorem Link.cell_lt {link : Link} (h : ∀ n ∈ link, n < endCell) : link.cell < 65536 := by
  cases link with
  | none => decide
  | some n =>
    have : n < endCell := h n rfl
    simp only [cell, endCell, Option.getD_some] at this ⊢
    omega

/-- An offset in an image is no end of a chain. -/
theorem Link.lt_endCell {n length : Nat} (h : n < length) (hlimit : length ≤ maxCapacity) :
    n < endCell := by
  simp only [maxCapacity, Instr.maxTarget, endCell] at *
  omega

/-- The name fits an entry. -/
def Entry.Legal (name : String) : Prop :=
  0 < (utf8 name).length ∧ (utf8 name).length ≤ Tag.maxName

instance (name : String) : Decidable (Entry.Legal name) := by
  unfold Entry.Legal
  infer_instance

@[simp] theorem Entry.length_header (link : Link) (hidden : Bool) (name : String) :
    (header link hidden name).length = nameOffset + (utf8 name).length := by
  simp only [header, Cell.bytes, nameOffset, List.length_append, List.length_cons, List.length_nil]
  omega

theorem Tag.revealed_ofName {hidden : Bool} {length : Nat} (h : length ≤ maxName) :
    revealed (ofName hidden length) = ofName false length := by
  rw [revealed, isHidden_ofName h]
  simp only [maxName] at h
  cases hidden with
  | false => rfl
  | true =>
    simp only [ofName, hiddenFlag, if_true, UInt8.toNat_ofNat', Bool.false_eq_true, if_false]
    congr 1
    omega

namespace Memory
variable {m m' : Memory}

theorem size_of_rewind? {address : Nat} (h : m.rewind? address = some m') : m'.size = m.size := by
  unfold rewind? dealloc? at h
  split at h
  · split at h
    · cases h
      rfl
    · cases h
  · cases h

theorem size_of_set8? {address : Nat} {value : UInt8} (h : m.set8? address value = some m') :
    m'.size = m.size := by
  unfold set8? at h
  split at h
  · cases h
    simp [size, write, size_overwrite]
  · cases h

theorem size_of_set16? {address value : Nat} (h : m.set16? address value = some m') :
    m'.size = m.size := by
  unfold set16? at h
  split at h
  · cases h
    simp [size, write, size_overwrite]
  · cases h

theorem here_of_set8? {address : Nat} {value : UInt8} (h : m.set8? address value = some m') :
    m'.here = m.here := by
  unfold set8? at h
  split at h
  · cases h
    rfl
  · cases h

theorem here_of_set16? {address value : Nat} (h : m.set16? address value = some m') :
    m'.here = m.here := by
  unfold set16? at h
  split at h
  · cases h
    rfl
  · cases h

theorem size_of_restore? {bytes : List UInt8} (h : m.restore? bytes = some m') :
    m'.size = m.size := by
  unfold restore? at h
  split at h
  · cases h
    simp only [size, List.size_toArray, List.length_append, List.length_replicate]
    omega
  · cases h

end Memory

theorem Chain.lt_of_check {bytes : List UInt8} {upper : Nat} {link : Link} {checked : Unit}
    (h : check bytes upper link = .ok checked) : ∀ n ∈ link, n < upper := by
  rintro n ⟨⟩
  unfold check at h
  split at h
  · assumption
  · cases h

namespace Dictionary
variable {d : Dictionary} {older : List UInt8} {link : Link} {name : String}

theorem of_push_eq_ok {hidden : Bool} {address : Nat} {d' : Dictionary}
    (h : d.push name hidden = .ok (address, d')) :
    Entry.Legal name ∧ address = d.here ∧ d'.head = some d.here ∧
      d'.memory.allocated = d.memory.allocated ++ Entry.header d.head hidden name ∧
      d'.memory.size = d.memory.size := by
  simp only [push] at h
  split at h
  · cases h
  · rename_i hlegal
    split at h
    · cases h
    · rename_i hpush
      obtain ⟨rfl, halloc, hsize⟩ := Memory.of_push?_eq_some hpush
      cases h
      exact ⟨by unfold Entry.Legal; omega, rfl, rfl, halloc, hsize⟩

theorem of_push_eq_error {hidden : Bool} {e : Error} (h : d.push name hidden = .error e) :
    Entry.Legal name → d.memory.unused < Entry.nameOffset + (utf8 name).length := by
  intro hlegal
  simp only [push] at h
  split at h
  · unfold Entry.Legal at hlegal
    omega
  · split at h
    · rename_i hpush
      simpa using (Memory.push?_eq_none_iff _ _).mp hpush
    · cases h

theorem reveal_ne_siteAllocated (d : Dictionary) : d.reveal ≠ .error .siteAllocated := by
  unfold reveal
  split
  · simp
  · split <;> simp

theorem truncate_ne_siteAllocated (d : Dictionary) (here : Nat) (head : Link) :
    d.truncate here head ≠ .error .siteAllocated := by
  unfold truncate
  split
  · simp
  · split <;> simp

theorem forget_ne_siteAllocated (d : Dictionary) (foldCase : Bool) (name : String) :
    d.forget foldCase name ≠ .error (.violated .siteAllocated) := by
  unfold forget
  split
  · simp
  · split
    · rename_i htruncate
      rintro ⟨⟩
      exact d.truncate_ne_siteAllocated _ _ htruncate
    · simp

theorem of_reveal_eq_ok {d' : Dictionary} (h : d.reveal = .ok d') :
    d'.memory.size = d.memory.size ∧ d'.head = d.head ∧ d'.here = d.here := by
  unfold reveal at h
  split at h
  · cases h
    exact ⟨rfl, rfl, rfl⟩
  · split at h
    · cases h
    · rename_i hset
      cases h
      exact ⟨Memory.size_of_set8? hset, rfl, Memory.here_of_set8? hset⟩

theorem reveal_eq_ok {code : List UInt8}
    (hd : d.memory.allocated = older ++ Entry.header link true name ++ code)
    (hhead : d.head = some older.length) (hname : Entry.Legal name) :
    ∃ d', d.reveal = .ok d' ∧ d'.head = d.head ∧ d'.memory.size = d.memory.size ∧
      d'.memory.allocated = older ++ Entry.header link false name ++ code := by
  have htag : d.memory.get8? (older.length + Entry.tagOffset) =
      some (Tag.ofName true (utf8 name).length) := by
    rw [Memory.get8?_eq, hd, List.append_assoc, List.getElem?_append_right (by omega)]
    simp [Entry.header, Cell.bytes, Entry.tagOffset]
  have hlt : older.length + Entry.tagOffset < d.memory.here := by
    rw [← Memory.length_allocated, hd]
    simp only [List.length_append, Entry.length_header, Entry.nameOffset, Entry.tagOffset]
    omega
  have hset := Memory.set8?_eq d.memory (older.length + Entry.tagOffset)
    (Tag.ofName false (utf8 name).length)
  rw [if_pos hlt] at hset
  obtain ⟨m, hm, halloc⟩ := Option.map_eq_some_iff.mp hset
  have htag' : (Entry.read d.memory older.length).tag = Tag.ofName true (utf8 name).length := by
    simp only [Entry.read, htag, Option.getD_some]
  refine ⟨{ d with memory := m }, ?_, rfl, Memory.size_of_set8? hm, ?_⟩
  · simp only [reveal, latest?, hhead, Option.map_some, htag', Tag.revealed_ofName hname.2]
    simp only [Entry.read, hm]
  · rw [halloc, hd, List.append_assoc, List.set_append_right _ _ (by omega)]
    simp [Entry.header, Cell.bytes, Entry.tagOffset]

theorem truncate_eq_ok {rest : List UInt8} (hd : d.memory.allocated = older ++ rest)
    (hlink : ∀ n ∈ link, n < older.length) :
    ∃ d', d.truncate older.length link = .ok d' ∧ d'.head = link ∧
      d'.memory.size = d.memory.size ∧ d'.memory.allocated = older := by
  have hle : older.length ≤ d.memory.here := by
    rw [← Memory.length_allocated, hd]
    simp
  have hrewind := Memory.rewind?_eq d.memory older.length
  rw [if_pos hle] at hrewind
  obtain ⟨m, hm, halloc⟩ := Option.map_eq_some_iff.mp hrewind
  have hall : link.all (· < older.length) = true := by
    cases link with
    | none => rfl
    | some n => simpa using hlink n rfl
  refine ⟨⟨m, link⟩, ?_, rfl, Memory.size_of_rewind? hm, ?_⟩
  · simp only [truncate, hm, hall, if_true]
  · rw [halloc, hd, List.take_left]

theorem of_truncate_eq_ok {here : Nat} {d' : Dictionary} (h : d.truncate here link = .ok d') :
    d'.memory.size = d.memory.size ∧ ∀ n ∈ d'.head, n < d'.here := by
  unfold truncate at h
  split at h
  · cases h
  · rename_i m hrewind
    have hhere : m.here = here := by
      have hlength := congrArg (Option.map List.length) (Memory.rewind?_eq d.memory here)
      rw [hrewind] at hlength
      split at hlength
      · simpa [Memory.length_allocated, *] using hlength
      · simp at hlength
    split at h
    · rename_i hall
      cases h
      refine ⟨Memory.size_of_rewind? hrewind, fun n hn => ?_⟩
      simp only [Option.mem_def] at hn
      subst hn
      have hlt : n < here := by simpa using hall
      exact Nat.lt_of_lt_of_eq hlt hhere.symm
    · cases h

theorem of_forget_eq_ok {foldCase : Bool} {address : Nat} {d' : Dictionary}
    (h : d.forget foldCase name = .ok (address, d')) :
    d'.memory.size = d.memory.size ∧ ∀ n ∈ d'.head, n < d'.here := by
  unfold forget at h
  split at h
  · cases h
  · split at h
    · cases h
    · rename_i htruncate
      cases h
      exact of_truncate_eq_ok htruncate

/-- An image that is restored replaces the old one, and its head lies in it. -/
theorem of_restore_eq_ok {bytes : List UInt8} {d' : Dictionary}
    (h : d.restore bytes link = .ok d') :
    d'.memory.allocated = bytes ∧ d'.head = link ∧ d'.memory.size = d.memory.size ∧
      ∀ n ∈ link, n < bytes.length := by
  have hrestore := Memory.restore?_eq d.memory bytes
  simp only [restore, bind, Except.bind] at h
  split at h
  · cases h
  split at h
  · cases h
  rename_i hcheck
  split at h
  · cases h
  · rename_i m hm
    cases h
    rw [hm, Option.map_some] at hrestore
    split at hrestore
    · exact ⟨Option.some.inj hrestore, rfl, Memory.size_of_restore? hm, Chain.lt_of_check hcheck⟩
    · cases hrestore

end Dictionary

section Read
variable {m : Memory} {older rest : List UInt8} {link : Link} {hidden : Bool} {name : String}

private theorem get8?_header (hm : m.allocated = older ++ Entry.header link hidden name ++ rest)
    (i : Nat) : m.get8? (older.length + i) = (Entry.header link hidden name ++ rest)[i]? := by
  rw [Memory.get8?_eq, hm, List.append_assoc, List.getElem?_append_right (by omega)]
  simp

/-- What a header says of its entry reads back, whatever follows. -/
theorem Entry.read_header (hm : m.allocated = older ++ Entry.header link hidden name ++ rest)
    (hname : Entry.Legal name) :
    Entry.read m older.length = ⟨older.length, (Entry.read m older.length).link,
      Tag.ofName hidden (utf8 name).length, name⟩ := by
  have htag : m.get8? (older.length + tagOffset) = some (Tag.ofName hidden (utf8 name).length) := by
    rw [get8?_header hm]
    simp [Entry.header, Cell.bytes, tagOffset]
  have htext : m.range (older.length + nameOffset)
      (older.length + nameOffset + (utf8 name).length) = utf8 name := by
    have hsplit : m.allocated =
        (older ++ Cell.bytes link.cell ++ [Tag.ofName hidden (utf8 name).length]) ++
          (utf8 name ++ rest) := by
      rw [hm]
      simp [Entry.header]
    have hlen : (older ++ Cell.bytes link.cell ++ [Tag.ofName hidden (utf8 name).length]).length =
        older.length + nameOffset := by
      simp [Cell.bytes, nameOffset]
    rw [Memory.range_eq, hsplit, ← hlen, List.take_length_add_append, List.take_left,
      List.drop_left]
  simp only [Entry.read, htag, Option.getD_some, Tag.nameLength_ofName hname.2, htext,
    ofUtf8?_utf8]

theorem Entry.link_read_header (hm : m.allocated = older ++ Entry.header link hidden name ++ rest)
    (hlink : ∀ n ∈ link, n < Link.endCell) : (Entry.read m older.length).link = link := by
  have hcell := Link.cell_lt hlink
  have hget : m.get16? older.length = some link.cell := by
    have h₀ := get8?_header hm 0
    have h₁ := get8?_header hm 1
    rw [Nat.add_zero] at h₀
    simp only [Memory.get16?, h₀, h₁]
    simp [Entry.header, Cell.bytes, Cell.value_bytes hcell]
  simp only [Entry.read, hget, Option.bind_some, Link.ofCell_cell hlink]

theorem Entry.code_read_header (hm : m.allocated = older ++ Entry.header link hidden name ++ rest)
    (hname : Entry.Legal name) :
    (Entry.read m older.length).code = older.length + (nameOffset + (utf8 name).length) := by
  rw [Entry.read_header hm hname, Entry.code, Tag.nameLength_ofName hname.2, Nat.add_assoc]

end Read
end ForthAssembler

import ForthAssembler.Proofs.Dictionary.Chain

/-! Links that lead strictly backwards, whatever stands between their cells. Forgetting may cut a
cell in two, and the next header is then written over its second byte. -/
namespace ForthAssembler
open Text

namespace Chain

/-- The link cells lead strictly backwards to an end. -/
inductive Linked (bytes : List UInt8) : Link → Prop
  | done : Linked bytes none
  | step {address : Nat} {older : Link}
      (hcell : (cell? bytes address).map Link.ofCell = some older)
      (hlt : ∀ n ∈ older, n < address) (h : Linked bytes older) : Linked bytes (some address)

variable {bytes bytes' : List UInt8} {link : Link}

/-- A cell that is there is made of its two bytes. -/
theorem take_of_cell? {address n : Nat} (h : cell? bytes address = some n) :
    bytes.take address ++ Cell.bytes n = bytes.take (address + 2) := by
  have hle := le_length_of_cell? h
  have hhigh : bytes[address]? = some bytes[address] := List.getElem?_eq_getElem (by omega)
  have hlow : bytes[address + 1]? = some bytes[address + 1] := List.getElem?_eq_getElem (by omega)
  simp only [cell?, hhigh, hlow, Option.bind_eq_bind, Option.bind_some, Option.some.injEq] at h
  rw [← h, Cell.bytes_value]
  have hboth : [bytes[address], bytes[address + 1]] = [bytes[address]] ++ [bytes[address + 1]] := rfl
  rw [hboth, ← List.append_assoc, List.take_append_getElem, List.take_append_getElem]

/-- All link cells stand below the end of the head's. -/
theorem Linked.congr (h : Linked bytes link)
    (htake : ∀ n ∈ link, bytes'.take (n + 2) = bytes.take (n + 2)) : Linked bytes' link := by
  induction h with
  | done => exact .done
  | @step address older hcell hlt h ih =>
    have haddress := htake address rfl
    refine .step ?_ hlt (ih fun n hn => ?_)
    · rw [← cell?_take (Nat.le_refl _), haddress, cell?_take (Nat.le_refl _)]
      exact hcell
    · have hn := hlt n hn
      have hmin : min (n + 2) (address + 2) = n + 2 := by omega
      have htake := congrArg (List.take (n + 2)) haddress
      rwa [List.take_take, List.take_take, hmin] at htake

theorem Linked.lt_length (h : Linked bytes link) : ∀ n ∈ link, n + 2 ≤ bytes.length := by
  cases h with
  | done => exact nofun
  | step hcell hlt h =>
    rintro n ⟨⟩
    obtain ⟨cell, hcell, -⟩ := Option.map_eq_some_iff.mp hcell
    exact le_length_of_cell? hcell

theorem Linked.append (h : Linked bytes link) (rest : List UInt8) :
    Linked (bytes ++ rest) link :=
  h.congr fun n hn => List.take_append_of_le_length (h.lt_length n hn)

/-- What lies behind the head's cell does not matter. -/
theorem Linked.take (h : Linked bytes link) {n : Nat} (hn : ∀ address ∈ link, address + 2 ≤ n) :
    Linked (bytes.take n) link := by
  refine h.congr fun address haddress => ?_
  have hmin : min (address + 2) n = address + 2 := by
    have := hn address haddress
    omega
  rw [List.take_take, hmin]

/-- A header that is written behind the bytes links to the head. Its own link cell may complete the
one of the head. -/
theorem linked_header_iff (hlink : ∀ n ∈ link, n < bytes.length) (hlimit : bytes.length ≤ maxCapacity)
    {hidden : Bool} {name : String} {rest : List UInt8} :
    Linked (bytes ++ Entry.header link hidden name ++ rest) (some bytes.length) ↔
      Linked (bytes ++ Cell.bytes link.cell) link := by
  have hend : ∀ n ∈ link, n < Link.endCell := fun n hn => Link.lt_endCell (hlink n hn) hlimit
  have hcell : (cell? (bytes ++ Cell.bytes link.cell) bytes.length).map Link.ofCell = some link := by
    simp [cell?, Cell.bytes, Cell.value_bytes (Link.cell_lt hend), Link.ofCell_cell hend]
  have hlength : (bytes ++ Cell.bytes link.cell).length = bytes.length + 2 := by simp [Cell.bytes]
  have hsplit : bytes ++ Entry.header link hidden name ++ rest = bytes ++ Cell.bytes link.cell ++
      (Tag.ofName hidden (utf8 name).length :: utf8 name ++ rest) := by
    simp [Entry.header]
  rw [hsplit]
  constructor
  · intro h
    have hfront : Linked (bytes ++ Cell.bytes link.cell) (some bytes.length) := by
      refine h.congr fun n hn => ?_
      obtain rfl := Option.some.inj hn
      exact (List.take_append_of_le_length (Nat.le_of_eq hlength.symm)).symm
    cases hfront with
    | step hcell' hlt hrest =>
      obtain rfl := Option.some.inj (hcell.symm.trans hcell')
      exact hrest
  · intro h
    have hstep : Linked (bytes ++ Cell.bytes link.cell) (some bytes.length) := .step hcell hlink h
    exact hstep.append _

/-- Entries that stand in the bytes are linked. By induction on the entries. -/
theorem Holds.linked {items : List Item} (h : Holds bytes link items) : Linked bytes link := by
  induction items generalizing link with
  | nil =>
    rw [holds_nil.mp h]
    exact .done
  | cons item older ih =>
    obtain ⟨rfl, hstands, hlt, hrest⟩ := holds_cons.mp h
    exact .step hstands.link hlt (ih hrest)

end Chain

/-- The links lead strictly backwards from the head, whose cell is completed behind the cursor if it
is cut off there. -/
def Dictionary.Linked (d : Dictionary) : Prop :=
  Chain.Linked (d.memory.allocated ++ Cell.bytes d.head.cell) d.head

section
variable {m : Memory} {rest : List UInt8} {address : Nat}

/-- Either both bytes of the link are in the memory, or it is read as none. -/
theorem Entry.link_read (m : Memory) (address : Nat) :
    (Entry.read m address).link = none ∨ ∃ n, Chain.cell? m.allocated address = some n ∧
      (Entry.read m address).link = Link.ofCell n := by
  have hread : (Entry.read m address).link = (Chain.cell? m.allocated address).bind Link.ofCell := by
    rw [← Chain.get16?_eq]
    rfl
  rw [hread]
  cases Chain.cell? m.allocated address with
  | none => exact .inl rfl
  | some n => exact .inr ⟨n, rfl, rfl⟩

/-- An entry that the links lead to links strictly backwards, or its link is not all there any more.
Either way the image may be cut off before it. -/
theorem Entry.linked_read (h : Chain.Linked (m.allocated ++ rest) (some address)) :
    (∀ n ∈ (Entry.read m address).link, n < address ∧
        Chain.Linked (m.allocated ++ rest) (some n)) ∧
      Chain.Linked (m.allocated.take address ++ Cell.bytes (Entry.read m address).link.cell)
        (Entry.read m address).link := by
  obtain hnone | ⟨n, hthere, hlink⟩ := Entry.link_read m address
  · rw [hnone]
    exact ⟨nofun, .done⟩
  · cases h with
    | @step _ older hcell hlt h =>
      have hle := Chain.le_length_of_cell? hthere
      have hcell' : Chain.cell? (m.allocated ++ rest) address = some n := by
        rw [← Chain.cell?_take (Nat.le_refl _), List.take_append_of_le_length hle,
          Chain.cell?_take (Nat.le_refl _), hthere]
      have hof : Link.ofCell n = older := by
        rw [hcell'] at hcell
        exact Option.some.inj hcell
      rw [hlink]
      constructor
      · rw [hof]
        rintro n' rfl
        exact ⟨hlt n' rfl, h⟩
      · rw [Link.cell_ofCell, Chain.take_of_cell? hthere, hof,
          ← List.take_append_of_le_length hle]
        refine h.take fun n' hn' => ?_
        have := hlt n' hn'
        omega

/-- So it is for each entry that is found. By induction on its offset. -/
theorem Memory.linked_of_mem_entriesFrom (h : Chain.Linked (m.allocated ++ rest) (some address))
    {entry : Entry} (hentry : entry ∈ m.entriesFrom address) : entry.address ≤ address ∧
      (∀ n ∈ entry.link, n < entry.address) ∧
      Chain.Linked (m.allocated.take entry.address ++ Cell.bytes entry.link.cell) entry.link := by
  induction address using Nat.strongRecOn with
  | ind address ih =>
    obtain ⟨hback, hcut⟩ := Entry.linked_read h
    have hfirst : (∀ n ∈ (Entry.read m address).link, n < address) ∧
        Chain.Linked (m.allocated.take address ++ Cell.bytes (Entry.read m address).link.cell)
          (Entry.read m address).link := ⟨fun n hn => (hback n hn).1, hcut⟩
    rw [entriesFrom] at hentry
    split at hentry
    · obtain rfl := List.mem_singleton.mp hentry
      exact ⟨Nat.le_refl _, hfirst⟩
    · rename_i n hn
      obtain ⟨hbelow, hrest⟩ := hback n hn
      rw [if_pos hbelow] at hentry
      rcases List.mem_cons.mp hentry with rfl | hentry
      · exact ⟨Nat.le_refl _, hfirst⟩
      · obtain ⟨hle, hfound⟩ := ih n hbelow hrest hentry
        exact ⟨by omega, hfound⟩

end

namespace Dictionary
variable {d d' : Dictionary} {older rest : List UInt8} {link : Link} {hidden : Bool}
  {name : String}

theorem linked_of_head_eq_none (h : d.head = none) : d.Linked := by
  rw [Linked, h]
  exact .done

/-- The newest entry links to the head that its header was written for. -/
theorem linked_iff_of_header
    (hd : d.memory.allocated = older ++ Entry.header link hidden name ++ rest)
    (hhead : d.head = some older.length) (hlink : ∀ n ∈ link, n < older.length) :
    d.Linked ↔ Chain.Linked (older ++ Cell.bytes link.cell) link := by
  have hlimit : older.length ≤ maxCapacity := by
    have hle := d.memory.length_allocated_le
    simp only [hd, List.length_append] at hle
    omega
  rw [Linked, hd, hhead, List.append_assoc _ rest]
  exact Chain.linked_header_iff hlink hlimit

theorem linked_of_restore_eq_ok {bytes : List UInt8} (h : d.restore bytes link = .ok d') :
    d'.Linked := by
  obtain ⟨-, items, hitems⟩ := exists_restore_iff.mp ⟨d', h⟩
  obtain ⟨halloc, hhead, -, -⟩ := of_restore_eq_ok h
  rw [Linked, halloc, hhead]
  exact hitems.linked.append _

/-- Forgetting never fails an assertion, and what it leaves is linked. -/
theorem Linked.forget (h : d.Linked) (hhead : ∀ n ∈ d.head, n < d.here) (foldCase : Bool)
    (name : String) : (∀ assertion, d.forget foldCase name ≠ .error (.violated assertion)) ∧
      ∀ address d', d.forget foldCase name = .ok (address, d') → d'.Linked := by
  unfold Dictionary.forget
  cases hfind : d.find? foldCase name with
  | none => simp
  | some entry =>
    have hmem : entry ∈ d.entries := List.mem_of_find?_eq_some hfind
    obtain ⟨address, hsome, hfrom⟩ : ∃ address, d.head = some address ∧
        entry ∈ d.memory.entriesFrom address := by
      unfold entries at hmem
      split at hmem
      · cases hmem
      · exact ⟨_, ‹_›, hmem⟩
    rw [Linked, hsome] at h
    obtain ⟨hle, hlink, hcut⟩ := Memory.linked_of_mem_entriesFrom h hfrom
    have hhere : address < d.here := hhead address hsome
    have hlength : (d.memory.allocated.take entry.address).length = entry.address := by
      rw [List.length_take, Memory.length_allocated]
      have : d.memory.here = d.here := rfl
      omega
    have hsplit : d.memory.allocated =
        d.memory.allocated.take entry.address ++ d.memory.allocated.drop entry.address :=
      (List.take_append_drop _ _).symm
    have hlink' : ∀ n ∈ entry.link, n < (d.memory.allocated.take entry.address).length := by
      rwa [hlength]
    obtain ⟨d', hd', hlast, -, halloc⟩ := truncate_eq_ok hsplit hlink'
    rw [hlength] at hd'
    simp only [hd']
    refine ⟨by simp, ?_⟩
    rintro _ _ ⟨⟩
    rwa [Linked, halloc, hlast]

end Dictionary
end ForthAssembler

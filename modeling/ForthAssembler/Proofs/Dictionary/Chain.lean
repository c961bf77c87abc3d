import ForthAssembler.Proofs.Dictionary.Header

/-! The entries that a chain links in raw bytes, as a list. The check accepts just the bytes that hold
such a list, and the walk through a memory finds it. -/
namespace ForthAssembler
open Text

namespace Chain

/-- An entry by its offset and its name. -/
structure Item where
  address : Nat
  name : String
  deriving DecidableEq, Repr

/-- Where the header ends, with the name. -/
def Item.stop (item : Item) : Nat := item.address + Entry.nameOffset + (utf8 item.name).length

/-- The cell at an offset, if both of its bytes are there. -/
def cell? (bytes : List UInt8) (address : Nat) : Option Nat := do
  let high ← bytes[address]?
  let low ← bytes[address + 1]?
  some (Cell.value high low)

/-- A link, the length of a name and a name that is a text stand in the bytes. -/
structure Stands (bytes : List UInt8) (item : Item) (link : Link) : Prop where
  link : (cell? bytes item.address).map Link.ofCell = some link
  name : ∃ tag, bytes[item.address + Entry.tagOffset]? = some tag ∧
    Tag.nameLength tag = (utf8 item.name).length ∧
    (bytes.drop (item.address + Entry.nameOffset)).take (utf8 item.name).length = utf8 item.name
  legal : Entry.Legal item.name

/-- The offset of the first entry of a list. -/
def first (items : List Item) : Link := items.head?.map (·.address)

/-- The bytes hold entries, the newest first. Their offsets decrease, each links to the next one of
the list, and the last one to none. -/
structure Holds (bytes : List UInt8) (last : Link) (items : List Item) : Prop where
  last : first items = last
  decreasing : items.Pairwise fun younger older => older.address < younger.address
  stands : ∀ i item, items[i]? = some item →
    Stands bytes item (items[i + 1]?.map (·.address))

variable {bytes bytes' : List UInt8} {item : Item} {items older : List Item} {link last : Link}

theorem le_length_of_cell? {address n : Nat} (h : cell? bytes address = some n) :
    address + 2 ≤ bytes.length := by
  unfold cell? at h
  cases hlow : bytes[address + 1]? with
  | none => cases hhigh : bytes[address]? <;> simp [hhigh, hlow] at h
  | some low =>
    have := (List.getElem?_eq_some_iff.mp hlow).1
    omega

theorem cell?_take {address n : Nat} (h : address + 2 ≤ n) :
    cell? (bytes.take n) address = cell? bytes address := by
  have hhigh : (bytes.take n)[address]? = bytes[address]? := List.getElem?_take_of_lt (by omega)
  have hlow : (bytes.take n)[address + 1]? = bytes[address + 1]? :=
    List.getElem?_take_of_lt (by omega)
  simp only [cell?, hhigh, hlow]

theorem Stands.stop_le (h : Stands bytes item link) : item.stop ≤ bytes.length := by
  obtain ⟨tag, -, -, hname⟩ := h.name
  have hpos := h.legal.1
  have hlength := congrArg List.length hname
  simp only [List.length_take, List.length_drop] at hlength
  simp only [Item.stop]
  omega

theorem address_lt_stop (item : Item) : item.address + 3 ≤ item.stop := by
  simp only [Item.stop, Entry.nameOffset]
  omega

/-- Only the bytes of the header matter. -/
theorem Stands.congr (h : Stands bytes item link)
    (htake : bytes'.take item.stop = bytes.take item.stop) : Stands bytes' item link := by
  have hstop := address_lt_stop item
  have hget (i : Nat) (hi : i < item.stop) : bytes'[i]? = bytes[i]? := by
    rw [← List.getElem?_take_of_lt hi, htake, List.getElem?_take_of_lt hi]
  have hcell : cell? bytes' item.address = cell? bytes item.address := by
    rw [← cell?_take (Nat.le_of_succ_le hstop), htake, cell?_take (Nat.le_of_succ_le hstop)]
  have hrange (bytes : List UInt8) : (bytes.drop (item.address + Entry.nameOffset)).take
      (utf8 item.name).length = (bytes.take item.stop).drop (item.address + Entry.nameOffset) := by
    rw [List.drop_take, Item.stop, Nat.add_sub_cancel_left]
  obtain ⟨tag, htag, hlength, hname⟩ := h.name
  refine ⟨?_, ⟨tag, ?_, hlength, ?_⟩, h.legal⟩
  · rw [hcell]
    exact h.link
  · rw [hget _ (Nat.lt_of_lt_of_le (Nat.add_lt_add_left (by decide) _) hstop)]
    exact htag
  · rw [hrange, htake, ← hrange]
    exact hname

theorem holds_nil : Holds bytes last [] ↔ last = none := by
  constructor
  · intro h
    exact h.last.symm
  · rintro rfl
    exact ⟨rfl, .nil, by simp⟩

theorem holds_cons : Holds bytes last (item :: older) ↔ last = some item.address ∧
    Stands bytes item (first older) ∧ (∀ n ∈ first older, n < item.address) ∧
    Holds bytes (first older) older := by
  have hnext : first older = older[0]?.map (·.address) := by
    rw [first, List.head?_eq_getElem?]
  constructor
  · intro h
    obtain ⟨hbelow, hdecreasing⟩ := List.pairwise_cons.mp h.decreasing
    refine ⟨h.last.symm, ?_, ?_, rfl, hdecreasing, fun i next hnext => h.stands (i + 1) next hnext⟩
    · rw [hnext]
      exact h.stands 0 item rfl
    · intro n hn
      obtain ⟨next, hmem, rfl⟩ := Option.map_eq_some_iff.mp hn
      exact hbelow next (List.mem_of_mem_head? hmem)
  · rintro ⟨rfl, hitem, hlt, hrest⟩
    refine ⟨rfl, List.pairwise_cons.mpr ⟨?_, hrest.decreasing⟩, ?_⟩
    · cases older with
      | nil => simp
      | cons next rest =>
        have hhead : next.address < item.address := hlt _ rfl
        intro other hother
        rcases List.mem_cons.mp hother with rfl | hother
        · exact hhead
        · exact Nat.lt_trans ((List.pairwise_cons.mp hrest.decreasing).1 other hother) hhead
    · intro i next hi
      cases i with
      | zero =>
        cases hi
        rw [hnext] at hitem
        exact hitem
      | succ i => exact hrest.stands i next hi

/-- The entries from some point on are a chain of their own. -/
theorem Holds.of_append {newer : List Item} (h : Holds bytes last (newer ++ older)) :
    Holds bytes (first older) older := by
  induction newer generalizing last with
  | nil =>
    obtain rfl := h.last
    exact h
  | cons item newer ih => exact ih (holds_cons.mp h).2.2.2

theorem Holds.stands_of_mem (h : Holds bytes last items) (hitem : item ∈ items) :
    ∃ link, Stands bytes item link := by
  obtain ⟨i, hi⟩ := List.getElem?_of_mem hitem
  exact ⟨_, h.stands i item hi⟩

theorem Holds.congr (h : Holds bytes last items)
    (htake : ∀ item ∈ items, bytes'.take item.stop = bytes.take item.stop) :
    Holds bytes' last items where
  last := h.last
  decreasing := h.decreasing
  stands := fun i item hi => (h.stands i item hi).congr (htake item (List.mem_of_getElem? hi))

/-- The head of a chain lies before the end of the bytes. -/
theorem Holds.lt_length (h : Holds bytes last items) : ∀ n ∈ last, n + 3 ≤ bytes.length := by
  rintro n hn
  obtain rfl := h.last
  obtain ⟨item, hitem, rfl⟩ := Option.map_eq_some_iff.mp hn
  obtain ⟨link, hstands⟩ := h.stands_of_mem (List.mem_of_mem_head? hitem)
  exact Nat.le_trans (address_lt_stop item) hstands.stop_le

private theorem take_header {address : Nat} {high low tag : UInt8} :
    (bytes.drop address).take Entry.nameOffset = [high, low, tag] ↔
      bytes[address]? = some high ∧ bytes[address + 1]? = some low ∧
        bytes[address + Entry.tagOffset]? = some tag := by
  have hget (i : Nat) : (bytes.drop address)[i]? = bytes[address + i]? := List.getElem?_drop
  have h₀ := hget 0
  have h₁ := hget 1
  have h₂ := hget Entry.tagOffset
  rw [Nat.add_zero] at h₀
  rw [← h₀, ← h₁, ← h₂]
  match bytes.drop address with
  | [] => simp [Entry.nameOffset]
  | [_] => simp [Entry.nameOffset]
  | [_, _] => simp [Entry.nameOffset, Entry.tagOffset]
  | _ :: _ :: _ :: _ => simp [Entry.nameOffset, Entry.tagOffset]

/-- One entry is accepted if it stands in the bytes and the ones that it links to are accepted. -/
theorem check_some_eq_ok_iff {upper address : Nat} :
    check bytes upper (some address) = .ok () ↔ address < upper ∧ ∃ name link,
      Stands bytes ⟨address, name⟩ link ∧ check bytes address link = .ok () := by
  constructor
  · intro h
    rw [check] at h
    split at h
    · rename_i hlt
      split at h
      · rename_i high low tag hheader
        obtain ⟨hhigh, hlow, htag⟩ := take_header.mp hheader
        dsimp only at h
        split at h
        · cases h
        rename_i hlength
        split at h
        · cases h
        rename_i hname
        obtain ⟨hpos, htext⟩ := not_or.mp hname
        obtain ⟨name, hof⟩ := Option.ne_none_iff_exists'.mp htext
        have hutf8 := ofUtf8?_eq_some_iff.mp hof
        have hlimit : Tag.nameLength tag ≤ Tag.maxName := by
          simp only [Tag.nameLength, Tag.maxName]
          omega
        have hsize : Tag.nameLength tag = (utf8 name).length := by
          have hle := congrArg List.length hutf8
          rw [List.length_take] at hle hlength
          omega
        refine ⟨hlt, name, _, ⟨?_, ⟨tag, htag, hsize, ?_⟩, ?_⟩, h⟩
        · simp [cell?, hhigh, hlow]
        · rw [← hsize, hutf8]
        · rw [hsize] at hpos hlimit
          exact ⟨Nat.pos_of_ne_zero hpos, hlimit⟩
      · cases h
    · cases h
  · rintro ⟨hlt, name, link, hstands, hcheck⟩
    obtain ⟨tag, htag, hlength, hname⟩ := hstands.name
    have hlink := hstands.link
    dsimp only at htag hlength hname hlink
    have hcell := hlink
    simp only [cell?] at hcell
    cases hhigh : bytes[address]? with
    | none => simp [hhigh] at hcell
    | some high =>
      cases hlow : bytes[address + 1]? with
      | none => simp [hhigh, hlow] at hcell
      | some low =>
        obtain rfl : Link.ofCell (Cell.value high low) = link := by
          simpa [hhigh, hlow] using hcell
        have hpos : (utf8 name).length ≠ 0 := Nat.ne_of_gt hstands.legal.1
        rw [check, dif_pos hlt, take_header.mpr ⟨hhigh, hlow, htag⟩]
        simp [hlength, hname, hpos, ofUtf8?_utf8, hcheck]

/-- The check accepts just the bytes that hold a chain of entries. -/
theorem check_eq_ok_iff {upper : Nat} :
    check bytes upper link = .ok () ↔
      (∀ n ∈ link, n < upper) ∧ ∃ items, Holds bytes link items := by
  induction upper using Nat.strongRecOn generalizing link with
  | ind upper ih =>
    cases link with
    | none =>
      have hnil : Holds bytes none [] := holds_nil.mpr rfl
      exact ⟨fun _ => ⟨nofun, [], hnil⟩, fun _ => by rw [check]⟩
    | some address =>
      rw [check_some_eq_ok_iff]
      constructor
      · rintro ⟨hlt, name, link, hstands, hcheck⟩
        obtain ⟨hbelow, items, hitems⟩ := (ih address hlt).mp hcheck
        obtain rfl := hitems.last
        refine ⟨by simpa using hlt, ⟨address, name⟩ :: items, ?_⟩
        exact holds_cons.mpr ⟨rfl, hstands, hbelow, hitems⟩
      · rintro ⟨hbelow, items, hitems⟩
        have hlt : address < upper := hbelow address rfl
        cases items with
        | nil => cases hitems.last
        | cons item older =>
          obtain ⟨heq, hstands, holder, hrest⟩ := holds_cons.mp hitems
          obtain rfl := Option.some.inj heq
          exact ⟨hlt, item.name, first older, hstands, (ih _ hlt).mpr ⟨holder, older, hrest⟩⟩

end Chain

/-- What a chain knows of an entry. -/
def Entry.item (entry : Entry) : Chain.Item := ⟨entry.address, entry.name⟩

namespace Chain
variable {m : Memory} {item : Item} {items older : List Item} {link last : Link}

theorem get16?_eq (m : Memory) (address : Nat) : m.get16? address = cell? m.allocated address := by
  simp only [Memory.get16?, cell?, Memory.get8?_eq]

/-- An entry that stands in a memory is read as it stands there. -/
theorem Stands.read (h : Stands m.allocated item link) :
    (Entry.read m item.address).link = link ∧ (Entry.read m item.address).item = item ∧
      (Entry.read m item.address).code = item.stop := by
  obtain ⟨tag, htag, hlength, hname⟩ := h.name
  have hcell : ((cell? m.allocated item.address).bind Link.ofCell) = link := by
    obtain ⟨n, hn, rfl⟩ := Option.map_eq_some_iff.mp h.link
    rw [hn, Option.bind_some]
  have hread : (m.get8? (item.address + Entry.tagOffset)).getD 0 = tag := by
    rw [Memory.get8?_eq, htag, Option.getD_some]
  have hrange : m.range (item.address + Entry.nameOffset)
      (item.address + Entry.nameOffset + (utf8 item.name).length) = utf8 item.name := by
    rw [Memory.range_eq, List.drop_take, Nat.add_sub_cancel_left, hname]
  refine ⟨?_, ?_, ?_⟩
  · rw [← hcell, ← get16?_eq]
    rfl
  · simp only [Entry.item, Entry.read, hread, hlength, hrange, ofUtf8?_utf8, Option.getD_some]
  · simp only [Entry.code, Entry.read, hread, hlength, Item.stop]

/-- The walk from the newest entry of a chain finds them all. By induction on the entries. -/
theorem Holds.entriesFrom_eq (h : Holds m.allocated last (item :: older)) :
    m.entriesFrom item.address = (item :: older).map fun i => Entry.read m i.address := by
  induction older generalizing item last with
  | nil =>
    obtain ⟨-, hstands, -, -⟩ := holds_cons.mp h
    have hlink : (Entry.read m item.address).link = none := hstands.read.1
    rw [Memory.entriesFrom]
    simp only [hlink]
    rfl
  | cons next older ih =>
    obtain ⟨-, hstands, hbelow, hrest⟩ := holds_cons.mp h
    have hlink : (Entry.read m item.address).link = some next.address := hstands.read.1
    have hlt : next.address < item.address := hbelow next.address rfl
    rw [Memory.entriesFrom]
    simp only [hlink, hlt, if_true]
    rw [ih hrest]
    rfl

end Chain

namespace Dictionary
open Chain
variable {d : Dictionary} {items : List Chain.Item}

theorem entries_of_holds (h : Holds d.memory.allocated d.head items) :
    d.entries = items.map fun item => Entry.read d.memory item.address := by
  cases items with
  | nil =>
    rw [entries, holds_nil.mp h]
    rfl
  | cons item older =>
    rw [entries, (holds_cons.mp h).1]
    exact h.entriesFrom_eq

/-- An entry that is found links to the next older one of the chain. -/
theorem of_mem_entries (h : Holds d.memory.allocated d.head items) {entry : Entry}
    (hentry : entry ∈ d.entries) : ∃ newer item older, items = newer ++ item :: older ∧
      entry.address = item.address ∧ entry.link = first older := by
  rw [entries_of_holds h] at hentry
  obtain ⟨item, hitem, rfl⟩ := List.mem_map.mp hentry
  obtain ⟨newer, older, rfl⟩ := List.append_of_mem hitem
  obtain ⟨-, hstands, -, -⟩ := holds_cons.mp h.of_append
  exact ⟨newer, item, older, rfl, rfl, hstands.read.1⟩

/-- All entries of a chain are found, by their offsets and their names. -/
theorem map_item_entries (h : Holds d.memory.allocated d.head items) :
    d.entries.map Entry.item = items := by
  have hread : ∀ item ∈ items, (Entry.read d.memory item.address).item = item := by
    intro item hitem
    obtain ⟨link, hstands⟩ := h.stands_of_mem hitem
    exact hstands.read.2.1
  rw [entries_of_holds h, List.map_map]
  exact (List.map_congr_left hread).trans (List.map_id items)

/-- An image is restored if it fits and holds a chain from its head on. -/
theorem exists_restore_iff {bytes : List UInt8} {link : Link} :
    (∃ d', d.restore bytes link = .ok d') ↔
      bytes.length ≤ d.memory.size ∧ ∃ items, Holds bytes link items := by
  have hcheck : Chain.check bytes bytes.length link = .ok () ↔ ∃ items, Holds bytes link items := by
    rw [check_eq_ok_iff]
    refine ⟨fun h => h.2, fun ⟨items, hitems⟩ => ⟨?_, items, hitems⟩⟩
    intro n hn
    have hle := hitems.lt_length n hn
    omega
  simp only [restore, bind, Except.bind]
  rw [← hcheck]
  constructor
  · rintro ⟨d', hd'⟩
    split at hd'
    · cases hd'
    rename_i hfits
    split at hd'
    · cases hd'
    · exact ⟨Nat.le_of_not_lt hfits, ‹_›⟩
  · rintro ⟨hfits, hok⟩
    have hrestore := Memory.restore?_eq d.memory bytes
    rw [if_pos hfits] at hrestore
    obtain ⟨m, hm, -⟩ := Option.map_eq_some_iff.mp hrestore
    rw [if_neg (Nat.not_lt_of_le hfits), hok]
    simp only [hm]
    exact ⟨_, rfl⟩

end Dictionary
end ForthAssembler
